import NestedColumns.Proofs.Store.Reopening
import NestedColumns.Proofs.Store.Settled

/-!
# What is left of a store

What a program leaves on a disk when it stops is enough to go on from: the log says what the
catalog was after the last transaction, and all chunks of its tables are there. Opening a store
removes only what its catalog does not know, one path after another, so it may be stopped as well
and leaves the same.

## Main definitions

* `Store.Needed`: What a store needs on its disk.
* `Store.Durable`: A catalog with its documents is left on a disk.
* `Store.Resumed`: A store that goes on from what was left.
* `Store.Opening`: What becomes of a store that is opened there.

## Theorems

* `Store.Durable.changes`: What else is on the disk does not matter.
* `Store.Durable.openWith_spec`: A store is opened where a catalog was left.
-/

namespace NestedColumns

open Disk (Stops)

namespace Store

variable {made : Path → DiskNode → Prop} {options : StoreOptions} {c : Catalog}
  {kept : TableRef → List Taken} {d d' : Disk} {s : Store}
  {bodies : PageKey → Option (List UInt8)} {txs : List (List Operation)} {effects : List Effect}

/-- What a store needs on its disk: the way to its directory, its log, and the chunks of its
    catalog. -/
def Needed (o : StoreOptions) (c : Catalog) (path : Path) : Prop :=
  (path <+: o.directory ∨ path = o.logPath) ∨
    ∃ ref t, c.table? ref = some t ∧ ∃ chunk ∈ t.chunks, o.chunkPath ref chunk.chunk <+: path

/-- A catalog is left on a disk, with the documents that were committed. There may be no log yet,
    and nothing was committed then. -/
inductive Durable (o : StoreOptions) (c : Catalog) (kept : TableRef → List Taken) (d : Disk) : Prop
  | unlogged (tree : d.Tree) (free : ∀ number, d.node? o.logPath ≠ some (.file number))
      (catalog : c = .empty) (nothing : kept = fun _ => [])
  | logged {s : Store} {bodies : PageKey → Option (List UInt8)} {txs : List (List Operation)}
      (options : s.options = o) (catalog : s.catalog = c) (disk : s.disk.left = d.left)
      (settled : s.Settled bodies kept) (logged : s.Logged txs)

theorem Settled.durable (h : s.Settled bodies kept) (hl : s.Logged txs) :
    Durable s.options s.catalog kept s.disk :=
  .logged rfl rfl rfl h hl

theorem Durable.changes (h : Durable options c kept d)
    (hd : Disk.Changes (Needed options c) made (fun _ => False) d.left d'.left)
    (hm : ∀ number, ¬ made options.logPath (.file number)) : Durable options c kept d' := by
  cases h with
  | unlogged tree free catalog nothing =>
      have htree := hd.tree (tree.of_entries rfl)
      refine .unlogged (htree.of_entries rfl) (fun number hnode => ?_) catalog nothing
      rcases hd.new _ _ hnode with hold | ⟨hmade, -⟩
      · exact free number hold
      · exact hm number hmade
  | @logged s bodies txs ho hc hleft settled logged =>
      subst ho hc
      rw [← hleft] at hd
      have hlogged : (s.setDisk d').Logged txs := logged.alter rfl rfl rfl rfl hd
        (fun _ hup => Or.inl hup) (hd.contents _ logged.number fun hw => hw)
      refine .logged (s := s.setDisk d') rfl rfl rfl (settled.changes (hd.weaken (fun _ hs => hs)
        (fun _ _ hm => hm) fun _ hw => absurd hw id) fun ref t ht chunk hin path hp =>
          Or.inr ⟨ref, t, ht, chunk, hin, hp⟩) hlogged

theorem Durable.left (h : Durable options c kept d) (hleft : d'.left = d.left) :
    Durable options c kept d' := by
  have hsame : Disk.Changes (Needed options c) (fun _ _ => False) (fun _ => False) d.left d'.left :=
    hleft ▸ .refl ..
  exact h.changes hsame fun _ hm => hm

theorem Durable.tree (h : Durable options c kept d) : d.Tree := by
  cases h with
  | unlogged tree => exact tree
  | logged _ _ disk _ logged =>
      have hentries : d.left.entries = _ := congrArg Disk.entries disk.symm
      exact logged.tree.of_entries hentries

theorem Durable.stops (h : Durable options c kept d)
    (ht : Disk.Trail (Needed options c) made (fun _ => False) d d' effects)
    (hm : ∀ number, ¬ made options.logPath (.file number)) :
    Stops (Durable options c kept) d d' effects :=
  ht.stops fun _ hd => h.changes hd.left hm

/-! ### Opening a store -/

theorem orphans_needed (h : d.Tree) {path other : Path}
    (hin : path ∈ orphans c d options.directory) (hp : path <+: other) :
    ¬ Needed options c other := by
  rintro (hup | ⟨ref, t, ht, chunk, hc, hw⟩)
  · exact orphans_outside hin hup hp
  · exact orphans_apart h ht hc hin hw hp

theorem removeOrphans_stops (h : Durable options c kept d) (ht : d.Tree) :
    ∃ effects, Stops (Durable options c kept) d
      (d.removeTrees (orphans c d options.directory)).1 effects := by
  have htrail : ∃ effects, Disk.Trail (Needed options c) (fun _ _ => False) (fun _ => False) d
      (d.removeTrees (orphans c d options.directory)).1 effects :=
    Disk.removeTrees_trail fun _ hin _ hp => orphans_needed ht hin hp
  rcases htrail with ⟨effects, htrail⟩
  exact ⟨effects, h.stops htrail fun _ hm => hm⟩

/-- A store that goes on from a catalog with the documents that were committed. -/
structure Resumed (o : StoreOptions) (c : Catalog) (kept : TableRef → List Taken) (s : Store) :
    Prop where
  options : s.options = o
  catalog : s.catalog = c
  settled : ∃ bodies, s.Settled bodies kept
  logged : ∃ txs, s.Logged txs
  whole : s.log.committed = s.log.position

-- What is known of pages with higher numbers is forgotten, as the numbers are given out again.
theorem Settled.collected (hs : s.Settled bodies kept) (hl : s.Logged txs) :
    ∃ registry, Registry.replay txs.flatten = .ok registry ∧ registry.catalog = s.catalog ∧
      ∀ (v : Volume) (log : LogFile), v.disk =
          (s.disk.removeTrees (orphans s.catalog s.disk s.options.directory)).1 →
        log.file = s.log.file → log.position = s.log.position → log.committed = log.position →
          Resumed s.options s.catalog kept ⟨s.options, v, log, registry, []⟩ := by
  rcases hl.catalog with ⟨registry, hreplay, hsame⟩
  refine ⟨registry, hreplay, hsame, fun v log hv hfile hposition hwhole => ?_⟩
  have hbelow := (Registry.replay_below hreplay).2
  have hchanges : Disk.Changes (Needed s.options s.catalog) (fun _ _ => False) (fun _ => False)
      s.disk v.disk := by
    rw [hv]
    exact Disk.removeTrees_changes fun _ hin _ hp => orphans_needed hl.tree hin hp
  refine ⟨rfl, hsame, ⟨fun key => if key.chunk < registry.nextChunk then bodies key else none,
    hs.alter rfl hfile hsame (hchanges.left.weaken (fun _ hs => hs) (fun _ _ hm => hm)
      fun _ hw => absurd hw id) (fun ref t ht chunk hin path hp =>
        Or.inr ⟨ref, t, ht, chunk, hin, hp⟩) (fun ref t ht chunk hin => ?_) fun key hkey => ?_⟩,
    ⟨txs, ?_⟩, hwhole⟩
  · have hlt : chunk.chunk < registry.nextChunk := hbelow ref t (hsame ▸ ht) chunk hin
    exact ⟨hlt, fun key hkey => by rw [if_pos (hkey ▸ hlt)]⟩
  · rw [if_neg (Nat.not_lt.mpr hkey)]
  · exact hl.alter rfl hfile hposition hsame hchanges.left (fun _ hup => Or.inl hup)
      (hchanges.contents _ hl.number fun hw => hw)

-- A log that was just made says nothing.
theorem settled_new {v : Volume} {number : Nat} (hvalid : options.validate = .ok ())
    (ht : v.disk.Tree) (habove : v.disk.Above options.directory)
    (hnode : v.disk.node? options.logPath = some (.file number))
    (hnumber : number < v.disk.nextFile) (hempty : v.disk.contentsOf number = []) :
    Settled ⟨options, v, ⟨options.logPath, number, 0, 0⟩, .empty, []⟩ (fun _ => none) (fun _ => []) ∧
      Logged ⟨options, v, ⟨options.logPath, number, 0, 0⟩, .empty, []⟩ [] := by
  have hnone : ∀ ref, Catalog.empty.table? ref = none := fun _ => rfl
  constructor
  · exact {
      options := hvalid
      number := hnumber
      catalog := Catalog.numbered_empty
      ahead := fun _ _ => rfl
      tables := fun ref t hin => by cases (hnone ref).symm.trans hin
      present := fun ref t hin => by cases (hnone ref).symm.trans hin
      gone := fun _ _ => rfl }
  · exact {
      above := habove
      logFile := hnode
      number := hnumber
      contents := hempty
      position := by rw [Store.disk, hempty, List.length_nil]
      tree := ht
      catalog := ⟨.empty, rfl, rfl⟩ }

-- The log is made in one attempt, before which there is none and after which it is empty.
theorem createLog_durable (hvalid : options.validate = .ok ()) (ht : d.Tree)
    (habove : d.Above options.directory) (hnone : d.node? options.logPath = none) :
    Durable options .empty (fun _ => []) (d.perform (.createFile options.logPath [])).1 := by
  have hunlogged : Durable options .empty (fun _ => []) d :=
    .unlogged ht (fun number hnode => by rw [hnone] at hnode; cases hnode) rfl rfl
  have hchanges : Disk.Changes (fun _ => True) (fun other _ => other = options.logPath)
      (fun _ => False) d (d.perform (.createFile options.logPath [])).1 :=
    Disk.perform_changes fun _ => rfl
  rcases Disk.perform_effects d (.createFile options.logPath []) with
    ⟨effects, -, hleft, -, hcases⟩
  have hone : effects = [] ∨ effects = [.createFile options.logPath []] := by
    rcases hcases with ⟨hnil, -⟩ | ⟨hone, -⟩ | ⟨n, part, -, htorn, hpart, -⟩
    · exact Or.inl hnil
    · exact Or.inr hone
    · rw [Disk.Effect.torn, List.take_nil, Option.some.injEq] at htorn
      exact Or.inr (htorn ▸ hpart)
  rcases hone with rfl | rfl
  · exact hunlogged.left hleft
  · rw [Disk.redo_singleton] at hleft
    cases happly : d.left.apply (.createFile options.logPath []) with
    | error fault =>
        rw [happly] at hleft
        exact hunlogged.left hleft
    | ok after =>
        have hfree : d.left.node? options.logPath = none := hnone
        have hnode := Disk.node?_addFile hfree [] options.logPath
        have hcontents := Disk.contentsOf_addFile d.left options.logPath []
        rw [happly] at hleft
        rw [Disk.apply, hfree] at happly
        split at happly
        · next hcase => cases hcase
        · cases happly
        · rw [Except.ok.injEq] at happly
          rw [if_pos rfl, happly] at hnode
          rw [happly] at hcontents
          generalize (d.perform (.createFile options.logPath [])).1 = d' at hleft hchanges
          have hsame : d'.left = after := hleft
          rw [← hsame] at hnode hcontents
          have hnumber : d.nextFile < d'.left.nextFile := by
            rw [hsame, ← happly]
            exact Nat.lt_succ_self _
          rcases settled_new (v := .ofDisk d' options.backend options.cacheSize) hvalid
            (hchanges.tree ht) (habove.changes hchanges fun _ _ => trivial) hnode hnumber hcontents
            with ⟨hsettled, hlogged⟩
          exact hsettled.durable hlogged

/-- What becomes of a store that is opened where a catalog was left: wherever it is stopped the same
    is left, and if it succeeds it goes on from that. On a disk that does not fail it succeeds if
    the log is read back. -/
structure Opening (o : StoreOptions) (c : Catalog) (kept : TableRef → List Taken) (d : Disk)
    (readBack : Prop) (answer : Disk × Except StoreError Store) : Prop where
  stops : ∃ effects, Stops (Durable o c kept) d answer.1 effects
  resumed : ∀ s, answer.2 = .ok s → Resumed o c kept s
  succeeds : d.Reliable → readBack → ∃ s, answer.2 = .ok s

-- Where the log cannot be read back nothing else is done.
theorem openDirectory_failed {readBack : Prop} {e : LogFileError}
    (hopen : LogFile.openAt d options.logPath = (d', .error e)) (hnot : ¬ readBack)
    (hstops : ∃ effects, Stops (Durable options c kept) d d' effects) :
    Opening options c kept d readBack (openDirectory options d) := by
  rw [openDirectory, hopen]
  exact ⟨hstops, (fun _ hs => by cases hs), fun _ hback => absurd hback hnot⟩

-- Once the log was read back, only the directories that the catalog does not know are removed.
theorem openDirectory_readBack {readBack : Prop} {log : LogFile} (hs : s.Settled bodies kept)
    (hl : s.Logged txs) (hfile : log.file = s.log.file) (hposition : log.position = s.log.position)
    (hwhole : log.committed = log.position) (hfaults : s.disk.faults = d.faults)
    (hopen : LogFile.openAt d s.options.logPath = (s.disk, .ok (log, txs.flatten)))
    (hstops : ∃ effects, Stops (Durable s.options s.catalog kept) d s.disk effects) :
    Opening s.options s.catalog kept d readBack (openDirectory s.options d) := by
  rcases hs.collected hl with ⟨registry, hreplay, hsame, hresumed⟩
  rcases hstops with ⟨first, hfirst⟩
  rcases removeOrphans_stops (hs.durable hl) hl.tree with ⟨more, hmore⟩
  have hremoved := fun hr => removeTrees_orphans hr hl.tree s.catalog s.options.directory
  rw [openDirectory, hopen]
  simp only [hreplay, hsame]
  rcases hremove : s.disk.removeTrees (orphans s.catalog s.disk s.options.directory) with
    ⟨after, result⟩
  rw [hremove] at hmore hresumed hremoved
  have hall := hfirst.trans hmore
  cases result with
  | error e =>
      refine ⟨⟨_, hall⟩, (fun _ hs' => by cases hs'), fun hreliable _ => ?_⟩
      rcases hremoved (hfaults.trans hreliable) with ⟨_, hsame⟩
      cases hsame
  | ok _ =>
      refine ⟨⟨_, hall⟩, fun s' hs' => ?_, fun _ _ => ⟨_, rfl⟩⟩
      rw [Except.ok.injEq] at hs'
      exact hs' ▸ hresumed _ log rfl hfile hposition hwhole

-- The log is made if it is not there.
theorem openDirectory_unlogged (hvalid : options.validate = .ok ()) (ht : d.Tree)
    (habove : d.Above options.directory)
    (hfree : ∀ number, d.node? options.logPath ≠ some (.file number)) :
    Opening options .empty (fun _ => []) d ((LogFile.openAt d options.logPath).2.isOk = true)
      (openDirectory options d) := by
  have hbefore : Durable options .empty (fun _ => []) d.left :=
    .unlogged (ht.of_entries rfl) hfree rfl rfl
  rcases hnode : d.node? options.logPath with _ | _ | number
  · rcases Disk.perform_stops hbefore
      ((createLog_durable hvalid ht habove hnode).left rfl) with ⟨first, hfirst⟩
    have hchanges : Disk.Changes (fun _ => True) (fun other _ => other = options.logPath)
        (fun _ => False) d (d.perform (.createFile options.logPath [])).1 :=
      Disk.perform_changes fun _ => rfl
    rcases hperform : d.perform (.createFile options.logPath []) with ⟨after, result⟩
    rw [hperform] at hfirst hchanges
    cases result with
    | error e =>
        have hfailed : LogFile.openAt d options.logPath = (after, .error (.file e)) := by
          rw [LogFile.openAt, LogFile.openFile, hnode, hperform]
        exact openDirectory_failed hfailed (by rw [hfailed]; exact Bool.false_ne_true) ⟨_, hfirst⟩
    | ok _ =>
        rcases Disk.createFile_spec hnode hperform with ⟨hthere, hnext, hcontents⟩
        rcases settled_new (v := .ofDisk after options.backend options.cacheSize) hvalid
          (hchanges.tree ht) (habove.changes hchanges fun _ _ => trivial) hthere
          (hnext ▸ Nat.lt_succ_self _) hcontents with ⟨hsettled, hlogged⟩
        have hopen : LogFile.openAt d options.logPath =
            (after, .ok (⟨options.logPath, d.nextFile, 0, 0⟩, [])) := by
          rw [LogFile.openAt, LogFile.openFile, hnode, hperform]
          simp only [hthere, LogFile.replay_empty hcontents]
        exact openDirectory_readBack hsettled hlogged rfl rfl rfl hchanges.faults hopen ⟨_, hfirst⟩
  · have hfailed : LogFile.openAt d options.logPath = (d, .error (.file .isADirectory)) := by
      rw [LogFile.openAt, LogFile.openFile, hnode]
    exact openDirectory_failed hfailed (by rw [hfailed]; exact Bool.false_ne_true) ⟨_, .refl hbefore⟩
  · exact absurd hnode (hfree number)

theorem Durable.openDirectory_spec (h : Durable options c kept d)
    (hvalid : options.validate = .ok ()) (habove : d.Above options.directory) :
    Opening options c kept d ((LogFile.openAt d options.logPath).2.isOk = true)
      (openDirectory options d) := by
  have hbefore : Durable options c kept d.left := h.left rfl
  cases h with
  | unlogged tree free catalog nothing =>
      subst catalog nothing
      exact openDirectory_unlogged hvalid tree habove free
  | @logged s bodies txs ho hc hleft settled logged =>
      have hsame : Disk.Changes (fun _ => True) (fun _ _ => False) (fun _ => False) s.disk.left
          d.left := hleft ▸ .refl ..
      have hsettled : (s.setDisk d).Settled bodies kept :=
        settled.changes (hsame.weaken (fun _ hs => hs) (fun _ _ hm => hm) fun _ hw => absurd hw id)
          fun _ _ _ _ _ _ _ => trivial
      have hlogged : (s.setDisk d).Logged txs :=
        logged.alter rfl rfl rfl rfl hsame (fun _ _ => trivial)
          (congrArg (Disk.contentsOf · s.log.file) hleft).symm
      subst ho hc
      rcases hlogged.readBack with ⟨-, hopen⟩ | ⟨-, hopen⟩
      · refine openDirectory_readBack (s := s.setDisk d) hsettled hlogged ?_ ?_ ?_ rfl hopen
          ⟨_, .refl hbefore⟩
        · rfl
        · exact hlogged.position.symm
        · rfl
      · have hfailed : LogFile.openAt d s.options.logPath = (d, .error (.log .badEntry)) := hopen
        exact openDirectory_failed hfailed (by rw [hfailed]; exact Bool.false_ne_true)
          ⟨_, .refl hbefore⟩

/-- A store is opened where a catalog was left. -/
theorem Durable.openWith_spec (h : Durable options c kept d) :
    Opening options c kept d (options.validate = .ok () ∧ ∃ d₁,
      d.makeAlong options.route = (d₁, .ok ()) ∧ (LogFile.openAt d₁ options.logPath).2.isOk = true)
        (openWith options d) := by
  have hbefore : Durable options c kept d.left := h.left rfl
  rw [openWith]
  cases hvalid : options.validate with
  | error e =>
      exact ⟨⟨_, .refl hbefore⟩, (fun _ hs => by cases hs), fun _ hback => by cases hback.1⟩
  | ok _ =>
      rcases d.makeAlong_trail options.route with ⟨first, htrail⟩
      have hfirst := h.stops (htrail.weaken (fun _ _ => trivial) (fun _ _ hm => hm) fun _ hw => hw)
        fun number hfile => by cases hfile
      simp only
      rcases hmake : d.makeAlong options.route with ⟨d₁, result⟩
      rw [hmake] at htrail hfirst
      cases result with
      | error e =>
          refine ⟨⟨_, hfirst⟩, (fun _ hs => by cases hs), fun _ hback => ?_⟩
          rcases hback with ⟨-, d₂, hmade, -⟩
          cases hmade
      | ok _ =>
          have hmade : Durable options c kept d₁ := hfirst.last.left rfl
          rcases hmade.openDirectory_spec hvalid ((Disk.makeAlong_spec hmake).2 _ (List.prefix_refl _))
            with ⟨⟨more, hmore⟩, hresumed, hsucceeds⟩
          refine ⟨⟨_, hfirst.trans hmore⟩, hresumed, fun hreliable hback => ?_⟩
          rcases hback with ⟨-, d₂, hsame, hlog⟩
          rw [Prod.mk.injEq] at hsame
          exact hsucceeds (htrail.faults.trans hreliable) (hsame.1 ▸ hlog)

end Store

end NestedColumns
