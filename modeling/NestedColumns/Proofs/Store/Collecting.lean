import NestedColumns.Proofs.Log.Composing
import NestedColumns.Proofs.Store.Reopening

/-!
# What an opening collects

Whatever lies in the directory of a store and whatever its log says: on a disk that does not fail,
an opening that could replay the log removes every directory that the catalog does not refer to,
and nothing else. It goes by the number that a name stands for, at the place where it stands: a
database is looked up in the catalog, a table in the database above, a chunk in the table above
that. So another spelling of a number is as good as the usual one, and in a directory that is not
looked into a number means nothing. All that is in a chunk of the catalog is left alone, as are
files and other names.

Of what is left the catalog refers to everything, so the next opening removes nothing. It can make
directories, if the way to the store leads through a directory that was removed and back.

## Main definitions

* `Store.Unreferenced`: A directory that the catalog does not refer to, but to all above it.
* `Store.Committed`: The directory of a chunk of the catalog.
* `Store.Collected`: Of what was on a disk, only what is not referred to is gone.

## Theorems

* `LogFile.openAt_contents`: Opening a log writes to no other file.
* `Store.Committed.apart`: A chunk of the catalog is in nothing that is not referred to.
* `Store.openWith_again`: A store in which all is referred to loses nothing.
* `Store.openWith_collects`: What an opening removes.
-/

namespace NestedColumns

namespace LogFile

variable {d d' : Disk} {path : Path} {file number : Nat}

theorem openFile_contents (h : openFile d path = (d', .ok file)) (hn : number ≠ file) :
    d'.contentsOf number = d.contentsOf number := by
  rw [openFile] at h
  split at h
  · cases h
  · rw [(Prod.mk.inj h).1]
  · next hnone =>
    split at h
    · cases h
    · next after hperform =>
      rcases Disk.createFile_spec hnone hperform with ⟨hnode, -, -⟩
      rw [hnode] at h
      simp only [Prod.mk.injEq, Except.ok.injEq] at h
      rcases h with ⟨rfl, rfl⟩
      rcases Disk.apply_of_perform_ok hperform with ⟨made, happly, rfl⟩
      rw [Disk.apply] at happly
      split at happly
      · cases happly
      · cases happly
      · rw [← Except.ok.inj happly]
        show ((d.contents.insert d.nextFile []).find? number).getD [] = _
        rw [IdMap.find?_insert, if_neg (Ne.symm hn), Disk.contentsOf]

/-- Opening a log writes to its file only, which may have to be made or cut off. -/
theorem openAt_contents {log : LogFile} {ops : List Operation}
    (h : openAt d path = (d', .ok (log, ops))) (hn : number ≠ log.file) :
    d'.contentsOf number = d.contentsOf number := by
  rcases openAt_eq_ok h with ⟨d₁, file, hopen, hreplay⟩
  simp only [replay] at hreplay
  split at hreplay
  · cases hreplay
  · split at hreplay
    · split at hreplay
      · cases hreplay
      · next after hperform =>
        simp only [Prod.mk.injEq, Except.ok.injEq] at hreplay
        rcases hreplay with ⟨rfl, rfl, rfl⟩
        rcases Disk.apply_of_perform_ok hperform with ⟨cut, happly, rfl⟩
        rw [Disk.apply, Except.ok.injEq] at happly
        rw [← openFile_contents hopen hn, ← happly]
        show ((d₁.contents.insert file _).find? number).getD [] = _
        rw [IdMap.find?_insert, if_neg (Ne.symm hn), Disk.contentsOf]
    · simp only [Prod.mk.injEq, Except.ok.injEq] at hreplay
      rcases hreplay with ⟨rfl, rfl, rfl⟩
      exact openFile_contents hopen hn

end LogFile

namespace Store

variable {c : Catalog} {d d' : Disk} {path p q whole : Path} {id : Nat}

/-! ### Directories and the catalog -/

/-- A directory that a catalog does not refer to, in one that is looked into: of a database that
    it does not have, of a table that the database above does not have, or of a chunk that the
    table above does not have. -/
inductive Unreferenced (c : Catalog) (d : Disk) (path : Path) : Path → Prop where
  | database {id : Nat} {p : Path} (here : Numbered d path id p)
      (unknown : c.databases.find? id = none) : Unreferenced c d path p
  | table {database id : Nat} {above p : Path} {db : Database}
      (inside : Numbered d path database above) (known : c.databases.find? database = some db)
      (here : Numbered d above id p) (unknown : db.tables.find? id = none) :
      Unreferenced c d path p
  | chunk {database table id : Nat} {above upper p : Path} {db : Database} {t : Table}
      (inside : Numbered d path database above) (known : c.databases.find? database = some db)
      (within : Numbered d above table upper) (held : db.tables.find? table = some t)
      (here : Numbered d upper id p) (unknown : ∀ chunk ∈ t.chunks, chunk.chunk ≠ id) :
      Unreferenced c d path p

/-- The directory of a chunk of a catalog, however its numbers are spelled. -/
inductive Committed (c : Catalog) (d : Disk) (path : Path) : Path → Prop where
  | chunk {database table : Nat} {above upper p : Path} {db : Database} {t : Table}
      {chunk : ChunkInfo} (inside : Numbered d path database above)
      (known : c.databases.find? database = some db) (within : Numbered d above table upper)
      (held : db.tables.find? table = some t) (here : Numbered d upper chunk.chunk p)
      (listed : chunk ∈ t.chunks) : Committed c d path p

theorem Numbered.above (h : Numbered d path id p) : path <+: p := by
  rcases h with ⟨name, -, rfl, -⟩
  exact List.prefix_append ..

theorem Numbered.directory (h : Numbered d path id p) : d.node? p = some .directory := by
  rcases h with ⟨name, -, -, hnode⟩
  exact hnode

-- On the way to something there is one name on each level.
theorem Numbered.same {n : Nat} (h : Numbered d path id p) (h' : Numbered d path n q)
    (hp : p <+: whole) (hq : q <+: whole) : id = n ∧ p = q := by
  rcases h with ⟨name, hname, rfl, -⟩
  rcases h' with ⟨other, hother, rfl, -⟩
  have hlength : (path ++ [name]).length = (path ++ [other]).length := by
    rw [List.length_append, List.length_append, List.length_singleton, List.length_singleton]
  have hsame := (List.prefix_of_prefix_length_le hp hq (Nat.le_of_eq hlength)).eq_of_length hlength
  rw [(List.cons.inj (List.append_cancel_left hsame)).1, hother, Option.some.injEq] at hname
  exact ⟨hname.symm, hsame⟩

theorem Numbered.mono (h : Numbered d path id p)
    (hkept : ∀ p, d.node? p = some .directory → d'.node? p = some .directory) :
    Numbered d' path id p := by
  rcases h with ⟨name, hname, hp, hnode⟩
  exact ⟨name, hname, hp, hkept p hnode⟩

-- What is above a directory was there with it.
theorem Numbered.back (h : Numbered d' path id p) (ht : d.Tree) (hp : p <+: q)
    (hnode : d.node? q = some .directory) : Numbered d path id p := by
  rcases h with ⟨name, hname, hsame, -⟩
  refine ⟨name, hname, hsame, ?_⟩
  by_cases heq : p = q
  · rw [heq, hnode]
  · exact ht.directory_above hnode hp heq

theorem Unreferenced.mono (h : Unreferenced c d path p)
    (hkept : ∀ p, d.node? p = some .directory → d'.node? p = some .directory) :
    Unreferenced c d' path p := by
  cases h with
  | database here unknown => exact .database (here.mono hkept) unknown
  | table inside known here unknown =>
      exact .table (inside.mono hkept) known (here.mono hkept) unknown
  | chunk inside known within held here unknown =>
      exact .chunk (inside.mono hkept) known (within.mono hkept) held (here.mono hkept) unknown

theorem Unreferenced.back (h : Unreferenced c d' path p) (ht : d.Tree)
    (hnode : d.node? p = some .directory) : Unreferenced c d path p := by
  cases h with
  | database here unknown => exact .database (here.back ht (List.prefix_refl _) hnode) unknown
  | table inside known here unknown =>
      exact .table (inside.back ht here.above hnode) known (here.back ht (List.prefix_refl _) hnode)
        unknown
  | chunk inside known within held here unknown =>
      exact .chunk (inside.back ht (within.above.trans here.above) hnode) known
        (within.back ht here.above hnode) held (here.back ht (List.prefix_refl _) hnode) unknown

theorem Unreferenced.directory (h : Unreferenced c d path p) : d.node? p = some .directory := by
  cases h with
  | database here _ => exact here.directory
  | table _ _ here _ => exact here.directory
  | chunk _ _ _ _ here _ => exact here.directory

-- What was added to a disk makes nothing unreferenced that was there before.
theorem Unreferenced.before {node : DiskNode} (h : Unreferenced c d' path p) (ht : d.Tree)
    (hkept : ∀ whole node, d.node? whole = some node → d'.node? whole = some node)
    (hp : p <+: whole) (hnode : d.node? whole = some node) : Unreferenced c d path p := by
  refine h.back ht ?_
  by_cases heq : p = whole
  · have hthere := h.directory
    rw [heq, hkept whole node hnode] at hthere
    rw [heq, hnode, hthere]
  · exact ht.directory_above hnode hp heq

/-- What is looked for when a store is opened. -/
theorem mem_orphans_iff (h : d.Tree) : p ∈ orphans c d path ↔ Unreferenced c d path p := by
  constructor
  · intro hin
    rcases (mem_orphans h).mp hin with ⟨id, above, hinside, ⟨hunknown, rfl⟩ | ⟨db, hknown, hin⟩⟩
    · exact .database hinside hunknown
    rcases (mem_orphansOfDatabase h).mp hin with
      ⟨id', upper, hwithin, ⟨hunknown, rfl⟩ | ⟨t, hheld, hin⟩⟩
    · exact .table hinside hknown hwithin hunknown
    rcases (mem_orphansOfTable h).mp hin with ⟨id'', hhere, hunknown⟩
    exact .chunk hinside hknown hwithin hheld hhere hunknown
  · intro hun
    cases hun with
    | database here unknown => exact (mem_orphans h).mpr ⟨_, _, here, Or.inl ⟨unknown, rfl⟩⟩
    | table inside known here unknown =>
        exact (mem_orphans h).mpr ⟨_, _, inside, Or.inr ⟨_, known,
          (mem_orphansOfDatabase h).mpr ⟨_, _, here, Or.inl ⟨unknown, rfl⟩⟩⟩⟩
    | chunk inside known within held here unknown =>
        exact (mem_orphans h).mpr ⟨_, _, inside, Or.inr ⟨_, known,
          (mem_orphansOfDatabase h).mpr ⟨_, _, within, Or.inr ⟨_, held,
            (mem_orphansOfTable h).mpr ⟨_, here, unknown⟩⟩⟩⟩⟩

/-- A chunk of the catalog is in nothing that the catalog does not refer to. -/
theorem Committed.apart (h : Committed c d path p) (hw : p <+: whole)
    (hu : Unreferenced c d path q) : ¬ q <+: whole := by
  intro hq
  cases h with
  | chunk inside known within held here listed =>
    have hupper := here.above.trans hw
    have habove := within.above.trans hupper
    cases hu with
    | database here' unknown =>
        rcases inside.same here' habove hq with ⟨rfl, rfl⟩
        rw [known] at unknown
        cases unknown
    | table inside' known' here' unknown =>
        rcases inside.same inside' habove (here'.above.trans hq) with ⟨rfl, rfl⟩
        rw [known, Option.some.injEq] at known'
        subst known'
        rcases within.same here' hupper hq with ⟨rfl, rfl⟩
        rw [held] at unknown
        cases unknown
    | chunk inside' known' within' held' here' unknown =>
        rcases inside.same inside' habove ((within'.above.trans here'.above).trans hq) with ⟨rfl, rfl⟩
        rw [known, Option.some.injEq] at known'
        subst known'
        rcases within.same within' hupper (here'.above.trans hq) with ⟨rfl, rfl⟩
        rw [held, Option.some.injEq] at held'
        subst held'
        exact unknown _ listed (here.same here' hw hq).1

/-! ### Removing -/

-- On a disk that does not fail, all of them are removed, and nothing else is.
theorem removeTrees_unreferenced (hr : d.Reliable) (h : d.Tree) (c : Catalog) (path : Path) :
    ∃ after, d.removeTrees (orphans c d path) = (after, .ok ()) ∧ after.Reliable ∧ after.Tree ∧
      after.contents = d.contents ∧
      (∀ p, Unreferenced c d path p → ∀ whole, p <+: whole → after.node? whole = none) ∧
      ∀ whole, (∀ p, Unreferenced c d path p → ¬ p <+: whole) →
        after.node? whole = d.node? whole := by
  have hscattered : Scattered d path (orphans c d path) := scattered_orphans h c
  have hgiven : ∀ p ∈ orphans c d path, p.isGiven = false := by
    intro p hp
    rcases orphans_inside hp with ⟨name, id, hname, hinside⟩
    rw [← Bool.not_eq_true]
    intro hgiven
    have habove := Disk.isGiven_of_start hinside hgiven
    rw [isGiven_numbered hname] at habove
    cases habove
  rcases Disk.removeTrees_exact hr h hscattered.directories hgiven hscattered.apart with
    ⟨after, hremove, hreliable, htree, hcontents, hgone, hkept⟩
  exact ⟨after, hremove, hreliable, htree, hcontents,
    fun p hp => hgone p ((mem_orphans_iff h).mpr hp),
    fun whole hw => hkept whole fun p hp => hw p ((mem_orphans_iff h).mp hp)⟩

/-- Of what was on a disk, exactly what lies in a directory that the catalog does not refer to is
    gone, and the rest is as it was. -/
structure Collected (c : Catalog) (path : Path) (d d' : Disk) : Prop where
  gone_iff : ∀ whole node, d.node? whole = some node →
    (d'.node? whole = none ↔ ∃ p, Unreferenced c d path p ∧ p <+: whole)
  kept : ∀ whole node, d.node? whole = some node → d'.node? whole ≠ none →
    d'.node? whole = some node
  committed : ∀ p, Committed c d path p → ∀ whole node, p <+: whole →
    d.node? whole = some node → d'.node? whole = some node

-- What was added to the disk beforehand does not matter for what was on it.
theorem collected_of_removed {d₁ : Disk} (ht : d.Tree)
    (hkept : ∀ whole node, d.node? whole = some node → d₁.node? whole = some node)
    (hgone : ∀ p, Unreferenced c d₁ path p → ∀ whole, p <+: whole → d'.node? whole = none)
    (hrest : ∀ whole, (∀ p, Unreferenced c d₁ path p → ¬ p <+: whole) →
      d'.node? whole = d₁.node? whole) : Collected c path d d' := by
  have hsame : ∀ whole node, d.node? whole = some node →
      (∀ p, Unreferenced c d path p → ¬ p <+: whole) → d'.node? whole = some node := by
    intro whole node hnode hnone
    rw [hrest whole, hkept whole node hnode]
    exact fun p hp hpre => hnone p (hp.before ht hkept hpre hnode) hpre
  refine ⟨fun whole node hnode => ⟨fun hnone => ?_, ?_⟩, fun whole node hnode hsome => ?_, ?_⟩
  · by_contra hno
    rw [hsame whole node hnode fun p hp hpre => hno ⟨p, hp, hpre⟩] at hnone
    cases hnone
  · rintro ⟨p, hp, hpre⟩
    exact hgone p (hp.mono fun q => hkept q _) whole hpre
  · refine hsame whole node hnode fun p hp hpre => hsome ?_
    exact hgone p (hp.mono fun q => hkept q _) whole hpre
  · exact fun p hp whole node hpre hnode => hsame whole node hnode fun q hq => hp.apart hpre hq

/-! ### Opening -/

variable {options : StoreOptions} {log : LogFile} {ops : List Operation} {registry : Registry}

/-- A store whose log is in order, and whose catalog refers to all that is looked at, is opened
    without a loss, and without a change of any file. -/
theorem openWith_again (hr : d.Reliable) (ht : d.Tree) (hlog : log.Holds d ops)
    (hpath : log.path = options.logPath) (hreplay : Registry.replay ops = .ok registry)
    (hall : ∀ p, ¬ Unreferenced registry.catalog d options.directory p) :
    (openWith options d).1.contents = d.contents ∧
      ∀ whole node, d.node? whole = some node →
        (openWith options d).1.node? whole = some node := by
  rw [openWith]
  cases options.validate with
  | error e => exact ⟨rfl, fun _ _ hnode => hnode⟩
  | ok _ =>
      rcases d.makeAlong_trail options.route with ⟨effects, htrail⟩
      rcases hmake : d.makeAlong options.route with ⟨d₁, result⟩
      rw [hmake] at htrail
      have hmade := htrail.changes
      have hcontents := htrail.contents
      cases result with
      | error e => exact ⟨hcontents, fun whole node hnode => hmade.kept whole node trivial hnode⟩
      | ok _ =>
          have hholds : log.Holds d₁ ops := hlog.elsewhere
            (by rw [hmade.kept _ _ trivial hlog.there, hlog.there])
            (by rw [Disk.contentsOf, hcontents, Disk.contentsOf])
          have hopen := hholds.openAt
          rw [hpath] at hopen
          rcases removeTrees_unreferenced (hmade.reliable hr) (hmade.tree ht) registry.catalog
            options.directory with ⟨after, hremove, -, -, hsame, -, hrest⟩
          simp only [openDirectory, hopen, hreplay, hremove]
          refine ⟨hsame.trans hcontents, fun whole node hnode => ?_⟩
          rw [hrest whole, hmade.kept whole node trivial hnode]
          exact fun p hp hpre => hall p
            (hp.before ht (fun whole node => hmade.kept whole node trivial) hpre hnode)

-- If the way to it only leads down, it is opened, and the disk stays as it is.
theorem openWith_direct {d₀ d₁ : Disk} (ht : d.Tree) (hlog : log.Holds d ops)
    (hpath : log.path = options.logPath) (hreplay : Registry.replay ops = .ok registry)
    (hall : ∀ p, ¬ Unreferenced registry.catalog d options.directory p)
    (hvalid : options.validate = .ok ()) (hdirect : options.Direct)
    (hmade : d₀.makeAlong options.route = (d₁, .ok ())) (habove : d.Above options.directory) :
    ∃ s, openWith options d = (d, .ok s) ∧ s.registry = registry := by
  have hmake : d.makeAlong options.route = (d, .ok ()) :=
    Disk.makeAlong_again hmade fun before hbefore _ => habove _ (hdirect before hbefore)
  have hopen := hlog.openAt
  rw [hpath] at hopen
  have hnone : orphans registry.catalog d options.directory = [] :=
    List.eq_nil_iff_forall_not_mem.mpr fun p hp => hall p ((mem_orphans_iff ht).mp hp)
  simp only [openWith, hvalid, hmake, openDirectory, hopen, hreplay, hnone, Disk.removeTrees]
  exact ⟨_, rfl, rfl⟩

/-- An opening that could replay its log succeeds on a disk that does not fail. Whatever was in its
    directory, of what was on the disk only the directories are gone that the catalog does not refer
    to, with all that was in them. What is there besides is the log or a directory, and no file but
    the log was written to. From what is left the next opening removes nothing, nor does it write to
    a file, and if the way to the store only leads down it changes nothing at all. -/
theorem openWith_collects {d₁ d₂ : Disk} (hr : d.Reliable) (ht : d.Tree)
    (hvalid : options.validate = .ok ()) (hmake : d.makeAlong options.route = (d₁, .ok ()))
    (hlog : LogFile.openAt d₁ options.logPath = (d₂, .ok (log, ops)))
    (hreplay : Registry.replay ops = .ok registry) :
    ∃ d' s, openWith options d = (d', .ok s) ∧ s.registry = registry ∧
      Collected registry.catalog options.directory d d' ∧
      (∀ whole node, d'.node? whole = some node →
        d.node? whole = some node ∨ whole = options.logPath ∨ node = .directory) ∧
      (∀ number, number ≠ log.file → d'.contentsOf number = d.contentsOf number) ∧
      (openWith options d').1.contents = d'.contents ∧
      (∀ whole node, d'.node? whole = some node →
        (openWith options d').1.node? whole = some node) ∧
      (options.Direct → ∃ s', openWith options d' = (d', .ok s') ∧ s'.registry = registry) := by
  rcases Disk.makeAlong_spec hmake with ⟨hmade, habove⟩
  have hsame : d₁.contents = d.contents := by
    rcases d.makeAlong_trail options.route with ⟨effects, htrail⟩
    rw [hmake] at htrail
    exact htrail.contents
  have hopened := LogFile.openAt_changes d₁ options.logPath
  rw [hlog] at hopened
  rcases LogFile.holds_of_openAt hlog with ⟨hpath, hholds⟩
  have hkept : ∀ whole node, d.node? whole = some node → d₂.node? whole = some node :=
    fun whole node hnode => hopened.kept whole node trivial (hmade.kept whole node trivial hnode)
  rcases removeTrees_unreferenced (hopened.reliable (hmade.reliable hr))
      (hopened.tree (hmade.tree ht)) registry.catalog options.directory with
    ⟨d', hremove, hreliable, htree, hcontents, hgone, hrest⟩
  have hold : ∀ whole node, d'.node? whole = some node → d₂.node? whole = some node := by
    intro whole node hnode
    rw [← hrest whole, hnode]
    intro p hp hpre
    rw [hgone p hp whole hpre] at hnode
    cases hnode
  have hspared : ∀ whole, whole <+: options.directory ∨ whole = options.logPath →
      d'.node? whole = d₂.node? whole := fun whole hwhole =>
    hrest whole fun p hp => orphans_outside ((mem_orphans_iff (hopened.tree (hmade.tree ht))).mpr hp)
      hwhole
  -- What the catalog does not refer to now, it did not refer to then.
  have hall : ∀ p, ¬ Unreferenced registry.catalog d' options.directory p := by
    intro p hp
    have hnode := hp.directory
    rw [hgone p (hp.mono fun q => hold q _) p (List.prefix_refl p)] at hnode
    cases hnode
  have hstill : log.Holds d' ops := hholds.elsewhere (hspared _ (Or.inr hpath))
    (by rw [Disk.contentsOf, hcontents, Disk.contentsOf])
  have hway : d'.Above options.directory := fun other hother => by
    rw [hspared other (Or.inl hother)]
    exact hopened.kept other _ trivial (habove _ (List.prefix_refl _) other hother)
  rcases openWith_again hreliable htree hstill hpath hreplay hall with ⟨hunwritten, hthere⟩
  refine ⟨d', ⟨options, .ofDisk d' options.backend options.cacheSize, log, registry, []⟩, ?_, rfl,
    collected_of_removed ht hkept hgone hrest, ?_, ?_, hunwritten, hthere, fun hdirect =>
      openWith_direct htree hstill hpath hreplay hall hvalid hdirect hmake hway⟩
  · simp only [openWith, hvalid, hmake, openDirectory, hlog, hreplay, hremove]
  · intro whole node hnode
    rcases hopened.new whole node (hold whole node hnode) with hbefore | ⟨hlogged, -⟩
    · rcases hmade.new whole node hbefore with hfirst | ⟨hdirectory, -⟩
      · exact Or.inl hfirst
      · exact Or.inr (Or.inr hdirectory)
    · exact Or.inr (Or.inl hlogged)
  · intro number hnumber
    rw [Disk.contentsOf, hcontents, ← Disk.contentsOf, LogFile.openAt_contents hlog hnumber,
      Disk.contentsOf, hsame, ← Disk.contentsOf]

/-- A log of one table with one chunk. -/
def litteredLog : List Operation :=
  [.createDatabase 0 "d", .createTable ⟨0, 0⟩ "t", .addChunk ⟨0, 0⟩ ⟨3, 1, []⟩]

/-- A disk with that log, with its chunk under another spelling, and with a chunk, a database and a
    directory of which the log says nothing. -/
def littered : Disk :=
  (Disk.empty.performAll [.makeDirectories ["db", "0", "0", "003"],
    .createFile ["db", "0", "0", "003", "x"] [1], .makeDirectories ["db", "0", "0", "17", "y"],
    .makeDirectories ["db", "+05"], .makeDirectories ["db", "notes", "9"],
    .createFile ["db", "manifest.json"]
      (Utf8.encode (LogEntry.transactions [litteredLog]))]).1

theorem tree_littered : littered.Tree := by
  have hchanges : Disk.Changes (fun _ => True) (fun _ _ => True) (fun _ => True) .empty littered :=
    Disk.performAll_changes fun e he => by
      simp only [List.mem_cons, List.not_mem_nil, or_false] at he
      rcases he with rfl | rfl | rfl | rfl | rfl | rfl <;> exact fun _ => by intros; trivial
  exact hchanges.tree Disk.tree_empty

theorem openAt_littered : ∃ log, log.file = 1 ∧
    LogFile.openAt littered sampleOptions.logPath = (littered, .ok (log, litteredLog)) := by
  have hnode : littered.node? sampleOptions.logPath = some (.file 1) := by decide +kernel
  have hcontents : littered.contentsOf 1 = Utf8.encode (LogEntry.transactions [litteredLog]) := rfl
  have hread : ∀ op ∈ [litteredLog].flatten, op.Readable := by
    intro op hop
    simp only [litteredLog, List.flatten_cons, List.flatten_nil, List.append_nil, List.mem_cons,
      List.not_mem_nil, or_false] at hop
    rcases hop with rfl | rfl | rfl <;> exact ⟨by decide, by decide⟩
  rcases Replay.ofBytes_transactions [litteredLog] with ⟨-, hreplay⟩ | ⟨hnot, -⟩
  · refine ⟨⟨sampleOptions.logPath, 1, (littered.contentsOf 1).length,
      (littered.contentsOf 1).length⟩, rfl, ?_⟩
    rw [LogFile.openAt, LogFile.openFile, hnode]
    simp only [LogFile.replay, hcontents, hreplay, Nat.lt_irrefl, if_false]
    rfl
  · exact absurd hread hnot

-- The chunk of the log and what is in it stay, and so does a number below another name.
theorem openWith_collects_littered : ∃ d' s, openWith sampleOptions littered = (d', .ok s) ∧
    d'.node? ["db", "0", "0", "003", "x"] = some (.file 0) ∧ d'.contentsOf 0 = [1] ∧
    d'.node? ["db", "0", "0", "17", "y"] = none ∧ d'.node? ["db", "+05"] = none ∧
    d'.node? ["db", "notes", "9"] = some .directory ∧
    ∃ s', openWith sampleOptions d' = (d', .ok s') := by
  rcases openAt_littered with ⟨log, hfile, hlog⟩
  have hmake : littered.makeAlong sampleOptions.route = (littered, .ok ()) := rfl
  have hreplay : Registry.replay litteredLog =
      .ok ((Registry.replay litteredLog).toOption.getD .empty) := rfl
  have hreliable : littered.Reliable := rfl
  rcases openWith_collects hreliable tree_littered rfl hmake hlog hreplay with
    ⟨d', s, hopen, -, hcollected, -, hcontents, -, -, hagain⟩
  rcases hagain Usage.direct_sample with ⟨s', hagain, -⟩
  have horphans : orphans ((Registry.replay litteredLog).toOption.getD .empty).catalog littered
      sampleOptions.directory = [["db", "0", "0", "17"], ["db", "+05"]] := by decide +kernel
  have hgone : ∀ whole node, littered.node? whole = some node → (d'.node? whole = none ↔
      ∃ p ∈ [["db", "0", "0", "17"], ["db", "+05"]], p <+: whole) := by
    intro whole node hnode
    rw [hcollected.gone_iff whole node hnode, ← horphans]
    simp only [mem_orphans_iff tree_littered]
  have hstays : ∀ whole node, littered.node? whole = some node →
      ¬ (∃ p ∈ [["db", "0", "0", "17"], ["db", "+05"]], p <+: whole) →
        d'.node? whole = some node := fun whole node hnode hno =>
    hcollected.kept whole node hnode fun hnone => hno ((hgone whole node hnode).mp hnone)
  refine ⟨d', s, hopen, hstays _ _ (by decide +kernel) (by decide), ?_,
    (hgone _ .directory (by decide +kernel)).mpr (by decide),
    (hgone _ .directory (by decide +kernel)).mpr (by decide),
    hstays _ _ (by decide +kernel) (by decide), s', hagain⟩
  rw [hcontents 0 (by rw [hfile]; decide)]
  decide +kernel

end Store

end NestedColumns
