import NestedColumns.Proofs.Engine.Directories
import NestedColumns.Proofs.Store.Loading

/-!
# A file is loaded as a whole or not at all

On a disk that does not fail, with nothing in the way of new chunks, a session can write and commit
whatever it has taken, and whatever it has written can be removed again. So the documents of a file
become those of its table if the session takes all of them, as if somebody had inserted them one
after another. If the file holds something else, nothing is left of it, however many documents came
before and however many of them were written to chunks.

## Main definitions

* `Store.Older`: A path in no chunk that was still to come.
* `Store.Clear`: Nothing keeps new chunks of a table from being written.
* `Store.Unhindered`: A store that can write all of them.
* `Session.Loading`: What a session has done since it was opened.
* `Store.Untouched`: A store that is as it was.

## Theorems

* `Session.Loading.flush`, `Session.Loading.insert`, `Session.Loading.insertAll`: A session goes on.
* `Session.Loading.close`, `Session.Loading.abort`: It ends.
* `Engine.loads_whole_or_nothing`: A file is loaded.
-/

namespace NestedColumns

open Disk (Whole)

namespace Store

variable {s s₀ s' : Store} {bodies bodies' : PageKey → Option (List UInt8)}
  {kept : TableRef → List Taken} {ref : TableRef} {path : Path}

/-- A path in no chunk of a table that was still to come. -/
def Older (o : StoreOptions) (ref : TableRef) (next : Nat) (path : Path) : Prop :=
  ∀ id, next ≤ id → ¬ o.chunkPath ref id <+: path

/-- Nothing keeps new chunks of a table from being written: no file is on the way to them, and no
    directory is at their place whose numbers have more than 32 bits. -/
structure Clear (s : Store) (ref : TableRef) : Prop where
  way : ∀ id, s.registry.nextChunk ≤ id → ∀ path number, path <+: s.options.chunkPath ref id →
    s.disk.node? path ≠ some (.file number)
  far : ∀ id, s.registry.nextChunk ≤ id → ¬ s.options.IsChunk (s.options.chunkPath ref id) →
    s.disk.node? (s.options.chunkPath ref id) ≠ some .directory

/-- A store whose tables hold what was kept, on a disk that does not fail and that has nothing in
    the way of new chunks of a table. -/
structure Unhindered (s : Store) (bodies : PageKey → Option (List UInt8))
    (kept : TableRef → List Taken) (ref : TableRef) : Prop where
  settled : s.Settled bodies kept
  reliable : s.disk.Reliable
  tree : s.disk.Tree
  logFile : s.disk.node? s.options.logPath = some (.file s.log.file)
  way : ∀ id, s.registry.nextChunk ≤ id → ∀ path number, path <+: s.options.chunkPath ref id →
    s.disk.node? path ≠ some (.file number)
  vacant : ∀ id, s.registry.nextChunk ≤ id → s.disk.node? (s.options.chunkPath ref id) = none

theorem older_aside {o : StoreOptions} {next : Nat} (h : Aside o path) : Older o ref next path :=
  fun id _ hpre => h ref.database ((StoreOptions.database_prefix_chunk o ref id).trans hpre)

theorem older_outside {o : StoreOptions} {next id : Nat} (hid : next ≤ id)
    (h : Older o ref next path) : Outside [o.chunkPath ref id] path := by
  intro p hp
  rw [List.mem_singleton.mp hp]
  exact h id hid

-- What has the directory of a chunk was begun.
theorem Unhindered.older (h : s.Unhindered bodies kept ref) {other : TableRef} {id : Nat}
    {node : DiskNode} (hnode : s.disk.node? (s.options.chunkPath other id) = some node) :
    Older s.options ref s.registry.nextChunk (s.options.chunkPath other id) := by
  intro id' hid hpre
  rcases StoreOptions.chunk_unique hpre (List.prefix_refl _) with ⟨rfl, rfl⟩
  rw [h.vacant id' hid] at hnode
  cases hnode

theorem Unhindered.free (h : s.Unhindered bodies kept ref) {id : Nat}
    (hid : s.registry.nextChunk ≤ id) : s.disk.Free (s.options.chunkPath ref id) where
  way := h.way id hid
  inside := fun name => by
    refine Option.eq_none_iff_forall_ne_some.mpr fun node hnode => ?_
    have habove := h.tree.directory_above hnode (List.prefix_append ..) fun heq => by
      have hlength := congrArg List.length heq
      rw [List.length_append, List.length_singleton] at hlength
      omega
    rw [h.vacant id hid] at habove
    cases habove

-- Chunks that were begun are not in the way of others.
theorem Unhindered.later (h : s₀.Unhindered bodies kept ref)
    (hm : Moves (Older s₀.options ref s₀.registry.nextChunk) ref s₀ s)
    (hs : s.Settled bodies' kept) : s.Unhindered bodies' kept ref where
  settled := hs
  reliable := hm.changes.reliable h.reliable
  tree := hm.changes.tree h.tree
  logFile := by
    rw [hm.options, hm.log]
    exact hm.changes.kept _ _ (older_aside (aside_logPath s₀.options)) h.logFile
  way := fun id hid path number hpath hnode => by
    rw [hm.options] at hpath
    rcases hm.changes.new _ _ hnode with hold | ⟨⟨id', -, hlt, hinside | ⟨-, hdirectory⟩⟩, -⟩
    · exact h.way id (Nat.le_trans hm.next hid) path number hpath hold
    · rcases StoreOptions.chunk_unique (hinside.trans hpath) (List.prefix_refl _) with ⟨-, rfl⟩
      omega
    · cases hdirectory
  vacant := fun id hid => by
    rw [hm.options]
    refine Option.eq_none_iff_forall_ne_some.mpr fun node hnode => ?_
    rcases hm.changes.new _ _ hnode with hold | ⟨hfresh, -⟩
    · rw [h.vacant id (Nat.le_trans hm.next hid)] at hold
      cases hold
    · have hlt := hfresh.place.2.2
      omega

end Store

namespace Session

open Store (Moves Older Outside Settled Unhindered SessionHolds)

variable {s s₀ s' : Store} {bodies bodies' : PageKey → Option (List UInt8)}
  {kept : TableRef → List Taken} {t : Table} {session session' : Session} {documents : List Taken}

/-! ### What can be written -/

theorem flush_ok (h : s.Unhindered bodies kept t.ref) (hw : session.Working s bodies t documents) :
    (session.flush s).2.2 = .ok () := by
  rcases hw.holds.held with ⟨written, waiting, streams, hdocuments, -, hwaiting, hbuffer⟩
  have hunder : ∀ x ∈ waiting, x.Under s.options.maxLevel session.schema := fun x hx =>
    hw.holds.under x (hdocuments ▸ List.mem_append_right _ hx)
  rcases ChunkFiles.exists_encode s.options s.log.file s.registry.nextChunk bodies session.ref
    hw.holds.schema hbuffer hwaiting hunder with ⟨chunk, hencode, hids, -⟩
  have hfree := h.free (Nat.le_refl _)
  rw [← hw.holds.ref] at hfree
  rcases chunkEffects_made h.reliable hfree hids with ⟨d, hperform⟩
  have hflushes := session.flush_spec s
  generalize session.flush s = answer at hflushes ⊢
  cases hflushes with
  | empty | written => rfl
  | refused nonempty encoded =>
      rw [encoded] at hencode
      cases hencode
  | failed nonempty encoded performed =>
      rw [encoded, Except.ok.injEq] at hencode
      rw [hencode, hperform] at performed
      cases performed

theorem commit_ok (hr : s.disk.Reliable) (hc : s.catalog.Sound)
    (h : s.SessionHolds bodies t session documents) (ht : s.catalog.table? t.ref = some t) :
    (session.commit s).2 = .ok () := by
  have hown : s.registry.catalog.table? session.ref = some t := h.ref ▸ ht
  rcases applyAll_operations hc hown h.unchanged h.begun with ⟨r, hall, -⟩
  rw [commit]
  split
  · rfl
  · rw [Store.catalog, hown]
    have hresult := (Store.commit_reliable hr session.operations).2
    rwa [hall] at hresult

/-! ### A session on its way -/

/-- What a session has done since it was opened in a store: it has begun chunks of its table, all of
    which are staged, and nothing else. -/
structure Loading (s₀ : Store) (kept : TableRef → List Taken) (t : Table) (s : Store)
    (session : Session) : Prop where
  holds : ∃ bodies documents, s.Unhindered bodies kept t.ref ∧ session.Working s bodies t documents
  moves : Moves (Older s₀.options t.ref s₀.registry.nextChunk) t.ref s₀ s
  table : s.catalog.table? t.ref = some t
  writers : s.writers = t.ref :: s₀.writers
  staged : ∀ c ∈ session.staged, s₀.registry.nextChunk ≤ c.chunk
  distinct : (session.staged.map (·.chunk)).Nodup
  directories : ∀ ref id, s.disk.node? (s₀.options.chunkPath ref id) = some .directory →
    s₀.disk.node? (s₀.options.chunkPath ref id) = some .directory ∨
      ref = t.ref ∧ ∃ c ∈ session.staged, c.chunk = id

-- A chunk that was written is staged behind the others.
theorem flush_staged (session : Session) (s : Store) :
    (session.flush s).2.1.staged = session.staged ∨ ∃ info, info.chunk = s.registry.nextChunk ∧
      (session.flush s).2.1.staged = session.staged ++ [info] := by
  rcases session.flush_cases s with hsame | ⟨count, columns, -, hnew, -⟩
  · exact Or.inl (congrArg Session.staged hsame)
  · exact Or.inr ⟨_, rfl, congrArg Session.staged hnew⟩

theorem mem_flush_staged {c : ChunkInfo} (hc : c ∈ session.staged) :
    c ∈ (session.flush s).2.1.staged := by
  rcases session.flush_staged s with hsame | ⟨info, -, hnew⟩
  · exact hsame.symm ▸ hc
  · exact hnew.symm ▸ List.mem_append_left _ hc

theorem flush_staged_since {first : Nat} (h : ∀ c ∈ session.staged, first ≤ c.chunk)
    (hnext : first ≤ s.registry.nextChunk) :
    ∀ c ∈ (session.flush s).2.1.staged, first ≤ c.chunk := by
  rcases session.flush_staged s with hsame | ⟨info, hnumber, hnew⟩
  · exact hsame.symm ▸ h
  · rw [hnew]
    intro c hc
    rcases List.mem_append.mp hc with hc | hc
    · exact h c hc
    · rw [List.mem_singleton.mp hc, hnumber]
      exact hnext

theorem flush_staged_distinct (h : (session.staged.map (·.chunk)).Nodup)
    (hbegun : ∀ c ∈ session.staged, c.chunk < s.registry.nextChunk) :
    ((session.flush s).2.1.staged.map (·.chunk)).Nodup := by
  rcases session.flush_staged s with hsame | ⟨info, hnumber, hnew⟩
  · exact hsame.symm ▸ h
  · rw [hnew, List.map_append, List.map_singleton, hnumber, List.nodup_append]
    refine ⟨h, List.nodup_singleton _, fun a ha b hb => ?_⟩
    rcases List.mem_map.mp ha with ⟨c, hc, rfl⟩
    rw [List.mem_singleton.mp hb]
    exact Nat.ne_of_lt (hbegun c hc)

/-- What is in memory can be written to a chunk. -/
theorem Loading.flush (h : session.Loading s₀ kept t s) :
    ∃ s' session', session.flush s = (s', session', .ok ()) ∧ session'.Loading s₀ kept t s' := by
  rcases h.holds with ⟨bodies, documents, hstore, hworking⟩
  have hok := flush_ok hstore hworking
  rcases hworking.flush hstore.settled h.table with ⟨bodies', -, hsettled, hworking', -⟩
  rcases session.flush_moves s with ⟨hmoves, hwriters, -⟩
  rw [hworking.holds.ref] at hmoves
  have hnext : Moves (Older s.options t.ref s.registry.nextChunk) t.ref s (session.flush s).1 :=
    hmoves.weaken fun path => Store.older_outside (Nat.le_refl _)
  have hlater : ∀ path, Older s₀.options t.ref s₀.registry.nextChunk path →
      Older s.options t.ref s.registry.nextChunk path := by
    rw [h.moves.options]
    exact fun path hpath id hid => hpath id (Nat.le_trans h.moves.next hid)
  have hdirectories : ∀ ref id, (session.flush s).1.disk.node? (s₀.options.chunkPath ref id) =
      some .directory → s₀.disk.node? (s₀.options.chunkPath ref id) = some .directory ∨
        ref = t.ref ∧ ∃ c ∈ (session.flush s).2.1.staged, c.chunk = id := by
    intro ref id hnode
    rw [← h.moves.options] at hnode
    rcases flush_directories hstore.reliable hstore.tree hnode with hold | ⟨href, hnew⟩
    · rw [h.moves.options] at hold
      rcases h.directories ref id hold with hbefore | ⟨href, c, hc, hid⟩
      · exact Or.inl hbefore
      · exact Or.inr ⟨href, c, mem_flush_staged hc, hid⟩
    · exact Or.inr ⟨href.trans hworking.holds.ref, hnew⟩
  exact ⟨(session.flush s).1, (session.flush s).2.1, Prod.ext rfl (Prod.ext rfl hok), {
    holds := ⟨bodies', documents, hstore.later hnext hsettled, hworking'⟩
    moves := h.moves.trans (hnext.weaken hlater)
    table := (congrArg (Catalog.table? · t.ref) hmoves.catalog).trans h.table
    writers := hwriters.trans h.writers
    staged := flush_staged_since h.staged h.moves.next
    distinct := flush_staged_distinct h.distinct hworking.holds.begun
    directories := hdirectories }⟩

/-- A document is refused without a trace, or the session goes on with it. -/
theorem Loading.insert (h : session.Loading s₀ kept t s) (document : Json) :
    (∃ e, session.insert s document = (s, session, .error (.schema e))) ∨
      ∃ s' session', session.insert s document = (s', session', .ok ()) ∧
        session'.Loading s₀ kept t s' := by
  rcases insert_cases session s document with
    hrefused | ⟨accepted, s', session', answer, haccept, hinsert, -, hcases⟩
  · exact Or.inl hrefused
  · rcases h.holds with ⟨bodies, documents, hstore, hworking⟩
    rcases accept_staged haccept with ⟨href, hstaged, -⟩
    have hpresent : s.Present accepted.ref accepted.staged := by
      rw [href, hstaged]
      exact hworking.present
    have haccepted : accepted.Loading s₀ kept t s :=
      ⟨⟨bodies, _, hstore, (accept_holds hworking.holds haccept).1, hpresent⟩, h.moves, h.table,
        h.writers, hstaged ▸ h.staged, hstaged ▸ h.distinct, hstaged ▸ h.directories⟩
    refine Or.inr ⟨s', session', ?_⟩
    rcases hcases with hsame | hflush
    · rw [Prod.mk.injEq, Prod.mk.injEq] at hsame
      rcases hsame with ⟨rfl, rfl, rfl⟩
      exact ⟨hinsert, haccepted⟩
    · rcases haccepted.flush with ⟨after, later, hwritten, hlater⟩
      rw [hflush, Prod.mk.injEq, Prod.mk.injEq] at hwritten
      rcases hwritten with ⟨rfl, rfl, rfl⟩
      exact ⟨hinsert, hlater⟩

-- The induction is on the documents, up to the first that is refused.
theorem Loading.insertAll (h : session.Loading s₀ kept t s) (documents : List Json) :
    (session.insertAll s documents).2.1.Loading s₀ kept t (session.insertAll s documents).1 := by
  induction documents generalizing s session with
  | nil => exact h
  | cons document rest ih =>
      rw [Session.insertAll]
      rcases h.insert document with ⟨e, hrefused⟩ | ⟨s', session', hinsert, hnext⟩
      · rw [hrefused]
        exact h
      · rw [hinsert]
        exact ih hnext

/-- What a session has taken can be committed. -/
theorem Loading.close (h : session.Loading s₀ kept t s) : ∃ s', session.close s = (s', .ok ()) := by
  rcases h.flush with ⟨s₁, flushed, hflush, hnext⟩
  rcases hnext.holds with ⟨bodies, documents, hstore, hworking⟩
  have hok := commit_ok hstore.reliable hstore.settled.catalog.sound hworking.holds hnext.table
  rcases hcommit : flushed.commit s₁ with ⟨s₂, answer⟩
  rw [hcommit] at hok
  have hdone : answer = .ok () := hok
  rw [Session.close, hflush]
  simp only [hcommit, hdone]
  exact ⟨_, rfl⟩

end Session

namespace Store

variable {s s' : Store} {bodies : PageKey → Option (List UInt8)} {kept : TableRef → List Taken}
  {t : Table} {session : Session} {database name : String}

/-- A store that is as it was: its tables have the same schemas and chunks, its log has the same
    bytes, the same chunks have directories, and the same tables have writers. -/
structure Untouched (s s' : Store) : Prop where
  catalog : s'.catalog = s.catalog
  log : s'.disk.read s.options.logPath = s.disk.read s.options.logPath
  directories : ∀ ref id, s'.disk.node? (s.options.chunkPath ref id) = some .directory ↔
    s.disk.node? (s.options.chunkPath ref id) = some .directory
  writers : s'.writers = s.writers

-- Nothing was written to the log, and what is not in a new chunk is spared.
theorem Unhindered.log_kept (h : s.Unhindered bodies kept t.ref)
    (hm : Moves (Older s.options t.ref s.registry.nextChunk) t.ref s s') :
    s'.disk.read s.options.logPath = s.disk.read s.options.logPath := by
  have hchanges := hm.changes
  have hnode := hchanges.kept _ _ (older_aside (aside_logPath s.options)) h.logFile
  rw [Disk.read, Disk.read, hnode, h.logFile]
  simp only [hchanges.contents _ h.settled.number id]

/-- A session on a table that nobody writes to has done nothing yet. -/
theorem loading_open (h : s.Unhindered bodies kept t.ref) (ht : s.tableNamed database name = .ok t)
    (hfree : s.isWritten t.ref = false) : ∃ s₁ session,
      s.openSession database name = (s₁, .ok session) ∧ session.Loading s kept t s₁ ∧
        session.inserted = 0 := by
  have hin := table?_of_tableNamed h.settled.catalog.sound ht
  have hopen := s.openSession_eq database name
  simp only [ht, hfree, Bool.false_eq_true, if_false] at hopen
  have hmoves := setWriters_moves (Older s.options t.ref s.registry.nextChunk) t.ref s
    (t.ref :: s.writers)
  have hsettled : (s.setWriters (t.ref :: s.writers)).Settled bodies kept :=
    h.settled.moves (setWriters_moves (fun _ => True) t.ref s _) fun _ _ _ _ _ _ _ => trivial
  have hholds := Usage.sessionHolds_new (hsettled.tables t.ref t hin)
  exact ⟨_, _, hopen, {
    holds := ⟨bodies, [], h.later hmoves hsettled, hholds, fun _ hc => absurd hc List.not_mem_nil⟩
    moves := hmoves
    table := hin
    writers := rfl
    staged := fun _ hc => absurd hc List.not_mem_nil
    distinct := List.nodup_nil
    directories := fun _ _ hnode => Or.inl hnode }, rfl⟩

end Store

namespace Session

open Store (Moves Older Unhindered Untouched)

variable {s s₀ : Store} {bodies : PageKey → Option (List UInt8)} {kept : TableRef → List Taken}
  {t : Table} {session : Session}

/-- Nothing is left of a session that is given up. -/
theorem Loading.abort (h : session.Loading s₀ kept t s) (h₀ : s₀.Unhindered bodies kept t.ref)
    (hfree : t.ref ∉ s₀.writers) : s₀.Untouched (session.abort s).1 := by
  rcases h.holds with ⟨bodies', documents, hstore, hworking⟩
  have href := hworking.holds.ref
  have hdisk := ended_disk hstore.reliable hstore.tree hworking.present h.distinct (Or.inr rfl)
  have hmoves := session.abort_moves s
  rw [href] at hmoves
  have hall : Moves (Older s₀.options t.ref s₀.registry.nextChunk) t.ref s₀
      (session.abort s).1 := by
    refine h.moves.trans (hmoves.weaken fun path hpath p hp => ?_)
    rcases List.mem_map.mp hp with ⟨c, hc, rfl⟩
    rw [href, h.moves.options]
    exact hpath c.chunk (h.staged c hc)
  refine ⟨hall.catalog, h₀.log_kept hall, fun ref id => ⟨fun hnode => ?_, fun hnode => ?_⟩, ?_⟩
  · have hremoved : Disk.Changes (fun _ => False) (fun _ _ => False) (fun _ => False) s.disk
        (s.disk.discardTrees (session.stagedPaths s.options)) :=
      Disk.discardTrees_changes fun _ _ _ _ hspared => hspared
    rw [hdisk] at hnode
    rcases h.directories ref id (hremoved.old hnode) with hbefore | ⟨rfl, c, hc, rfl⟩
    · exact hbefore
    · -- The directories of staged chunks were removed.
      have hin : s₀.options.chunkPath t.ref c.chunk ∈ session.stagedPaths s.options := by
        rw [← href, ← h.moves.options]
        exact List.mem_map_of_mem hc
      exact absurd hnode (Disk.discardTrees_gone hstore.reliable hstore.tree hin
        (isGiven_toString ..) (List.prefix_refl _))
  · exact hall.changes.kept _ _ (h₀.older hnode) hnode
  · have hwriters : (session.abort s).1.writers = s.writers.filter (· ≠ session.ref) := rfl
    have hown : ¬ decide (t.ref ≠ t.ref) = true := fun hne => of_decide_eq_true hne rfl
    rw [hwriters, h.writers, href, List.filter_cons, if_neg hown]
    refine List.filter_eq_self.mpr fun other hin => decide_eq_true ?_
    rintro rfl
    exact hfree hin

end Session

/-! ### Files -/

namespace Engine

open Json (maxNesting)
open Store (Clear Unhindered Untouched)

variable {e : Engine} {o : StoreOptions} {c : Catalog} {kept : TableRef → List Taken} {d d' : Disk}
  {s u : Store} {src : Sources} {bodies : PageKey → Option (List UInt8)} {ref : TableRef}
  {t : Table} {database name : String} {route : Route} {bytes : List UInt8}

-- Only chunks that were begun have directories, and no file is where they would be.
theorem Tidy.unhindered (h : e.Tidy) (hs : e.Steady bodies) (ht : e.Traced src) (hd : e.Distinct)
    {txs : List (List Operation)} (hl : e.store.Logged txs) (hclear : e.store.Clear ref) :
    e.store.Unhindered bodies e.kept ref where
  settled := hs.settled
  reliable := h.reliable
  tree := h.tree
  logFile := hl.logFile
  way := hclear.way
  vacant := fun id hid => by
    refine Option.eq_none_iff_forall_ne_some.mpr fun node hnode => ?_
    cases node with
    | file number => exact hclear.way id hid _ number (List.prefix_refl _) hnode
    | directory =>
        by_cases hchunk : e.store.options.IsChunk (e.store.options.chunkPath ref id)
        · exact h.free ht hd hid hchunk hnode
        · exact hclear.far id hid hchunk hnode

theorem unhindered_run (h : Course o Whole c kept d)
    (opened : Store.openWith o d.faultless = (d', .ok s)) (actions : List Action)
    (hclear : ((resume s kept).run actions).store.Clear ref) : ∃ bodies kept',
      ((resume s kept).run actions).store.Unhindered bodies kept' ref := by
  have hset : d.faultless = d.setFaults fun _ => none := rfl
  have hwhole : Whole fun _ => none := fun _ _ hfault => by cases hfault
  rcases ((recorded_resume h.durable hwhole (hset ▸ opened)).1.run actions).logged with ⟨txs, hl⟩
  rcases tidy_run h opened actions with ⟨hlater, htidy⟩
  rcases hlater.steady with ⟨bodies, hs⟩
  rcases hlater.traced with ⟨src, ht⟩
  exact ⟨bodies, _, htidy.unhindered hs ht hlater.distinct hl hclear⟩

/-- However a store was used and stopped before: a file is loaded into a table that nobody writes to,
    when nothing keeps chunks from being written. If the file holds documents, whose text opens no
    more brackets at once than one may, and a session takes all of them, the answer is their number
    and the store is the one that the session leaves when it is closed. In every other case there is
    an error, and nothing is left of it. -/
theorem loads_whole_or_nothing (h : Course o Whole c kept d)
    (opened : Store.openWith o d.faultless = (d', .ok s)) (actions : List Action)
    (hused : ((resume s kept).run actions).store = u) (ht : u.tableNamed database name = .ok t)
    (hfree : u.isWritten t.ref = false) (hclear : u.Clear t.ref)
    (hread : u.disk.readAlong route = .ok bytes) :
    (∀ documents, DocumentFile.Holds maxNesting (Utf8.readWith '\x00' bytes) documents →
      u.Accepts database name documents →
        ∃ after, u.Inserts database name documents after ∧
          u.loadFile database name route = (after, .ok documents.length)) ∧
    ((¬ ∃ documents, DocumentFile.Holds maxNesting (Utf8.readWith '\x00' bytes) documents ∧
        u.Accepts database name documents) →
      ∃ after error, u.loadFile database name route = (after, .error error) ∧
        u.Untouched after) := by
  have hnow := hclear
  rw [← hused] at hnow
  rcases unhindered_run h opened actions hnow with ⟨bodies, kept', hstore⟩
  rw [hused] at hstore
  have hload : u.loadFile database name route = u.load database name bytes := by
    rw [Store.loadFile, hread]
  rw [hload]
  rcases Store.loading_open hstore ht hfree with ⟨u₁, session, hopen, hloading, hnew⟩
  constructor
  · rintro documents hholds ⟨u₁', session', u₂, taken, hopen', htaken⟩
    rw [hopen, Prod.mk.injEq, Except.ok.injEq] at hopen'
    rcases hopen' with ⟨rfl, rfl⟩
    have hlater := hloading.insertAll documents
    rw [htaken] at hlater
    rcases hlater.close with ⟨after, hclose⟩
    refine ⟨after, ⟨u₁, session, u₂, taken, hopen, htaken, hclose⟩, ?_⟩
    rw [Store.load_whole hopen htaken hclose hholds, (Session.insertAll_taken htaken).2, hnew,
      Nat.zero_add]
  · intro hnone
    rcases Store.load_given_up hopen hnone with ⟨documents, error, hgiven⟩
    exact ⟨_, error, hgiven,
      (hloading.insertAll documents).abort hstore (Store.not_written (Bool.not_eq_true _ ▸ hfree))⟩

/-- A disk with a file of documents, and nothing else. -/
def sampleFiled (bytes : List UInt8) : Disk :=
  (Disk.empty.perform (.createFile ["documents"] bytes)).1

/-- A store that was opened on it. -/
def sampleOpened (o : StoreOptions) (bytes : List UInt8) : Store :=
  match Store.openWith o (sampleFiled bytes) with
  | (_, .ok s) => s
  | (_, .error _) => default

/-- A table is made in it. -/
def sampleCalls : List Action :=
  [.createDatabase "d", .createTable "d" "t"]

/-- The store with the table. -/
def sampleStore (o : StoreOptions) (bytes : List UInt8) : Store :=
  ((resume (sampleOpened o bytes) fun _ => []).run sampleCalls).store

/-- A file of two documents one after another. -/
def sampleBytes : List UInt8 :=
  Utf8.encode "\x7b\"a\":1\x7d\x7b\"a\":2\x7d".toList

/-- The documents in it. -/
def sampleDocuments : List Json :=
  [.object [("a", .number (.whole 1))], .object [("a", .number (.whole 2))]]

-- Beside the file there is only the log.
theorem clear_sample : (sampleStore Store.sampleOptions sampleBytes).Clear ⟨0, 0⟩ := by
  have hentries : (sampleStore Store.sampleOptions sampleBytes).disk.entries =
      [(["documents"], .file 0), (["db"], .directory), (["db", "manifest.json"], .file 1)] := rfl
  have hoptions : (sampleStore Store.sampleOptions sampleBytes).options = Store.sampleOptions := rfl
  have hdb : (sampleStore Store.sampleOptions sampleBytes).disk.node? ["db"] =
      some .directory := rfl
  generalize sampleStore Store.sampleOptions sampleBytes = u at *
  constructor
  · rintro id - path number hpath hnode
    have hgiven : Path.isGiven path = false := by
      rw [← Bool.not_eq_true]
      intro hgiven
      rw [Disk.node?, if_pos hgiven] at hnode
      cases hnode
    rcases Disk.mem_of_node? hgiven hnode with ⟨e, he, rfl⟩
    have hplace : Store.sampleOptions.chunkPath ⟨0, 0⟩ id =
        "db" :: toString 0 :: toString 0 :: [toString id] := rfl
    rw [hoptions, hplace] at hpath
    rw [hentries] at he
    rcases List.mem_cons.mp he with rfl | he
    · exact absurd (List.cons_prefix_cons.mp hpath).1 (by decide)
    · rcases List.mem_cons.mp he with rfl | he
      · rw [hdb] at hnode
        cases hnode
      · rw [List.mem_singleton.mp he] at hpath
        have hname := (List.cons_prefix_cons.mp (List.cons_prefix_cons.mp hpath).2).1
        exact absurd hname.symm (toString_ne_manifest 0)
  · rintro id - - hnode
    rcases Disk.mem_of_node? (isGiven_toString ..) hnode with ⟨e, he, heq⟩
    have hlength : e.1.length = (u.options.chunkPath ⟨0, 0⟩ id).length := congrArg List.length heq
    rw [StoreOptions.length_chunkPath, hoptions] at hlength
    rw [hentries] at he
    rcases List.mem_cons.mp he with rfl | he
    · cases hlength
    · rcases List.mem_cons.mp he with rfl | he
      · cases hlength
      · rw [List.mem_singleton.mp he] at hlength
        cases hlength

-- Two documents that stand next to each other.
theorem loads_two : ∃ after, (sampleStore Store.sampleOptions sampleBytes).Inserts "d" "t"
    sampleDocuments after ∧ (sampleStore Store.sampleOptions sampleBytes).loadFile "d" "t"
      (.ofString "documents") = (after, .ok 2) := by
  have hfile : Disk.Changes (fun _ => True) (fun _ _ => True) (fun _ => True) Disk.empty
      (sampleFiled sampleBytes) := Disk.perform_changes fun _ => trivial
  have hcourse : Course Store.sampleOptions Whole .empty (fun _ => []) (sampleFiled sampleBytes) :=
    .blank (hfile.tree Disk.tree_empty) rfl
  have hopened : Store.openWith Store.sampleOptions (sampleFiled sampleBytes).faultless =
      (_, .ok (sampleOpened Store.sampleOptions sampleBytes)) := rfl
  have hholds : DocumentFile.Holds maxNesting (Utf8.readWith '\x00' sampleBytes)
      sampleDocuments := by
    refine (DocumentFile.documents_eq_ok fun v hin => ?_).mp rfl
    rcases List.mem_pair.mp hin with rfl | rfl <;> exact ⟨_, rfl⟩
  have ht : (sampleStore Store.sampleOptions sampleBytes).tableNamed "d" "t" =
      .ok ⟨⟨0, 0⟩, "t", .empty, []⟩ := rfl
  exact (loads_whole_or_nothing hcourse hopened sampleCalls rfl ht rfl clear_sample rfl).1
    sampleDocuments hholds (by decide +kernel)

/-- Options with a limit above that of a text. -/
def highOptions : StoreOptions :=
  ⟨"db", 4, 1, 1, .none, .positioned, .widen, 200, false⟩

/-- An array of one document, which opens as many brackets as a text may. -/
def deepText : List Char :=
  (Json.array [Usage.deepDocument maxNesting]).print

set_option maxRecDepth 4000 in
-- A session takes the document, but the array around it is one bracket more.
theorem not_loaded_deep :
    DocumentFile.Holds (maxNesting + 1) (Utf8.readWith '\x00' (Utf8.encode deepText))
        [Usage.deepDocument maxNesting] ∧
      (sampleStore highOptions (Utf8.encode deepText)).disk.readAlong (.ofString "documents") =
        .ok (Utf8.encode deepText) ∧
      (sampleStore highOptions (Utf8.encode deepText)).Accepts "d" "t"
        [Usage.deepDocument maxNesting] ∧
      ((sampleStore highOptions (Utf8.encode deepText)).loadFile "d" "t"
        (.ofString "documents")).2 = .error (.notADocument .malformed) := by
  have htext : Utf8.readWith '\x00' (Utf8.encode deepText) = deepText := by decide +kernel
  refine ⟨?_, rfl, by decide +kernel, by decide +kernel⟩
  rw [htext]
  exact Or.inl ⟨[], rfl, rfl⟩

end Engine

end NestedColumns
