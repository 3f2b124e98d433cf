import NestedColumns.Proofs.Engine.Pages
import NestedColumns.Proofs.Store.Orphans

/-!
# Which directories are there

On a disk that does not fail every directory of a chunk is that of a chunk that a table or a session
has. A new one is made for a session under the next number; when a session ends, or a table is
dropped, theirs are removed. What a crash has left behind is removed when the store is opened, before
its numbers are given out again. So the place of a new chunk is always free.

## Main definitions

* `Engine.Owned`: A table or a session has a chunk in a directory.
* `Engine.Tidy`: No other chunk has a directory.
* `Engine.Reads`: A chunk that may be read.
* `Engine.Accounted`: What is known of chunks, their numbers and their pages.

## Theorems

* `Session.flush_directories`, `Session.flush_keeps`: What becomes of the place of a new chunk.
* `Engine.Tidy.calm`, `Engine.Tidy.change`: What turns preserve.
* `Engine.tidy_run`: What is so after any number of them.
* `Engine.chunks_accounted`: All of this, however the store was used and stopped before.
-/

namespace NestedColumns

open Disk (Whole)
open Store (Fresh)

theorem Store.Fresh.place {o : StoreOptions} {ref other : TableRef} {next next' id : Nat}
    {node : DiskNode} (h : Fresh o ref next next' (o.chunkPath other id) node) :
    other = ref ∧ next ≤ id ∧ id < next' := by
  rcases h with ⟨new, hle, hlt, hinside | ⟨hway, -⟩⟩
  · rcases StoreOptions.chunk_unique hinside (List.prefix_refl _) with ⟨rfl, rfl⟩
    exact ⟨rfl, hle, hlt⟩
  · rcases StoreOptions.chunk_unique hway (List.prefix_refl _) with ⟨rfl, rfl⟩
    exact ⟨rfl, hle, hlt⟩

namespace Session

variable {session : Session} {s s' : Store}

/-- A new chunk is staged when it has its directory, and else it has none. -/
theorem flush_directories (hr : s.disk.Reliable) (ht : s.disk.Tree) {ref : TableRef} {id : Nat}
    (hnode : (session.flush s).1.disk.node? (s.options.chunkPath ref id) = some .directory) :
    s.disk.node? (s.options.chunkPath ref id) = some .directory ∨
      ref = session.ref ∧ ∃ c ∈ (session.flush s).2.1.staged, c.chunk = id := by
  have hflushes := session.flush_spec s
  generalize session.flush s = answer at hflushes hnode ⊢
  cases hflushes with
  | empty | refused => exact Or.inl hnode
  | @failed chunk d fault nonempty encoded performed =>
      have hbegun := (begun_moves performed fun _ => True).changes
      have hremoved : Disk.Changes (fun _ => False) (fun _ _ => False) (fun _ => False) d
          (d.discardTrees [s.options.chunkPath session.ref s.registry.nextChunk]) :=
        Disk.discardTrees_changes fun _ _ _ _ hspared => hspared
      rw [Store.discardTrees_disk, Store.setDisk_disk] at hnode
      rcases hbegun.new _ _ (hremoved.old hnode) with hold | ⟨hfresh, -⟩
      · exact Or.inl hold
      · rcases hfresh.place with ⟨rfl, hle, hlt⟩
        have hid : id = s.registry.nextChunk := Nat.le_antisymm (Nat.le_of_lt_succ hlt) hle
        subst hid
        exact absurd hnode (Disk.discardTrees_gone (hbegun.reliable hr) (hbegun.tree ht)
          List.mem_cons_self (isGiven_toString ..) (List.prefix_refl _))
  | @written chunk d nonempty encoded performed =>
      rw [Store.setDisk_disk] at hnode
      rcases (begun_moves performed fun _ => True).changes.new _ _ hnode with hold | ⟨hfresh, -⟩
      · exact Or.inl hold
      · rcases hfresh.place with ⟨rfl, hle, hlt⟩
        have hid : id = s.registry.nextChunk := Nat.le_antisymm (Nat.le_of_lt_succ hlt) hle
        exact Or.inr ⟨rfl, _, List.mem_append_right _ List.mem_cons_self, hid.symm⟩

/-- If the place of a new chunk is free, all that was there stays, also if the chunk cannot be
    written. -/
theorem flush_keeps (ht : s.disk.Tree)
    (hfree : s.disk.node? (s.options.chunkPath session.ref s.registry.nextChunk) ≠ some .directory)
    {path : Path} {node : DiskNode} (hnode : s.disk.node? path = some node) :
    (session.flush s).1.disk.node? path = some node := by
  have hflushes := session.flush_spec s
  generalize session.flush s = answer at hflushes ⊢
  cases hflushes with
  | empty | refused => exact hnode
  | @failed chunk d fault nonempty encoded performed =>
      have hbegun := (begun_moves performed fun _ => True).changes.kept path node trivial hnode
      by_cases hin : s.options.chunkPath session.ref s.registry.nextChunk <+: path
      · -- Only a file can be there, which is no directory that is removed.
        have hplace : s.options.chunkPath session.ref s.registry.nextChunk = path := by
          by_contra hne
          exact hfree (ht.directory_above hnode hin hne)
        subst hplace
        rw [Store.setDisk_disk] at hbegun
        have hstays : d.discardTrees [s.options.chunkPath session.ref s.registry.nextChunk] = d := by
          rw [Disk.discardTrees, List.foldl_cons, List.foldl_nil, Disk.removeTree, hbegun]
          cases node with
          | directory => exact absurd hnode hfree
          | file number => rfl
        rw [Store.discardTrees_disk, Store.setDisk_disk, hstays, hbegun]
      · exact ((begun_moves performed _).trans (Store.discardTrees_moves ..)).changes.kept path node
          (fun p hp hpre => hin (List.mem_singleton.mp hp ▸ hpre)) hnode
  | written nonempty encoded performed =>
      exact (begun_moves performed fun _ => True).changes.kept path node trivial hnode

-- A session whose chunks are there removes all of them when it ends without them.
theorem ended_disk (hr : s.disk.Reliable) (ht : s.disk.Tree)
    (hp : s.Present session.ref session.staged) (hn : (session.staged.map (·.chunk)).Nodup)
    (hends : s' = session.discard s ∨ s' = (session.abort s).1) :
    s'.disk = s.disk.discardTrees (session.stagedPaths s.options) := by
  rcases hends with rfl | rfl
  · rfl
  · have hnodes : ∀ p ∈ session.stagedPaths s.options, s.disk.node? p = some .directory := by
      intro p hin
      rcases List.mem_map.mp hin with ⟨c, hc, rfl⟩
      exact hp c hc
    have hapart : (session.stagedPaths s.options).Pairwise fun a b => ¬ a <+: b := by
      refine List.pairwise_map.mpr ((List.pairwise_map.mp hn).imp fun hne hpre => hne ?_)
      exact (StoreOptions.chunk_unique hpre (List.prefix_refl _)).2
    rcases Disk.removeTrees_spec hr ht hnodes hapart with ⟨after, hremove⟩
    have hsame : (session.abort s).1.disk =
        (s.disk.removeTrees (session.stagedPaths s.options)).1 := rfl
    rw [hsame, hremove]
    exact Disk.removeTrees_eq_discardTrees hremove

end Session

namespace Engine

variable {e e' : Engine} {s : Store} {bodies : PageKey → Option (List UInt8)} {src : Sources}
  {path : Path} {handle : Nat} {live : Live}

/-- A path is the directory of a chunk that a table or a session has. -/
def Owned (e : Engine) (path : Path) : Prop :=
  ∃ holder, ∃ c ∈ e.chunksOf holder, c.directory = path

/-- An engine on a disk that does not fail, on which only chunks of tables and sessions have
    directories. -/
structure Tidy (e : Engine) : Prop where
  reliable : e.store.disk.Reliable
  tree : e.store.disk.Tree
  owned : ∀ path, e.store.options.IsChunk path → e.store.disk.node? path = some .directory →
    e.Owned path

/-! ### Turns -/

theorem Tidy.turn (h : e.Tidy) (hl : Leads e e')
    (howned : ∀ ref id, e'.store.disk.node? (e.store.options.chunkPath ref id) = some .directory →
      e.store.disk.node? (e.store.options.chunkPath ref id) = some .directory ∧
          (e.Owned (e.store.options.chunkPath ref id) → e'.Owned (e.store.options.chunkPath ref id)) ∨
        e'.Owned (e.store.options.chunkPath ref id)) : e'.Tidy := by
  rcases hl.disk with ⟨spared, hdisk, -⟩
  refine ⟨hdisk.reliable h.reliable, hdisk.tree h.tree, fun path hpath hnode => ?_⟩
  rw [hl.options] at hpath
  rcases hpath with ⟨ref, id, hdatabase, htable, hid, rfl⟩
  rcases howned ref id hnode with ⟨hold, hstays⟩ | hnew
  · exact hstays (h.owned _ ⟨ref, id, hdatabase, htable, hid, rfl⟩ hold)
  · exact hnew

/-- Whoever had a chunk has it still, or has handed it over. -/
def Keeps (e e' : Engine) : Prop :=
  ∀ holder, ∀ c ∈ e.chunksOf holder, ∃ holder', c ∈ e'.chunksOf holder'

theorem Keeps.owned (h : Keeps e e') (ho : e.Owned path) : e'.Owned path := by
  rcases ho with ⟨holder, c, hc, hplace⟩
  rcases h holder c hc with ⟨holder', hc'⟩
  exact ⟨holder', c, hc', hplace⟩

theorem keeps_congr (ho : e'.store.options = e.store.options)
    (hc : e'.store.catalog = e.store.catalog) (hs : e'.sessions = e.sessions) : Keeps e e' :=
  fun holder _ hin => ⟨holder, (chunksOf_congr ho hc hs holder).symm ▸ hin⟩

theorem keeps_insert {live' : Live} (ho : e'.store.options = e.store.options)
    (hc : e'.store.catalog = e.store.catalog) (hs : e'.sessions = e.sessions.insert handle live')
    (hown : ∀ c ∈ e.chunksOf (.session handle), c ∈ e.store.stagedChunks live'.session) :
    Keeps e e' := by
  intro holder c hin
  refine ⟨holder, ?_⟩
  cases holder with
  | table ref => exact (chunksOf_table ho hc ref).symm ▸ hin
  | session other =>
      rw [chunksOf_insert ho hs]
      split
      · next heq => exact hown c (heq ▸ hin)
      · exact hin

-- Where nothing is made and every chunk is kept, all directories have whom they had.
theorem Tidy.quiet (h : e.Tidy) (hl : Leads e e') (hk : Keeps e e')
    (hold : ∀ path node, e'.store.disk.node? path = some node →
      e.store.disk.node? path = some node) : e'.Tidy :=
  h.turn hl fun _ _ hnode => Or.inl ⟨hold _ _ hnode, hk.owned⟩

-- The numbers of the chunks of a session are distinct among themselves.
theorem Distinct.staged (h : e.Distinct) (found : e.sessions.find? handle = some live) :
    (live.session.staged.map (·.chunk)).Nodup := by
  have heach := h.each (.session handle)
  rw [chunksOf_found found, Store.stagedChunks, List.map_map] at heach
  exact heach

-- The only directory that a session makes is that of its new chunk.
theorem Tidy.flushed {session : Session} {more : List Taken} (h : e.Tidy)
    (found : e.sessions.find? handle = some live)
    (htakes : live.session.Takes e.store.options.mergeOptions session more)
    (hl : Leads e ⟨(session.flush e.store).1, e.sessions.insert handle
      ⟨(session.flush e.store).2.1, live.base, live.taken ++ more⟩, e.readers, e.kept⟩) :
    Tidy ⟨(session.flush e.store).1, e.sessions.insert handle
      ⟨(session.flush e.store).2.1, live.base, live.taken ++ more⟩, e.readers, e.kept⟩ := by
  rcases session.flush_moves e.store with ⟨hmoves, -, href⟩
  have hkeeps : Keeps e ⟨(session.flush e.store).1, e.sessions.insert handle
      ⟨(session.flush e.store).2.1, live.base, live.taken ++ more⟩, e.readers, e.kept⟩ := by
    refine keeps_insert hmoves.options hmoves.catalog rfl fun c hin => ?_
    rw [chunksOf_found found, ← stagedChunks_takes _ htakes] at hin
    rcases session.flush_cases e.store with hsame | ⟨count, columns, -, hstaged, -⟩
    · rwa [hsame]
    · rw [hstaged, Store.stagedChunks, Session.stage, List.map_append]
      exact List.mem_append_left _ hin
  refine h.turn hl fun ref id hnode => ?_
  rcases Session.flush_directories h.reliable h.tree hnode with hold | ⟨rfl, c, hc, rfl⟩
  · exact Or.inl ⟨hold, hkeeps.owned⟩
  · refine Or.inr ⟨.session handle, ⟨e.store.options.chunkPath session.ref c.chunk, c⟩, ?_, rfl⟩
    rw [chunksOf_insert (e := e) hmoves.options rfl, if_pos rfl]
    exact List.mem_map.mpr ⟨c, hc, by rw [href]⟩

-- The directories of a session that ends are gone, and those of all others are there.
theorem Tidy.ended (hg : e.Guarded) (hs : e.Steady bodies) (hd : e.Distinct) (h : e.Tidy)
    (found : e.sessions.find? handle = some live)
    (hends : s = live.session.discard e.store ∨ s = (live.session.abort e.store).1)
    (hl : Leads e ⟨s, e.sessions.erase handle, e.readers, e.kept⟩) :
    Tidy ⟨s, e.sessions.erase handle, e.readers, e.kept⟩ := by
  have hmoves := (hs.ended_moves hg found hends).1
  have hdisk := Session.ended_disk h.reliable h.tree (hs.working _ _ found).present
    (hd.staged found) hends
  have hremoved : Disk.Changes (fun _ => False) (fun _ _ => False) (fun _ => False) e.store.disk
      s.disk := by
    rw [hdisk]
    exact Disk.discardTrees_changes fun _ _ _ _ hspared => hspared
  refine h.turn hl fun ref id hnode => Or.inl ⟨hremoved.old hnode, ?_⟩
  rintro ⟨holder, c, hc, hplace⟩
  cases holder with
  | table other =>
      refine ⟨.table other, c, ?_, hplace⟩
      rw [chunksOf_table (e := e) hmoves.options hmoves.catalog]
      exact hc
  | session other =>
      by_cases heq : handle = other
      · rw [← heq, chunksOf_found found] at hc
        rcases List.mem_map.mp hc with ⟨info, hinfo, rfl⟩
        have hafter : s.disk.node? (e.store.options.chunkPath ref id) = some .directory := hnode
        rw [hdisk, ← hplace] at hafter
        exact absurd hafter (Disk.discardTrees_gone h.reliable h.tree
          (List.mem_map_of_mem hinfo) (isGiven_toString ..) (List.prefix_refl _))
      · refine ⟨.session other, c, ?_, hplace⟩
        rw [chunksOf_erase (e := e) hmoves.options rfl, if_neg heq]
        exact hc

theorem Tidy.calm (hg : e.Guarded) (hs : e.Steady bodies) (ht : e.Traced src) (hd : e.Distinct)
    (h : e.Tidy) (hc : Calm e e') : e'.Tidy := by
  have hl := calm_leads hg hs ht hc
  cases hc with
  | @failed ops s error fits hcommit =>
      have hdisk : Disk.Changes (fun _ => True) (fun _ _ => False) (· = e.store.log.file)
          e.store.disk (e.store.commit ops).1.disk := Store.commit_changes ..
      have hoptions : s.options = e.store.options := hl.options
      have hcatalog : s.catalog = e.store.catalog := commit_failed_catalog fits hcommit
      rw [hcommit] at hdisk
      exact h.quiet hl (keeps_congr hoptions hcatalog rfl) fun _ _ hnode => hdisk.old hnode
  | @opened handle t free table unwritten =>
      refine h.quiet hl (keeps_insert rfl rfl rfl fun c hin => ?_) fun _ _ hnode => hnode
      simp only [chunksOf, free] at hin
      exact absurd hin List.not_mem_nil
  | added found htakes =>
      refine h.quiet hl (keeps_insert rfl rfl rfl fun c hin => ?_) fun _ _ hnode => hnode
      rw [stagedChunks_takes _ htakes, ← chunksOf_found found]
      exact hin
  | flushed found htakes => exact h.flushed found htakes hl
  | ended found hends => exact h.ended hg hs hd found hends hl
  | asked hreader =>
      exact h.quiet hl (keeps_congr rfl rfl rfl) fun _ _ hnode => hnode
  | @given handle reader found =>
      have hdisk := reader.next_disk e.store.volume
      refine h.quiet hl (keeps_congr rfl rfl rfl) fun path node hnode => ?_
      have hafter : (reader.next e.store.volume).1.disk.node? path = some node := hnode
      rwa [hdisk] at hafter
  | forgotten keys => exact h.quiet hl (keeps_congr rfl rfl rfl) fun _ _ hnode => hnode

-- What a store removes beside its tables is inside its directory, so it does not stay there by
-- itself.
theorem isGiven_inside {o : StoreOptions} {removed : List Path} (h : Store.Inside o removed)
    (hpath : path ∈ removed) : path.isGiven = false := by
  rcases h path hpath with ⟨id, hid⟩
  rw [← Bool.not_eq_true]
  intro hgiven
  have hdatabase := Disk.isGiven_of_start hid hgiven
  rw [StoreOptions.databasePath, isGiven_toString] at hdatabase
  cases hdatabase

-- The directory of a table that is dropped is removed with all its chunks.
theorem altered_kept {ops : List Operation} {removed : List Path}
    {answer : Store × Except StoreError Unit} (hg : e.Guarded) (h : e.Tidy)
    (halters : e.store.Alters ops removed answer) (hchanged : e.store.Changed answer.1)
    (hdone : e.store.commit ops = (s, .ok ())) {holder : Holder} {c : DiskChunk}
    (hc : c ∈ e.chunksOf holder) (hnode : answer.1.disk.node? c.directory = some .directory) :
    c ∈ (e.onStore answer.1).chunksOf holder := by
  have hl := change_leads hg (.altered halters hchanged hdone)
  cases holder with
  | session other => exact (chunksOf_session hl.options rfl other).symm ▸ hc
  | table ref =>
      cases ht : e.store.catalog.table? ref with
      | none =>
          simp only [chunksOf, ht] at hc
          exact absurd hc List.not_mem_nil
      | some t =>
          simp only [chunksOf, ht] at hc
          have hstore : (e.onStore answer.1).store = answer.1 := rfl
          have hoptions : answer.1.options = e.store.options := hl.options
          cases hnew : answer.1.catalog.table? ref with
          | some t' =>
              rcases hchanged.new ref t' hnew with hold | ⟨hnone, -⟩
              · rw [ht, Option.some.injEq] at hold
                simp only [chunksOf, hstore, hnew, Store.diskChunks, hoptions]
                exact hold ▸ hc
              · rw [ht] at hnone
                cases hnone
          | none =>
              have hcommitted : Disk.Changes (fun _ => True) (fun _ _ => False)
                  (· = e.store.log.file) e.store.disk (e.store.commit ops).1.disk :=
                Store.commit_changes ..
              rw [hdone] at hcommitted
              rcases Store.commit_eq_ok hdone with ⟨d, r, -, happly, hs⟩
              rw [halters.done s hdone] at hnew hnode
              have hgone : r.catalog.table? ref = none := by
                rw [hs] at hnew
                exact hnew
              have hafter : (s.disk.discardTrees removed).node? c.directory = some .directory := hnode
              rcases halters.covers r happly ref t ht hgone with ⟨p, hp, hpre⟩
              have hin : p <+: c.directory := by
                rcases List.mem_map.mp hc with ⟨info, -, rfl⟩
                rw [← hg.catalog.refs ref t ht] at hpre
                exact hpre.trans (StoreOptions.table_prefix_chunk ..)
              exact absurd hafter (Disk.discardTrees_gone (hcommitted.reliable h.reliable)
                (hcommitted.tree h.tree) hp (isGiven_inside halters.inside hp) hin)

theorem Tidy.change (hg : e.Guarded) (h : e.Tidy) (hc : Change e e') : e'.Tidy := by
  have hl := change_leads hg hc
  cases hc with
  | @altered ops removed answer s halters changed done =>
      have hcommitted : Disk.Changes (fun _ => True) (fun _ _ => False) (· = e.store.log.file)
          e.store.disk (e.store.commit ops).1.disk := Store.commit_changes ..
      have hremoved : Disk.Changes (fun _ => False) (fun _ _ => False) (fun _ => False) s.disk
          (s.disk.discardTrees removed) := Disk.discardTrees_changes fun _ _ _ _ hspared => hspared
      rw [done] at hcommitted
      refine h.turn hl fun ref id hnode => ?_
      have hafter : answer.1.disk.node? (e.store.options.chunkPath ref id) = some .directory := hnode
      have hbefore := hafter
      rw [halters.done s done] at hbefore
      refine Or.inl ⟨hcommitted.old (hremoved.old hbefore), ?_⟩
      rintro ⟨holder, c, hc, hplace⟩
      exact ⟨holder, c, altered_kept hg h halters changed done hc (hplace ▸ hafter), hplace⟩
  | @committed handle live s found written operations done =>
      have hcommit : e.store.commit live.session.operations = (s, .ok ()) := by
        rw [Session.commit, if_neg operations, (hg.based _ _ found).table] at done
        exact done
      have hcommitted : Disk.Changes (fun _ => True) (fun _ _ => False) (· = e.store.log.file)
          e.store.disk (e.store.commit live.session.operations).1.disk := Store.commit_changes ..
      rw [hcommit] at hcommitted
      rcases chunksOf_commit ⟨live.session.release s, e.sessions.erase handle, e.readers,
        Function.update e.kept live.session.ref (e.kept live.session.ref ++ live.taken)⟩
          hg found done rfl rfl with ⟨own, left, others⟩
      refine h.quiet hl (fun holder c hc => ?_) fun _ _ hnode => hcommitted.old hnode
      by_cases hsession : holder = .session handle
      · exact ⟨.table live.session.ref, own ▸ List.mem_append_right _ (hsession ▸ hc)⟩
      · by_cases htable : holder = .table live.session.ref
        · exact ⟨.table live.session.ref, own ▸ List.mem_append_left _ (htable ▸ hc)⟩
        · exact ⟨holder, others holder htable hsession ▸ hc⟩

/-! ### However the store was used -/

variable {o : StoreOptions} {c : Catalog} {kept : TableRef → List Taken} {d d' : Disk}

theorem tidy_resume (h : Store.Durable o c kept d)
    (opened : Store.openWith o d.faultless = (d', .ok s)) : (resume s kept).Tidy := by
  have hset : d.faultless = d.setFaults fun _ => none := rfl
  rcases Store.openWith_known d.faultless_reliable (h.tree.of_entries rfl) opened with
    ⟨hreliable, htree, hknown⟩
  have hoptions := (Store.openWith_below opened).1
  rw [hset] at opened
  have hg := guarded_resume kept opened
  refine ⟨hreliable, htree, fun path hpath hnode => ?_⟩
  have hstore : (resume s kept).store = s := rfl
  rw [hstore, hoptions] at hpath
  rcases hknown path hpath hnode with ⟨ref, t, ht, chunk, hchunk, hplace⟩
  refine ⟨.table ref, ⟨s.options.chunkPath t.ref chunk.chunk, chunk⟩, ?_, ?_⟩
  · simp only [chunksOf, hstore, ht]
    exact List.mem_map_of_mem hchunk
  · rw [hg.catalog.refs ref t ht, hoptions, hplace]

theorem tidy_run (h : Course o Whole c kept d)
    (opened : Store.openWith o d.faultless = (d', .ok s)) (actions : List Action) :
    ((resume s kept).run actions).Ongoing o ∧ ((resume s kept).run actions).Tidy := by
  have hset : d.faultless = d.setFaults fun _ => none := rfl
  exact (ongoing_resume h.durable h.distinct (hset ▸ opened)).1.run_preserves
    (tidy_resume h.durable opened) (fun _ _ _ _ hg hs ht hd h hc => h.calm hg hs ht hd hc)
    (fun _ _ hg h hc => h.change hg hc) actions

/-- A chunk that may be read: a table has it, or a reader has it ahead. -/
def Reads (e : Engine) (chunk : DiskChunk) : Prop :=
  (∃ ref t, e.store.catalog.table? ref = some t ∧ chunk ∈ e.store.diskChunks t) ∨
    ∃ handle r, e.readers.find? handle = some r ∧ ∃ cursor ∈ r.cursors, chunk ∈ cursor.chunks

theorem Traced.reads (h : e.Traced src) {chunk : DiskChunk} (hc : e.Reads chunk) :
    e.Known src chunk := by
  rcases hc with ⟨ref, t, ht, hin⟩ | ⟨handle, r, found, cursor, hcursor, hin⟩
  · refine h.chunks (.table ref) chunk ?_
    simp only [chunksOf, ht]
    exact hin
  · exact (h.readers handle r found cursor hcursor).later chunk hin

/-- Chunks, their numbers and their pages are accounted for: exactly the chunks that tables and
    sessions have are in directories; all of them have different numbers below the next; whatever is
    there stays as it is when a chunk is written; and a page that is given is the one in the file of
    its chunk, checked, whether it was kept or not. -/
structure Accounted (e : Engine) : Prop where
  directories : ∀ path, e.store.options.IsChunk path →
    (e.store.disk.node? path = some .directory ↔ e.Owned path)
  distinct : e.Distinct
  fresh : ∀ session : Session, e.store.options.IsChunk
      (e.store.options.chunkPath session.ref e.store.registry.nextChunk) →
    (∀ path, e.store.options.chunkPath session.ref e.store.registry.nextChunk <+: path →
      path ≠ e.store.options.chunkPath session.ref e.store.registry.nextChunk →
        e.store.disk.node? path = none) ∧
    (∀ path node, e.store.disk.node? path = some node →
      (session.flush e.store).1.disk.node? path = some node) ∧
    ∀ file, file < e.store.disk.nextFile →
      (session.flush e.store).1.disk.contentsOf file = e.store.disk.contentsOf file
  pages : ∀ chunk, e.Reads chunk → ∀ column c,
    e.store.volume.openColumn chunk column = .ok (some c) →
      ∃ file, e.store.disk.node? (chunk.dataPath column) = some (.file file) ∧
        ∀ number entry, c.index[number]? = some entry →
          (e.store.volume.page c number entry).2 = e.store.volume.loadPage (some file) entry
  opened : ∀ handle r, e.readers.find? handle = some r → ∀ cursor ∈ r.cursors, ∀ reader,
    cursor.state = .reading reader →
      (∀ p ∈ reader.pages, (e.store.volume.page reader.column p.1 p.2).2 =
        e.store.volume.loadPage reader.column.file p.2) ∧
      ∀ holder, ∀ c ∈ e.chunksOf holder, c.info.chunk = reader.column.chunk →
        reader.column.column ∈ c.info.columns → ∀ file,
          e.store.disk.node? (c.dataPath reader.column.column) = some (.file file) →
            reader.column.file = some file
  answers : ∀ handle r, e.readers.find? handle = some r →
    (r.next e.store.volume).2 = (r.next e.store.volume.bare).2

-- The directories of chunks are there.
theorem present (hs : e.Steady bodies) {holder : Holder} {chunk : DiskChunk}
    (hc : chunk ∈ e.chunksOf holder) : e.store.disk.node? chunk.directory = some .directory := by
  cases holder with
  | table ref =>
      cases ht : e.store.catalog.table? ref with
      | none =>
          simp only [chunksOf, ht] at hc
          exact absurd hc List.not_mem_nil
      | some t =>
          simp only [chunksOf, ht] at hc
          rcases List.mem_map.mp hc with ⟨info, hinfo, rfl⟩
          have hthere := hs.settled.present ref t ht info hinfo
          rwa [← hs.settled.ref_eq ht] at hthere
  | session handle =>
      cases hlive : e.sessions.find? handle with
      | none =>
          simp only [chunksOf, hlive] at hc
          exact absurd hc List.not_mem_nil
      | some live =>
          rw [chunksOf_found hlive] at hc
          rcases List.mem_map.mp hc with ⟨info, hinfo, rfl⟩
          exact (hs.working handle live hlive).present info hinfo

-- The numbers that are still to come are those of no chunk, so their places are free.
theorem Tidy.free (h : e.Tidy) (ht : e.Traced src) (hd : e.Distinct) {ref : TableRef} {id : Nat}
    (hid : e.store.registry.nextChunk ≤ id)
    (hchunk : e.store.options.IsChunk (e.store.options.chunkPath ref id)) :
    e.store.disk.node? (e.store.options.chunkPath ref id) ≠ some .directory := by
  intro hnode
  rcases h.owned _ hchunk hnode with ⟨holder, c, hc, hplace⟩
  rcases (ht.chunks holder c hc).place with ⟨other, hother⟩
  rw [hother] at hplace
  have hbegun := hd.begun holder c hc
  rw [(StoreOptions.chunkPath_inj hplace).2] at hbegun
  exact Nat.not_lt_of_le hid hbegun

theorem Tidy.accounted (h : e.Tidy) (hs : e.Steady bodies) (ht : e.Traced src) (hd : e.Distinct) :
    e.Accounted where
  directories := fun path hpath => ⟨h.owned path hpath, fun ⟨holder, c, hc, hplace⟩ =>
    hplace ▸ present hs hc⟩
  distinct := hd
  fresh := fun session hnext => by
    have hfree := h.free ht hd (Nat.le_refl _) hnext
    refine ⟨fun path hpre hne => ?_, fun path node hnode => Session.flush_keeps h.tree hfree hnode,
      fun file hfile => (session.flush_moves e.store).1.changes.contents file hfile id⟩
    refine Option.eq_none_iff_forall_ne_some.mpr fun node hnode => ?_
    exact hfree (h.tree.directory_above hnode hpre hne.symm)
  pages := fun chunk hreads column c hopen => by
    rcases Volume.from_openColumn (ht.reads hreads).files hopen with ⟨hfrom, -, file, hfile, hnode⟩
    refine ⟨file, hnode, fun number entry hentry => ?_⟩
    rcases Volume.page_keeping ht.keeping hfrom hentry with ⟨v, hpage, -⟩
    rw [hpage, hfile]
  opened := fun handle r found cursor hcursor reader hstate => by
    rcases (ht.readers handle r found cursor hcursor).now reader hstate with ⟨-, hcolumn, hpages⟩
    refine ⟨fun p hp => ?_, fun holder c hc hnumber hlisted file hnode => ?_⟩
    · rcases Volume.page_keeping ht.keeping hcolumn (hpages p hp) with ⟨v, hpage, -⟩
      rw [hpage]
    · rcases (ht.chunks holder c hc).files _ hlisted with ⟨number, data, hsource, -, hdata⟩
      rcases hcolumn with ⟨number', file', hsource', hfile', -⟩
      rw [hnumber, hsource', Option.some.injEq, Prod.mk.injEq] at hsource
      have hsame := hdata _ hnode
      rw [DiskNode.file.injEq] at hsame
      rw [hfile', hsource.2, hsame]
  answers := fun handle r found => by
    rcases ht.next found with ⟨v, answer, after, hnext, hbare, -⟩
    rw [hnext, hbare]

/-- However a store was used, and wherever it was stopped with sessions open: when it is opened on a
    disk that does not fail, all chunks, their numbers and their pages are accounted for, whatever is
    done with it then, and whichever pages are forgotten. Numbers of chunks have no width here. What
    is assumed is that none of them comes to `2 ^ 32`. -/
theorem chunks_accounted (h : Course o Whole c kept d)
    (opened : Store.openWith o d.faultless = (d', .ok s)) (actions : List Action) :
    ((resume s kept).run actions).Accounted := by
  rcases tidy_run h opened actions with ⟨hlater, htidy⟩
  rcases hlater.steady with ⟨bodies, hs⟩
  rcases hlater.traced with ⟨src, ht⟩
  exact htidy.accounted hs ht hlater.distinct

/-- The documents that were committed when `sampleLeft` was left. -/
def sampleKept : TableRef → List Taken :=
  (((resume .sample fun _ => []).run sampleBefore).counted
    ((resume .sample fun _ => []).run (sampleBefore ++ [sampleInsert])) 2).kept

-- A session was stopped while it wrote a chunk, and the next one writes another under its number.
theorem chunks_accounted_sample : ∃ d' s, Store.openWith Store.sampleOptions sampleLeft.faultless =
    (d', .ok s) ∧
      ((resume s sampleKept).run [.openSession 0 "d" "t", .insert 0 (.object [])]).Accounted := by
  have hwhole : Whole fun _ => none := fun _ _ hfault => by cases hfault
  have hleft : Course Store.sampleOptions Whole _ _ sampleLeft :=
    .running (.blank Disk.tree_empty Store.made_sample.unlogged) hwhole Store.made_sample.opened
      sampleBefore sampleInsert 2
  have hcourse : Course Store.sampleOptions Whole _ sampleKept sampleLeft := hleft
  rcases hcourse.opens rfl (by decide +kernel) (by decide +kernel) with ⟨d', s, hopened⟩
  exact ⟨d', s, hopened, chunks_accounted hcourse hopened _⟩

end Engine

end NestedColumns
