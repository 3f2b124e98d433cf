import NestedColumns.Proofs.Store.Writing

/-!
# What a store does beside its log

Chunks are written and directories are removed without a word in the log. The effects of this
make files and directories of new chunks only, write to no file that was there, and spare
everything outside of the directories that are removed. So wherever a program is stopped in
between, what is left differs from what was there in these ways only.

## Main definitions

* `Store.Outside`: A path is in none of some directories.
* `Store.Fresh`: What is at a path because a chunk with a new number was begun.
* `Store.Moves`: A store after operations that leave its log and its catalog alone.
* `Session.Flushes`: What becomes of a session that writes its documents.

## Theorems

* `Store.discardTrees_moves`, `Store.removeTrees_moves`: Removing directories.
* `Session.flush_moves`, `Session.discard_moves`, `Session.abort_moves`: What sessions do.
-/

namespace NestedColumns

namespace Store

variable {spared spared' : Path → Prop} {ref : TableRef} {s s' s'' : Store}

/-- None of some directories has a path in it. -/
def Outside (paths : List Path) (path : Path) : Prop :=
  ∀ p ∈ paths, ¬ p <+: path

/-- What is at a path because a chunk of a table was begun, with a number that was not used up
    before. -/
def Fresh (o : StoreOptions) (ref : TableRef) (next next' : Nat) (path : Path) (node : DiskNode) :
    Prop :=
  ∃ id, next ≤ id ∧ id < next' ∧ Session.Begun o ref id path node

/-- A store after operations that leave its log and its catalog alone, and begin chunks of one
    table only. What they spare is known from their effects. -/
structure Moves (spared : Path → Prop) (ref : TableRef) (s s' : Store) : Prop where
  options : s'.options = s.options
  log : s'.log = s.log
  catalog : s'.catalog = s.catalog
  pages : s'.volume.pages = s.volume.pages
  next : s.registry.nextChunk ≤ s'.registry.nextChunk
  trail : ∃ effects, Disk.Trail spared
    (Fresh s.options ref s.registry.nextChunk s'.registry.nextChunk) (fun _ => False)
      s.disk s'.disk effects

theorem Fresh.widen {o : StoreOptions} {first next next' last : Nat} {path : Path}
    {node : DiskNode} (h : Fresh o ref next next' path node) (hfirst : first ≤ next)
    (hlast : next' ≤ last) : Fresh o ref first last path node := by
  rcases h with ⟨id, hle, hlt, hbegun⟩
  exact ⟨id, Nat.le_trans hfirst hle, Nat.lt_of_lt_of_le hlt hlast, hbegun⟩

namespace Moves

theorem refl (spared : Path → Prop) (ref : TableRef) (s : Store) : Moves spared ref s s where
  options := rfl
  log := rfl
  catalog := rfl
  pages := rfl
  next := Nat.le_refl _
  trail := ⟨[], .refl ..⟩

theorem trans (h : Moves spared ref s s') (h' : Moves spared ref s' s'') :
    Moves spared ref s s'' where
  options := h'.options.trans h.options
  log := h'.log.trans h.log
  catalog := h'.catalog.trans h.catalog
  pages := h'.pages.trans h.pages
  next := Nat.le_trans h.next h'.next
  trail := by
    rcases h.trail with ⟨effects, htrail⟩
    rcases h'.trail with ⟨effects', htrail'⟩
    rw [h.options] at htrail'
    exact ⟨_, (htrail.weaken (fun _ hs => hs) (fun _ _ hm => hm.widen (Nat.le_refl _) h'.next)
      fun _ hw => hw).trans (htrail'.weaken (fun _ hs => hs)
        (fun _ _ hm => hm.widen h.next (Nat.le_refl _)) fun _ hw => hw)⟩

theorem weaken (h : Moves spared ref s s') (hs : ∀ path, spared' path → spared path) :
    Moves spared' ref s s' where
  options := h.options
  log := h.log
  catalog := h.catalog
  pages := h.pages
  next := h.next
  trail := by
    rcases h.trail with ⟨effects, htrail⟩
    exact ⟨effects, htrail.weaken hs (fun _ _ hm => hm) fun _ hw => hw⟩

theorem changes (h : Moves spared ref s s') : Disk.Changes spared
    (Fresh s.options ref s.registry.nextChunk s'.registry.nextChunk) (fun _ => False)
      s.disk s'.disk := by
  rcases h.trail with ⟨effects, htrail⟩
  exact htrail.changes

end Moves

@[simp] theorem setDisk_disk (s : Store) (d : Disk) : (s.setDisk d).disk = d := rfl

@[simp] theorem discardTrees_disk (s : Store) (paths : List Path) :
    (s.discardTrees paths).disk = s.disk.discardTrees paths := rfl

theorem setWriters_moves (spared : Path → Prop) (ref : TableRef) (s : Store)
    (writers : List TableRef) : Moves spared ref s (s.setWriters writers) where
  options := rfl
  log := rfl
  catalog := rfl
  pages := rfl
  next := Nat.le_refl _
  trail := ⟨[], .refl ..⟩

theorem discardTrees_moves (ref : TableRef) (s : Store) (paths : List Path) :
    Moves (Outside paths) ref s (s.discardTrees paths) where
  options := rfl
  log := rfl
  catalog := rfl
  pages := rfl
  next := Nat.le_refl _
  trail := Disk.discardTrees_trail fun p hp _ hprefix houtside => houtside p hp hprefix

theorem removeTrees_moves (ref : TableRef) (s : Store) (paths : List Path) :
    Moves (Outside paths) ref s (s.removeTrees paths).1 where
  options := rfl
  log := rfl
  catalog := rfl
  pages := rfl
  next := Nat.le_refl _
  trail := Disk.removeTrees_trail fun p hp _ hprefix houtside => houtside p hp hprefix

end Store

namespace Session

open Store (Moves Outside)

-- The number of the chunk is used up before anything of it is written.
theorem begun_moves {s : Store} {ref : TableRef} {chunk : EncodedChunk} {d : Disk}
    {result : Except FileError Unit} (h : s.disk.performAll (chunkEffects (s.options.chunkPath ref
      s.registry.nextChunk) chunk) = (d, result)) (spared : Path → Prop) :
    Moves spared ref s ((s.setRegistry s.registry.takeChunk).setDisk d) where
  options := rfl
  log := rfl
  catalog := rfl
  pages := rfl
  next := Nat.le_succ _
  trail := by
    have htrail : ∃ effects, Disk.Trail spared (Begun s.options ref s.registry.nextChunk)
        (fun _ => False) s.disk (s.disk.performAll
          (chunkEffects (s.options.chunkPath ref s.registry.nextChunk) chunk)).1 effects :=
      Disk.performAll_trail (chunkEffects_within spared _ chunk)
    rw [h] at htrail
    rcases htrail with ⟨effects, htrail⟩
    exact ⟨effects, htrail.weaken (fun _ hs => hs)
      (fun _ _ hm => ⟨_, Nat.le_refl _, Nat.lt_succ_self _, hm⟩) fun _ hw => hw⟩

/-- What becomes of a session that writes its documents: there are none, or their columns are not in
    its schema, or some file of the chunk cannot be made, or all of them were made. -/
inductive Flushes (session : Session) (s : Store) : Store × Session × Except StoreError Unit → Prop
  | empty (nothing : session.buffer.isEmpty = true) : Flushes session s (s, session, .ok ())
  | refused {id : Nat} (nonempty : ¬ session.buffer.isEmpty = true)
      (encoded : session.buffer.encode session.schema s.options.columnOptions = .error id) :
      Flushes session s (s, session, .error (.notFound .column (toString id)))
  | failed {chunk : EncodedChunk} {d : Disk} {fault : FileError}
      (nonempty : ¬ session.buffer.isEmpty = true)
      (encoded : session.buffer.encode session.schema s.options.columnOptions = .ok chunk)
      (performed : s.disk.performAll (chunkEffects (s.options.chunkPath session.ref
        s.registry.nextChunk) chunk) = (d, .error fault)) :
      Flushes session s (((s.setRegistry s.registry.takeChunk).setDisk d).discardTrees
        [s.options.chunkPath session.ref s.registry.nextChunk], session, .error (.file fault))
  | written {chunk : EncodedChunk} {d : Disk} (nonempty : ¬ session.buffer.isEmpty = true)
      (encoded : session.buffer.encode session.schema s.options.columnOptions = .ok chunk)
      (performed : s.disk.performAll (chunkEffects (s.options.chunkPath session.ref
        s.registry.nextChunk) chunk) = (d, .ok ())) :
      Flushes session s ((s.setRegistry s.registry.takeChunk).setDisk d,
        session.stage ⟨s.registry.nextChunk, chunk.recordCount, chunk.columnIds⟩, .ok ())

theorem flush_spec (session : Session) (s : Store) : session.Flushes s (session.flush s) := by
  have hdisk : (s.setRegistry s.registry.takeChunk).disk = s.disk := rfl
  rw [flush]
  by_cases hempty : session.buffer.isEmpty = true
  · rw [if_pos hempty]
    exact .empty hempty
  · rw [if_neg hempty]
    cases hencode : session.buffer.encode session.schema s.options.columnOptions with
    | error id => exact .refused hempty hencode
    | ok chunk =>
        simp only [Store.performAll, hdisk]
        rcases hperform : s.disk.performAll
          (chunkEffects (s.options.chunkPath session.ref s.registry.nextChunk) chunk) with ⟨d, e | _⟩
        · exact .failed hempty hencode hperform
        · exact .written hempty hencode hperform

/-- A chunk is begun under a new number. If its files cannot all be made, what was made of it is
    removed. -/
theorem flush_moves (session : Session) (s : Store) :
    Moves (Outside [s.options.chunkPath session.ref s.registry.nextChunk]) session.ref s
      (session.flush s).1 ∧
    (session.flush s).1.writers = s.writers ∧ (session.flush s).2.1.ref = session.ref := by
  have hflushes := session.flush_spec s
  generalize session.flush s = answer at hflushes ⊢
  cases hflushes with
  | empty | refused => exact ⟨.refl .., rfl, rfl⟩
  | failed nonempty encoded performed =>
      exact ⟨(begun_moves performed _).trans (Store.discardTrees_moves ..), rfl, rfl⟩
  | written nonempty encoded performed => exact ⟨begun_moves performed _, rfl, rfl⟩

theorem discard_moves (session : Session) (s : Store) :
    Moves (Outside (session.stagedPaths s.options)) session.ref s (session.discard s) :=
  (Store.discardTrees_moves ..).trans (Store.setWriters_moves ..)

theorem abort_moves (session : Session) (s : Store) :
    Moves (Outside (session.stagedPaths s.options)) session.ref s (session.abort s).1 := by
  have habort : (session.abort s).1 =
      session.release (s.removeTrees (session.stagedPaths s.options)).1 := rfl
  rw [habort]
  exact (Store.removeTrees_moves ..).trans (Store.setWriters_moves ..)

end Session

end NestedColumns
