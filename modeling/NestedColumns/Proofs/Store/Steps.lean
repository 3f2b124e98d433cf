import NestedColumns.Proofs.Registry
import NestedColumns.Proofs.Store.Paths
import NestedColumns.Proofs.Store.Moves
import NestedColumns.Store.Open
import NestedColumns.Store.Tables

/-!
# What the operations of a store leave alone

Whatever is asked of a store, and whether it succeeds or fails, the store stays in its
directory, writes to no other file than its log, begins chunks with new numbers only, and
keeps the pages it has read. Which paths an operation may remove tells what it spares.

## Main definitions

* `Store.Placed`: What is at a path is at a place of the store.
* `Store.Follows`: A store after operations that spare some paths.

## Theorems

* `Store.Follows.trans`: Operations one after another.
* `Store.Moves.follows`: Operations that leave the log alone.
* `Store.commit_cases`: A change of the catalog.
-/

namespace NestedColumns

open StoreOptions (Own Laid)

namespace Store

/-- What is at a path inside the directory of a store is at a place of the store. -/
def Placed (o : StoreOptions) (next : Nat) (path : Path) (node : DiskNode) : Prop :=
  o.directory <+: path → path ≠ o.directory → Own o next path node

/-- A store after operations that spare some paths. -/
structure Follows (spared : Path → Prop) (s s' : Store) : Prop where
  options : s'.options = s.options
  log : s'.log.file = s.log.file
  pages : s'.volume.pages = s.volume.pages
  next : s.registry.nextChunk ≤ s'.registry.nextChunk
  disk : Disk.Changes spared (Placed s.options s'.registry.nextChunk) (· = s.log.file)
    s.disk s'.disk

variable {spared spared' : Path → Prop} {s s' s'' : Store}

theorem Follows.refl (spared : Path → Prop) (s : Store) : Follows spared s s where
  options := rfl
  log := rfl
  pages := rfl
  next := Nat.le_refl _
  disk := .refl ..

theorem Placed.later {o : StoreOptions} {next next' : Nat} {path : Path} {node : DiskNode}
    (h : Placed o next path node) (hle : next ≤ next') : Placed o next' path node :=
  fun hdirectory hne => (h hdirectory hne).later hle

theorem Follows.trans (h : Follows spared s s') (h' : Follows spared s' s'') :
    Follows spared s s'' where
  options := h'.options.trans h.options
  log := h'.log.trans h.log
  pages := h'.pages.trans h.pages
  next := Nat.le_trans h.next h'.next
  disk := by
    have hsecond := h'.disk
    rw [h.options, h.log] at hsecond
    refine (h.disk.weaken (fun _ hs => hs) (fun _ _ hm => ?_) fun _ hw => hw).trans hsecond
    exact hm.later h'.next

theorem Follows.laid (h : Follows spared s s')
    (hs : ∀ path, path <+: s.options.directory ∨ path = s.options.logPath → spared path)
    (hl : s.options.Laid s.registry.nextChunk s.log.file s.disk) :
    s'.options.Laid s'.registry.nextChunk s'.log.file s'.disk := by
  rw [h.options, h.log]
  exact hl.changes h.disk h.next hs fun path node hp hne hm => hm hp hne

/-! ### The log -/

-- Only the log is written to, also when the writing fails or is undone.
theorem append_changes {made : Path → DiskNode → Prop} (log : LogFile) (d : Disk)
    (entries : List LogEntry) :
    Disk.Changes spared made (· = log.file) d (log.append d entries).1 ∧
      (log.append d entries).2.2.file = log.file := by
  have hwrite : Disk.Changes spared made (· = log.file) d
      (d.perform (.writeAt log.file log.path log.position
        (Utf8.encode (LogEntry.transaction entries)))).1 := Disk.perform_changes rfl
  rw [LogFile.append]
  rcases hperform : d.perform (.writeAt log.file log.path log.position
    (Utf8.encode (LogEntry.transaction entries))) with ⟨after, result⟩
  rw [hperform] at hwrite
  cases result with
  | ok _ => exact ⟨hwrite, rfl⟩
  | error e =>
      have hcut : Disk.Changes spared made (· = log.file) after
          (after.perform (.truncate log.file log.path log.committed)).1 := Disk.perform_changes rfl
      simp only
      rcases htruncate : after.perform (.truncate log.file log.path log.committed) with
        ⟨last, outcome⟩
      rw [htruncate] at hcut
      cases outcome with
      | ok _ => exact ⟨hwrite.trans hcut, rfl⟩
      | error fault => exact ⟨hwrite.trans hcut, rfl⟩

-- The committed length grows by transactions that were written.
theorem append_committed (log : LogFile) (d : Disk) (entries : List LogEntry) :
    (log.append d entries).2.2.committed = log.committed +
      match (log.append d entries).2.1 with
      | .ok _ => (Utf8.encode (LogEntry.transaction entries)).length
      | .error _ => 0 := by
  rw [LogFile.append]
  rcases d.perform (.writeAt log.file log.path log.position
    (Utf8.encode (LogEntry.transaction entries))) with ⟨after, e | _⟩
  · simp only
    rcases after.perform (.truncate log.file log.path log.committed) with ⟨last, fault | _⟩
    · rfl
    · rfl
  · rfl

theorem nextChunk_applyAll (r : Registry) (ops : List Operation) :
    r.nextChunk ≤ (r.applyAll ops).1.nextChunk := by
  have hstep : ∀ (r₁ : Registry) (op : Operation) (r₂ : Registry), op ∈ ops →
      r.nextChunk ≤ r₁.nextChunk → r₁.apply op = .ok r₂ → r.nextChunk ≤ r₂.nextChunk := by
    intro r₁ op r₂ _ hle happly
    rw [Registry.nextChunk_apply happly]
    exact Nat.le_trans hle (op.le_onNextChunk _)
  exact Registry.applyAll_induction hstep (Nat.le_refl _)

-- What is written to the log counts at once; else the catalog is as it was.
theorem commit_cases (spared : Path → Prop) (s : Store) (ops : List Operation) :
    Follows spared s (s.commit ops).1 ∧ (s.commit ops).1.writers = s.writers ∧
      ((s.commit ops).1.registry = (s.registry.applyAll ops).1 ∧
          (s.commit ops).2 = (s.registry.applyAll ops).2.mapError .ofCatalog ∧
          (s.commit ops).1.log.committed = s.log.committed +
            (Utf8.encode (LogEntry.transaction (ops.map .operation))).length ∨
        (s.commit ops).1.registry = s.registry ∧ (∃ e, (s.commit ops).2 = .error e) ∧
          (s.commit ops).1.log.committed = s.log.committed) := by
  have happend : Disk.Changes spared
      (Placed s.options s.registry.nextChunk) (· = s.log.file) s.disk
        (s.log.append s.disk (ops.map .operation)).1 ∧ _ := append_changes ..
  rcases happend with ⟨hdisk, hfile⟩
  have hcommitted := append_committed s.log s.disk (ops.map .operation)
  have hle := nextChunk_applyAll s.registry ops
  rw [commit]
  rcases hresult : s.log.append s.disk (ops.map .operation) with ⟨d, result, log⟩
  rw [hresult] at hdisk hfile hcommitted
  cases result with
  | error e =>
      exact ⟨⟨rfl, hfile, rfl, Nat.le_refl _, hdisk⟩, rfl, Or.inr ⟨rfl, ⟨_, rfl⟩, hcommitted⟩⟩
  | ok _ =>
      have hlater : Disk.Changes spared
          (Placed s.options (s.registry.applyAll ops).1.nextChunk) (· = s.log.file) s.disk d :=
        hdisk.weaken (fun _ hs => hs) (fun _ _ hm => hm.later hle) fun _ hw => hw
      exact ⟨⟨rfl, hfile, rfl, hle, hlater⟩, rfl, Or.inl ⟨rfl, rfl, hcommitted⟩⟩

/-! ### Removing directories -/

-- What is on the way to a new chunk, or is in it, has its place in the store.
theorem Fresh.placed {o : StoreOptions} {ref : TableRef} {next next' : Nat} {path : Path}
    {node : DiskNode} (h : Fresh o ref next next' path node) : Placed o next' path node := by
  rcases h with ⟨id, -, hlt, hbegun⟩
  exact fun hdirectory hne => hbegun.own hlt hdirectory hne

theorem Moves.follows {ref : TableRef} (h : Moves spared ref s s') : Follows spared s s' where
  options := h.options
  log := by rw [h.log]
  pages := h.pages
  next := h.next
  disk := h.changes.weaken (fun _ hs => hs) (fun _ _ hm => hm.placed) fun _ hw => absurd hw id

theorem discardTrees_follows (s : Store) (paths : List Path) :
    Follows (Outside paths) s (s.discardTrees paths) :=
  (discardTrees_moves default s paths).follows

theorem removeTrees_follows (s : Store) (paths : List Path) :
    Follows (Outside paths) s (s.removeTrees paths).1 :=
  (removeTrees_moves default s paths).follows

theorem setWriters_follows (spared : Path → Prop) (s : Store) (writers : List TableRef) :
    Follows spared s (s.setWriters writers) where
  options := rfl
  log := rfl
  pages := rfl
  next := Nat.le_refl _
  disk := .refl ..

end Store

namespace Session

open Store (Follows Outside Placed)

theorem flush_follows (session : Session) (s : Store) :
    Follows (Outside [s.options.chunkPath session.ref s.registry.nextChunk]) s
      (session.flush s).1 ∧
    (session.flush s).1.writers = s.writers ∧
    (session.flush s).1.catalog = s.catalog ∧
    (session.flush s).2.1.ref = session.ref := by
  rcases session.flush_moves s with ⟨hmoves, hwriters, href⟩
  exact ⟨hmoves.follows, hwriters, hmoves.catalog, href⟩

end Session

end NestedColumns
