import NestedColumns.Proofs.Column.Untouched
import NestedColumns.Proofs.Disk.Routes
import NestedColumns.Proofs.Log.Replaying
import NestedColumns.Proofs.Store.Steps

/-!
# What the log of a store says

As long as every change of the catalog succeeds, the log holds the transactions of all
changes one after another and nothing else, and the catalog is what they make of an empty
one. Nothing else that a store does writes to the log, also when it fails.

## Main definitions

* `Store.Quiet`: A store after operations that do not write to its log.
* `Store.Logged`: The log of a store holds some transactions.

## Theorems

* `Session.flush_quiet`: Writing chunks does not write to the log.
* `Store.Logged.quiet`, `Store.Logged.commit`: What becomes of the log.
-/

namespace NestedColumns

namespace Store

variable {s s' s'' : Store}

/-- A path that is not in the directory of a database. -/
def Aside (o : StoreOptions) (path : Path) : Prop :=
  ∀ id, ¬ o.databasePath id <+: path

theorem aside_of_prefix_directory {o : StoreOptions} {path : Path} (h : path <+: o.directory) :
    Aside o path :=
  fun _ hpre => StoreOptions.outside_database hpre (Or.inl h)

theorem aside_logPath (o : StoreOptions) : Aside o o.logPath :=
  fun _ hpre => StoreOptions.outside_database hpre (Or.inr rfl)

/-- A store after operations that do not write to its log: nothing was written to a file
    that was there, and what is outside the directories of databases was left alone. -/
structure Quiet (s s' : Store) : Prop where
  options : s'.options = s.options
  log : s'.log = s.log
  catalog : s'.catalog = s.catalog
  disk : Disk.Changes (Aside s.options) (fun _ _ => True) (fun _ => False) s.disk s'.disk

theorem Quiet.refl (s : Store) : Quiet s s where
  options := rfl
  log := rfl
  catalog := rfl
  disk := .refl ..

theorem Quiet.of_eq (h : s' = s) : Quiet s s' :=
  h ▸ .refl s

theorem Quiet.trans (h : Quiet s s') (h' : Quiet s' s'') : Quiet s s'' where
  options := h'.options.trans h.options
  log := h'.log.trans h.log
  catalog := h'.catalog.trans h.catalog
  disk := by
    have hsecond := h'.disk
    rw [h.options] at hsecond
    exact h.disk.trans hsecond

theorem setWriters_quiet (s : Store) (writers : List TableRef) : Quiet s (s.setWriters writers) where
  options := rfl
  log := rfl
  catalog := rfl
  disk := .refl ..

theorem records_quiet (s : Store) (database table : String) (paths : List String) :
    Quiet s (s.records database table paths).1 := by
  rcases s.records_eq database table paths with ⟨v, hdisk, hrecords⟩
  rw [hrecords]
  have hsame : (s.setVolume v).disk = s.disk := hdisk
  exact ⟨rfl, rfl, rfl, hsame ▸ .refl ..⟩

/-- Directories that are each in the directory of a database. -/
def Inside (o : StoreOptions) (paths : List Path) : Prop :=
  ∀ path ∈ paths, ∃ id, o.databasePath id <+: path

theorem Inside.outside {o : StoreOptions} {paths : List Path} (h : Inside o paths) (path : Path)
    (haside : Aside o path) : Outside paths path := by
  intro p hp hpre
  rcases h p hp with ⟨id, hid⟩
  exact haside id (hid.trans hpre)

theorem inside_chunk (o : StoreOptions) (ref : TableRef) (id : Nat) :
    Inside o [o.chunkPath ref id] := fun _ hpath =>
  ⟨_, (List.mem_singleton.mp hpath).symm ▸ StoreOptions.database_prefix_chunk o ref id⟩

theorem Moves.quiet {spared : Path → Prop} {ref : TableRef} (h : Moves spared ref s s')
    (hs : ∀ path, Aside s.options path → spared path) : Quiet s s' where
  options := h.options
  log := h.log
  catalog := h.catalog
  disk := h.changes.weaken hs (fun _ _ _ => trivial) fun _ hw => hw

theorem discardTrees_quiet {paths : List Path} (h : Inside s.options paths) :
    Quiet s (s.discardTrees paths) :=
  (discardTrees_moves default s paths).quiet h.outside

end Store

namespace Session

open Store (Quiet Inside)

theorem stagedPaths_inside (session : Session) (o : StoreOptions) :
    Inside o (session.stagedPaths o) := by
  intro path hpath
  rcases List.mem_map.mp hpath with ⟨c, -, rfl⟩
  exact ⟨_, StoreOptions.database_prefix_chunk ..⟩

theorem flush_quiet (session : Session) (s : Store) : Quiet s (session.flush s).1 :=
  (session.flush_moves s).1.quiet (Inside.outside (Store.inside_chunk _ _ _))

theorem insert_quiet (session : Session) (s : Store) (document : Json) :
    Quiet s (session.insert s document).1 := by
  rw [insert]
  cases session.accept s.options.mergeOptions document with
  | error e => exact .refl s
  | ok session =>
      by_cases hfull : s.options.targetChunkSize ≤ session.buffer.estimatedSize
      · simp only [if_pos hfull]
        exact session.flush_quiet s
      · simp only [if_neg hfull]
        exact .refl s

theorem insertText_quiet (session : Session) (s : Store) (bytes : List UInt8) :
    Quiet s (session.insertText s bytes).1 := by
  rw [insertText]
  cases Json.read? (Utf8.readWith '\x00' bytes) with
  | error fault => exact .refl s
  | ok document => exact session.insert_quiet s document

theorem discard_quiet (session : Session) (s : Store) : Quiet s (session.discard s) :=
  (session.discard_moves s).quiet (session.stagedPaths_inside s.options).outside

theorem abort_quiet (session : Session) (s : Store) : Quiet s (session.abort s).1 :=
  (session.abort_moves s).quiet (session.stagedPaths_inside s.options).outside

end Session

namespace Store

variable {s s' : Store} {txs : List (List Operation)} {ops : List Operation}

/-- The log of a store holds some transactions, and its catalog is what they say. -/
structure Logged (s : Store) (txs : List (List Operation)) : Prop where
  above : s.disk.Above s.options.directory
  logFile : s.disk.node? s.options.logPath = some (.file s.log.file)
  number : s.log.file < s.disk.nextFile
  contents : s.disk.contentsOf s.log.file = Utf8.encode (LogEntry.transactions txs)
  position : s.log.position = (s.disk.contentsOf s.log.file).length
  tree : s.disk.Tree
  catalog : ∃ r, Registry.replay txs.flatten = .ok r ∧ r.catalog = s.catalog

theorem Logged.alter {spared : Path → Prop} {made : Path → DiskNode → Prop} {written : Nat → Prop}
    (h : s.Logged txs) (ho : s'.options = s.options) (hfile : s'.log.file = s.log.file)
    (hposition : s'.log.position = s.log.position) (hc : s'.catalog = s.catalog)
    (hd : Disk.Changes spared made written s.disk.left s'.disk.left)
    (hs : ∀ path, path <+: s.options.directory ∨ path = s.options.logPath → spared path)
    (hcontents : s'.disk.contentsOf s.log.file = s.disk.contentsOf s.log.file) :
    s'.Logged txs := by
  have habove : s.disk.left.Above s.options.directory := h.above
  have htree := hd.tree (h.tree.of_entries rfl)
  constructor
  · rw [ho]
    exact (habove.changes hd fun path hpath => hs path (Or.inl hpath) : s'.disk.left.Above _)
  · rw [ho, hfile]
    exact hd.kept _ _ (hs _ (Or.inr rfl)) h.logFile
  · rw [hfile]
    exact Nat.lt_of_lt_of_le h.number hd.nextFile
  · rw [hfile, hcontents, h.contents]
  · rw [hfile, hcontents, hposition, h.position]
  · exact htree.of_entries rfl
  · rw [hc]
    exact h.catalog

theorem Logged.quiet (h : s.Logged txs) (hq : Quiet s s') : s'.Logged txs :=
  h.alter hq.options (by rw [hq.log]) (by rw [hq.log]) hq.catalog hq.disk.left
    (fun path hpath => hpath.elim aside_of_prefix_directory fun heq => heq ▸ aside_logPath _)
    (hq.disk.contents _ h.number fun hw => hw)

theorem transactions_concat (txs : List (List Operation)) (ops : List Operation) :
    Utf8.encode (LogEntry.transactions (txs ++ [ops])) =
      Utf8.encode (LogEntry.transactions txs) ++
        Utf8.encode (LogEntry.transaction (ops.map .operation)) := by
  rw [LogEntry.transactions, List.flatMap_append, List.flatMap_singleton, Utf8.encode,
    List.flatMap_append]
  rfl

-- A change that succeeds writes its transaction behind all others.
theorem commit_eq_ok (h : s.commit ops = (s', .ok ())) :
    ∃ d r, s.disk.perform (.writeAt s.log.file s.log.path s.log.position
        (Utf8.encode (LogEntry.transaction (ops.map .operation)))) = (d, .ok ()) ∧
      s.registry.applyAll ops = (r, .ok ()) ∧
      s' = ⟨s.options, s.volume.setDisk d, ⟨s.log.path, s.log.file,
        s.log.position + (Utf8.encode (LogEntry.transaction (ops.map .operation))).length,
        s.log.committed + (Utf8.encode (LogEntry.transaction (ops.map .operation))).length⟩,
        r, s.writers⟩ := by
  rw [commit, LogFile.append] at h
  rcases hperform : s.disk.perform (.writeAt s.log.file s.log.path s.log.position
    (Utf8.encode (LogEntry.transaction (ops.map .operation)))) with ⟨d, result⟩
  rw [hperform] at h
  cases result with
  | error e =>
      simp only at h
      rcases htruncate : d.perform (.truncate s.log.file s.log.path s.log.committed) with
        ⟨last, outcome⟩
      rw [htruncate] at h
      cases outcome <;> cases h
  | ok _ =>
      simp only at h
      rcases happly : s.registry.applyAll ops with ⟨r, applied⟩
      rw [happly] at h
      cases applied with
      | error e => cases h
      | ok _ =>
          rw [Prod.mk.injEq] at h
          exact ⟨d, r, rfl, rfl, h.1.symm⟩

theorem Logged.commit (h : s.Logged txs) (hok : s.commit ops = (s', .ok ())) :
    s'.Logged (txs ++ [ops]) := by
  rcases commit_eq_ok hok with ⟨d, r, hperform, happly, rfl⟩
  rcases h.catalog with ⟨r₀, hreplay, hsame⟩
  have hchanges : Disk.Changes (fun _ => True) (fun _ _ => False) (· = s.log.file) s.disk d :=
    Disk.changes_of_perform hperform rfl
  have hcontents : d.contentsOf s.log.file =
      s.disk.contentsOf s.log.file ++
        Utf8.encode (LogEntry.transaction (ops.map .operation)) := by
    rcases Disk.apply_of_perform_ok hperform with ⟨after, hwrite, rfl⟩
    rw [Disk.apply, Except.ok.injEq] at hwrite
    have hwritten := Disk.contentsOf_setContents s.disk.attempted s.log.file
      (Disk.overwrite (s.disk.attempted.contentsOf s.log.file) s.log.position
        (Utf8.encode (LogEntry.transaction (ops.map .operation))))
    rw [hwrite, h.position] at hwritten
    exact hwritten.trans (Disk.overwrite_end _ _)
  constructor
  · exact h.above.changes hchanges fun _ _ => trivial
  · exact hchanges.kept _ _ trivial h.logFile
  · exact Nat.lt_of_lt_of_le h.number hchanges.nextFile
  · rw [transactions_concat, ← h.contents]
    exact hcontents
  · have hlength := congrArg List.length hcontents
    rw [List.length_append, ← h.position] at hlength
    exact hlength.symm
  · exact hchanges.tree h.tree
  · rw [List.flatten_append, List.flatten_singleton]
    rcases Registry.replay_append hreplay hsame happly with ⟨r₁, hlast, hcatalog, -⟩
    exact ⟨r₁, hlast, hcatalog⟩

end Store

end NestedColumns
