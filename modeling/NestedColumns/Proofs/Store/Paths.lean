import NestedColumns.Proofs.Disk.Writing
import NestedColumns.Store.Basic
import Mathlib.Tactic.Common
import Std.Data.String.ToNat

/-!
# Where things are in a store

The directories of databases, tables and chunks are named by numbers, so no two of them
are the same, and none is the log. Of what has a number for its name in the directory
of a store only few kinds are there. This is how a new chunk finds its place free, and how
removing one directory leaves everything else alone.

## Main definitions

* `StoreOptions.Own`: What is in the directory of a store.
* `StoreOptions.Laid`: A disk with the directory of a store.

## Theorems

* `StoreOptions.chunkPath_inj`: Chunks have different directories.
* `StoreOptions.Laid.changes`: What keeps a directory a store.
* `StoreOptions.Laid.free`: The place of a new chunk is free.
-/

namespace NestedColumns

theorem toString_inj {m n : Nat} (h : toString m = toString n) : m = n :=
  Nat.repr_inj.mp h

-- A number has digits only.
theorem toString_ne {c : Char} {name : String} (hc : c ∈ name.toList) (hdigit : c.isDigit = false)
    (hscore : c ≠ '_') (n : Nat) : toString n ≠ name := by
  rintro rfl
  rcases (String.isNat_iff.mp (Nat.isNat_repr n)).2.1 c hc with htrue | heq
  · rw [hdigit] at htrue
    cases htrue
  · exact hscore heq

theorem toString_ne_manifest (n : Nat) : toString n ≠ "manifest.json" :=
  toString_ne (c := 'm') (by decide) (by decide) (by decide) n

-- Nothing that has a number for its name is there whatever the disk holds.
theorem isGiven_toString (path : Path) (n : Nat) : Path.isGiven (path ++ [toString n]) = false := by
  rw [← Bool.not_eq_true, Path.isGiven, Bool.or_eq_true, beq_iff_eq, List.all_eq_true]
  rintro (hroot | hdots)
  · have hlast := congrArg List.getLast? hroot
    rw [List.getLast?_concat, List.getLast?_singleton, Option.some.injEq] at hlast
    exact toString_ne (c := '/') (by decide) (by decide) (by decide) n hlast
  · have hname := hdots _ (List.mem_append_right _ List.mem_cons_self)
    exact toString_ne (c := '.') (by decide) (by decide) (by decide) n (beq_iff_eq.mp hname)

namespace StoreOptions

variable {o : StoreOptions} {ref ref' : TableRef} {id id' : Nat} {path : Path}

theorem length_databasePath (o : StoreOptions) (id : Nat) :
    (o.databasePath id).length = o.directory.length + 1 := by
  rw [databasePath, List.length_append, List.length_singleton]

theorem length_tablePath (o : StoreOptions) (ref : TableRef) :
    (o.tablePath ref).length = o.directory.length + 2 := by
  rw [tablePath, List.length_append, List.length_singleton, length_databasePath]

theorem length_chunkPath (o : StoreOptions) (ref : TableRef) (id : Nat) :
    (o.chunkPath ref id).length = o.directory.length + 3 := by
  rw [chunkPath, List.length_append, List.length_singleton, length_tablePath]

theorem length_logPath (o : StoreOptions) : o.logPath.length = o.directory.length + 1 := by
  rw [logPath, List.length_append, List.length_singleton]

theorem directory_prefix_database (o : StoreOptions) (id : Nat) :
    o.directory <+: o.databasePath id :=
  List.prefix_append ..

theorem database_prefix_table (o : StoreOptions) (ref : TableRef) :
    o.databasePath ref.database <+: o.tablePath ref :=
  List.prefix_append ..

theorem table_prefix_chunk (o : StoreOptions) (ref : TableRef) (id : Nat) :
    o.tablePath ref <+: o.chunkPath ref id :=
  List.prefix_append ..

theorem databasePath_inj (h : o.databasePath id = o.databasePath id') : id = id' := by
  have hnames := List.append_cancel_left h
  rw [List.cons.injEq] at hnames
  exact toString_inj hnames.1

theorem tablePath_inj (h : o.tablePath ref = o.tablePath ref') : ref = ref' := by
  rcases ref with ⟨database, table⟩
  rcases ref' with ⟨database', table'⟩
  have hparts := List.append_inj' h rfl
  rw [List.cons.injEq] at hparts
  have hdatabase := databasePath_inj hparts.1
  have htable := toString_inj hparts.2.1
  rw [TableRef.mk.injEq]
  exact ⟨hdatabase, htable⟩

theorem chunkPath_inj (h : o.chunkPath ref id = o.chunkPath ref' id') : ref = ref' ∧ id = id' := by
  have hparts := List.append_inj' h rfl
  rw [List.cons.injEq] at hparts
  exact ⟨tablePath_inj hparts.1, toString_inj hparts.2.1⟩

-- Two directories of the same kind that a path is in are one.
theorem chunk_unique (h : o.chunkPath ref id <+: path) (h' : o.chunkPath ref' id' <+: path) :
    ref = ref' ∧ id = id' := by
  have hlength : (o.chunkPath ref id).length = (o.chunkPath ref' id').length := by
    rw [length_chunkPath, length_chunkPath]
  have hpre := List.prefix_of_prefix_length_le h h' (Nat.le_of_eq hlength)
  exact chunkPath_inj (hpre.eq_of_length hlength)

theorem table_unique (h : o.tablePath ref <+: path) (h' : o.tablePath ref' <+: path) :
    ref = ref' := by
  have hlength : (o.tablePath ref).length = (o.tablePath ref').length := by
    rw [length_tablePath, length_tablePath]
  exact tablePath_inj ((List.prefix_of_prefix_length_le h h' (Nat.le_of_eq hlength)).eq_of_length
    hlength)

theorem database_unique (h : o.databasePath id <+: path) (h' : o.databasePath id' <+: path) :
    id = id' := by
  have hlength : (o.databasePath id).length = (o.databasePath id').length := by
    rw [length_databasePath, length_databasePath]
  exact databasePath_inj ((List.prefix_of_prefix_length_le h h'
    (Nat.le_of_eq hlength)).eq_of_length hlength)

-- Neither the way to the store nor its log is in the directory of a database.
theorem outside_database (h : o.databasePath id <+: path) :
    ¬ (path <+: o.directory ∨ path = o.logPath) := by
  rintro (hup | rfl)
  · have hle := (h.trans hup).length_le
    rw [length_databasePath] at hle
    omega
  · have hlength : (o.databasePath id).length = o.logPath.length := by
      rw [length_databasePath, length_logPath]
    have heq := List.append_cancel_left (h.eq_of_length hlength)
    rw [List.cons.injEq] at heq
    exact toString_ne_manifest id heq.1

/-! ### The directory of a store -/

/-- What is in the directory of a store: directories of databases and tables, what is in
    those of chunks with numbers below `next`, and what has no number for its name, the log
    and whatever else is there. -/
inductive Own (o : StoreOptions) (next : Nat) : Path → DiskNode → Prop where
  | database (id : Nat) : Own o next (o.databasePath id) .directory
  | table (ref : TableRef) : Own o next (o.tablePath ref) .directory
  | chunk {ref : TableRef} {id : Nat} {path : Path} (node : DiskNode) (begun : id < next)
      (inside : o.chunkPath ref id <+: path) : Own o next path node
  | aside {path : Path} (node : DiskNode) (apart : ∀ id, ¬ o.databasePath id <+: path) :
      Own o next path node

/-- A disk with the directory of a store, in which every number is one of the store's. -/
structure Laid (o : StoreOptions) (next log : Nat) (d : Disk) : Prop where
  above : ∀ path, path <+: o.directory → d.node? path = some .directory
  logFile : d.node? o.logPath = some (.file log)
  inside : ∀ path node, o.directory <+: path → path ≠ o.directory → d.node? path = some node →
    Own o next path node
  number : log < d.nextFile

variable {next next' log : Nat} {d d' : Disk}

theorem Own.later {node : DiskNode} (h : Own o next path node) (hle : next ≤ next') :
    Own o next' path node := by
  cases h with
  | database id => exact .database id
  | table ref => exact .table ref
  | chunk _ begun inside => exact .chunk _ (Nat.lt_of_lt_of_le begun hle) inside
  | aside _ apart => exact .aside _ apart

theorem Laid.changes {spared : Path → Prop} {made : Path → DiskNode → Prop}
    (h : Laid o next log d) (hc : Disk.Changes spared made (· = log) d d') (hle : next ≤ next')
    (hs : ∀ path, path <+: o.directory ∨ path = o.logPath → spared path)
    (hm : ∀ path node, o.directory <+: path → path ≠ o.directory → made path node →
      Own o next' path node) : Laid o next' log d' where
  above := fun path hp => hc.kept path _ (hs path (Or.inl hp)) (h.above path hp)
  logFile := hc.kept _ _ (hs _ (Or.inr rfl)) h.logFile
  inside := fun path node hp hne hn => by
    rcases hc.new path node hn with hold | ⟨hmade, -⟩
    · exact (h.inside path node hp hne hold).later hle
    · exact hm path node hp hne hmade
  number := Nat.lt_of_lt_of_le h.number hc.nextFile

-- What is on the way to a chunk, or is in it, has its place in the store.
theorem own_of_prefix_chunk (hdirectory : o.directory <+: path) (hne : path ≠ o.directory)
    (hid : id < next) (h : path <+: o.chunkPath ref id) : Own o next path .directory := by
  rcases List.prefix_concat_iff.mp h with rfl | h
  · exact .chunk _ hid (List.prefix_refl _)
  · rcases List.prefix_concat_iff.mp h with rfl | h
    · exact .table ref
    · rcases List.prefix_concat_iff.mp h with rfl | h
      · exact .database ref.database
      · exact absurd (h.eq_of_length_le hdirectory.length_le) hne

theorem database_prefix_chunk (o : StoreOptions) (ref : TableRef) (id : Nat) :
    o.databasePath ref.database <+: o.chunkPath ref id :=
  (database_prefix_table o ref).trans (table_prefix_chunk o ref id)

theorem ne_directory (h : o.databasePath id <+: path) : path ≠ o.directory := by
  rintro rfl
  exact outside_database h (Or.inl (List.prefix_refl _))

theorem Laid.free (h : Laid o next log d) (hid : next ≤ id) :
    ∀ path, o.chunkPath ref id <+: path → d.node? path = none := by
  intro path hp
  rw [Option.eq_none_iff_forall_ne_some]
  intro node hnode
  have hlong := hp.length_le
  rw [length_chunkPath] at hlong
  have hdatabase := (database_prefix_chunk o ref id).trans hp
  cases h.inside path node ((directory_prefix_database o _).trans hdatabase)
    (ne_directory hdatabase) hnode with
  | database other =>
      rw [length_databasePath] at hlong
      omega
  | table other =>
      rw [length_tablePath] at hlong
      omega
  | chunk _ begun inside =>
      have hsame := (chunk_unique hp inside).2
      omega
  | aside _ apart => exact apart _ hdatabase

-- No file is in the way to a chunk.
theorem Laid.clear (h : Laid o next log d) (hid : next ≤ id) :
    ∀ path number, path <+: o.chunkPath ref id → d.node? path ≠ some (.file number) := by
  intro path number hp hnode
  rcases List.prefix_concat_iff.mp hp with rfl | hp
  · have hfree : d.node? (o.chunkPath ref id) = none := h.free hid _ (List.prefix_refl _)
    rw [chunkPath, hnode] at hfree
    cases hfree
  · by_cases hup : path <+: o.directory
    · rw [h.above path hup] at hnode
      cases hnode
    · have hdatabase : o.databasePath ref.database <+: path := by
        rcases List.prefix_concat_iff.mp hp with rfl | hp
        · exact database_prefix_table o ref
        · rcases List.prefix_concat_iff.mp hp with rfl | hp
          · exact List.prefix_refl _
          · exact absurd hp hup
      have hshort := hp.length_le
      rw [length_tablePath] at hshort
      cases h.inside path _ ((directory_prefix_database o _).trans hdatabase)
        (ne_directory hdatabase) hnode with
      | chunk _ begun inside =>
          have hlong := inside.length_le
          rw [length_chunkPath] at hlong
          omega
      | aside _ apart => exact apart _ hdatabase

end StoreOptions

end NestedColumns
