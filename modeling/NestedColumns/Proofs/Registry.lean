import NestedColumns.Proofs.IdMap
import NestedColumns.Proofs.Outcome
import NestedColumns.Registry

/-!
# What operations do to tables

An operation that fits changes one table, or drops some, and leaves all others alone.
What becomes of a table is therefore a function of the operation and of the table
alone, whatever else is in the catalog.

## Main definitions

* `Catalog.Sound`: Databases and tables are found under their own numbers.
* `Operation.onTable`: What an operation makes of a table.
* `Operation.chunksFrom`: The number of the next chunk after operations.
* `Registry.Applies`: All that one operation does to a registry.
* `Registry.Replaced`, `Registry.Adds`, `Registry.Drops`: What operations do to its tables.

## Theorems

* `Registry.applies_of_ok`: What an operation that was applied has found and changed.
* `Registry.table?_apply`: A table after an operation.
* `Registry.applyAll_induction`, `Registry.replay_induction`: What each operation preserves.
* `Registry.applyAll_addChunks`: Chunks are added in order.
* `Registry.replay_append`: What was applied is applied again when it is replayed.
-/

namespace NestedColumns

namespace Catalog

/-- Databases and tables are found under their own numbers. -/
structure Sound (c : Catalog) : Prop where
  ids : ∀ id d, c.databases.find? id = some d → d.id = id
  refs : ∀ ref t, c.table? ref = some t → t.ref = ref

theorem sound_empty : empty.Sound where
  ids := fun _ _ h => by cases h
  refs := fun _ _ h => by cases h

theorem table?_eq_some {c : Catalog} {ref : TableRef} {t : Table} :
    c.table? ref = some t ↔
      ∃ d, c.databases.find? ref.database = some d ∧ d.tables.find? ref.table = some t := by
  rw [table?, Option.bind_eq_some_iff]

theorem find?_setDatabase (c : Catalog) (d : Database) (id : Nat) :
    (c.setDatabase d).databases.find? id =
      if d.id = id then some d else c.databases.find? id := by
  rw [setDatabase, IdMap.find?_insert]

theorem table?_setDatabase (c : Catalog) (d : Database) (ref : TableRef) :
    (c.setDatabase d).table? ref =
      if d.id = ref.database then d.tables.find? ref.table else c.table? ref := by
  rw [table?, find?_setDatabase, table?]
  by_cases h : d.id = ref.database
  · rw [if_pos h, if_pos h, Option.bind_some]
  · rw [if_neg h, if_neg h]

-- A database keeps its number and that of its next table when a table of it is changed, and
-- no table is gone.
theorem find?_modifyTable {c : Catalog} {ref : TableRef} {f : Table → Table} {id : Nat}
    {d' : Database} (h : (c.modifyTable ref f).databases.find? id = some d') :
    ∃ d, c.databases.find? id = some d ∧ d'.id = d.id ∧ d'.nextTable = d.nextTable ∧
      ∀ table, (d'.tables.find? table).isSome = (d.tables.find? table).isSome := by
  rw [modifyTable, IdMap.find?_modify] at h
  split at h
  · rcases Option.map_eq_some_iff.mp h with ⟨d, hd, rfl⟩
    refine ⟨d, hd, rfl, rfl, fun table => ?_⟩
    rw [IdMap.find?_modify]
    split
    · rw [Option.isSome_map]
    · rfl
  · exact ⟨d', h, rfl, rfl, fun _ => rfl⟩

theorem table?_modifyTable (c : Catalog) (ref : TableRef) (f : Table → Table) (other : TableRef) :
    (c.modifyTable ref f).table? other =
      if other = ref then (c.table? other).map f else c.table? other := by
  rcases ref with ⟨database, table⟩
  rcases other with ⟨database', table'⟩
  simp only [table?, modifyTable, IdMap.find?_modify, TableRef.mk.injEq]
  by_cases hd : database' = database
  · rw [if_pos hd]
    cases c.databases.find? database' with
    | none => simp only [Option.map_none, Option.bind_none, ite_self]
    | some d =>
        simp only [Option.map_some, Option.bind_some, IdMap.find?_modify, hd, true_and]
  · rw [if_neg hd]
    simp only [hd, false_and, if_false]

theorem Sound.find?_of_named {c : Catalog} (hs : c.Sound) {name : String} {d : Database}
    (h : c.databaseNamed? name = some d) : c.databases.find? d.id = some d := by
  rcases List.mem_map.mp (List.mem_of_find?_eq_some h) with ⟨⟨id, d'⟩, hentry, rfl⟩
  have hfound : c.databases.find? id = some d' := IdMap.find?_eq_some_iff.mpr hentry
  rw [hs.ids id d' hfound, hfound]

-- A table that is found by its names is found by its numbers.
theorem Sound.table?_of_named {c : Catalog} (hs : c.Sound) {database name : String}
    {d : Database} {t : Table} (hd : c.databaseNamed? database = some d)
    (ht : d.tableNamed? name = some t) : c.table? t.ref = some t := by
  rcases List.mem_map.mp (List.mem_of_find?_eq_some ht) with ⟨⟨table, t'⟩, hentry, rfl⟩
  have hfound : c.table? ⟨d.id, table⟩ = some t' :=
    table?_eq_some.mpr ⟨d, hs.find?_of_named hd, IdMap.find?_eq_some_iff.mpr hentry⟩
  rw [hs.refs _ _ hfound, hfound]

end Catalog

/-- What an operation makes of a table. -/
def Operation.onTable (op : Operation) (ref : TableRef) (t : Option Table) : Option Table :=
  match op with
  | .createDatabase _ _ => t
  | .dropDatabase id => if ref.database = id then none else t
  | .createTable new name => if ref = new then some (.empty new name) else t
  | .dropTable old => if ref = old then none else t
  | .updateSchema own schema =>
    if ref = own then t.map fun t => ⟨t.ref, t.name, schema, t.chunks⟩ else t
  | .addChunk own chunk =>
    if ref = own then t.map fun t => ⟨t.ref, t.name, t.schema, t.chunks ++ [chunk]⟩ else t

/-- The number of the next chunk after an operation. -/
def Operation.onNextChunk (op : Operation) (next : Nat) : Nat :=
  match op with
  | .addChunk _ chunk => max next (chunk.chunk + 1)
  | _ => next

/-- The number of the next chunk after operations one after another. -/
def Operation.chunksFrom (next : Nat) (ops : List Operation) : Nat :=
  ops.foldl (fun next op => op.onNextChunk next) next

namespace Operation

theorem le_onNextChunk (op : Operation) (next : Nat) : next ≤ op.onNextChunk next := by
  cases op with
  | addChunk ref chunk => exact Nat.le_max_left ..
  | _ => exact Nat.le_refl _

theorem le_chunksFrom (next : Nat) (ops : List Operation) : next ≤ chunksFrom next ops := by
  induction ops generalizing next with
  | nil => exact Nat.le_refl _
  | cons op rest ih => exact Nat.le_trans (op.le_onNextChunk next) (ih _)

-- The next number is above those of all chunks that were added.
theorem lt_chunksFrom {ops : List Operation} {ref : TableRef} {chunk : ChunkInfo}
    (h : .addChunk ref chunk ∈ ops) (next : Nat) : chunk.chunk < chunksFrom next ops := by
  induction ops generalizing next with
  | nil => exact absurd h List.not_mem_nil
  | cons op rest ih =>
      rcases List.mem_cons.mp h with rfl | hrest
      · have hle := le_chunksFrom ((Operation.addChunk ref chunk).onNextChunk next) rest
        exact Nat.lt_of_lt_of_le
          (Nat.lt_of_lt_of_le (Nat.lt_succ_self _) (Nat.le_max_right ..)) hle
      · exact ih hrest _

end Operation

namespace Registry

variable {r r' : Registry} {op : Operation}

/-- What an operation that can be applied finds in the catalog, and all that it changes. -/
inductive Applies (r : Registry) : Operation → Registry → Prop where
  | createDatabase {id : Nat} {name : String} (unnamed : r.catalog.databaseNamed? name = none)
      (free : r.catalog.databases.find? id = none) :
      Applies r (.createDatabase id name)
        ⟨⟨r.catalog.databases.insert id (.empty id name), max r.catalog.nextDatabase (id + 1)⟩,
          r.nextChunk⟩
  | dropDatabase {id : Nat} {d : Database} (found : r.catalog.databases.find? id = some d) :
      Applies r (.dropDatabase id)
        ⟨⟨r.catalog.databases.erase id, r.catalog.nextDatabase⟩, r.nextChunk⟩
  | createTable {ref : TableRef} {name : String} {d : Database}
      (found : r.catalog.databases.find? ref.database = some d)
      (unnamed : d.tableNamed? name = none) (free : d.tables.find? ref.table = none) :
      Applies r (.createTable ref name)
        ⟨r.catalog.setDatabase ⟨d.id, d.name,
          d.tables.insert ref.table (.empty ⟨d.id, ref.table⟩ name), max d.nextTable (ref.table + 1)⟩,
          r.nextChunk⟩
  | dropTable {ref : TableRef} {d : Database} {t : Table}
      (found : r.catalog.databases.find? ref.database = some d)
      (table : d.tables.find? ref.table = some t) :
      Applies r (.dropTable ref)
        ⟨r.catalog.setDatabase ⟨d.id, d.name, d.tables.erase ref.table, d.nextTable⟩, r.nextChunk⟩
  | updateSchema {ref : TableRef} {schema : Schema} {t : Table}
      (found : r.catalog.table? ref = some t) :
      Applies r (.updateSchema ref schema) ⟨r.catalog.updateSchema ref schema, r.nextChunk⟩
  | addChunk {ref : TableRef} {chunk : ChunkInfo} {t : Table}
      (found : r.catalog.table? ref = some t) :
      Applies r (.addChunk ref chunk)
        ⟨r.catalog.addChunk ref chunk, max r.nextChunk (chunk.chunk + 1)⟩

theorem Applies.apply_eq (h : Applies r op r') : r.apply op = .ok r' := by
  cases h with
  | createDatabase unnamed free => simp [apply, Catalog.addDatabase, unnamed, free, Except.map]
  | dropDatabase found => simp only [apply, Catalog.dropDatabase, found, Except.map]
  | createTable found unnamed free =>
      simp [apply, found, Database.addTable, unnamed, free, Except.map]
  | dropTable found table => simp only [apply, found, Database.dropTable, table, Except.map]
  | updateSchema found | addChunk found => simp only [apply, found]

-- The one place where the operations are looked into case by case.
theorem applies_of_ok (h : r.apply op = .ok r') : Applies r op r' := by
  cases op with
  | createDatabase id name =>
      rcases Outcome.map_eq_ok.mp h with ⟨c, hc, rfl⟩
      rw [Catalog.addDatabase] at hc
      split at hc
      · cases hc
      · next hnew =>
        rw [not_or, Option.not_isSome_iff_eq_none, Option.not_isSome_iff_eq_none] at hnew
        cases hc
        exact .createDatabase hnew.1 hnew.2
  | dropDatabase id =>
      rcases Outcome.map_eq_ok.mp h with ⟨⟨d, c⟩, hc, rfl⟩
      rw [Catalog.dropDatabase] at hc
      split at hc
      · cases hc
      · next found =>
        cases hc
        exact .dropDatabase found
  | createTable ref name =>
      rw [apply] at h
      split at h
      · cases h
      · next d found =>
        rcases Outcome.map_eq_ok.mp h with ⟨d', hd', rfl⟩
        rw [Database.addTable] at hd'
        split at hd'
        · cases hd'
        · next hnew =>
          rw [not_or, Option.not_isSome_iff_eq_none, Option.not_isSome_iff_eq_none] at hnew
          cases hd'
          exact .createTable found hnew.1 hnew.2
  | dropTable ref =>
      rw [apply] at h
      split at h
      · cases h
      · next d found =>
        rcases Outcome.map_eq_ok.mp h with ⟨⟨t, d'⟩, hd', rfl⟩
        rw [Database.dropTable] at hd'
        split at hd'
        · cases hd'
        · next table =>
          cases hd'
          exact .dropTable found table
  | updateSchema ref schema =>
      rw [apply] at h
      split at h
      · cases h
      · next found =>
        cases h
        exact .updateSchema found
  | addChunk ref chunk =>
      rw [apply] at h
      split at h
      · cases h
      · next found =>
        cases h
        exact .addChunk found

-- A table of a new database is none, and one of a dropped database is gone; in all other
-- cases one table of one database changes.
theorem table?_apply (hs : r.catalog.Sound) (h : r.apply op = .ok r') (ref : TableRef) :
    r'.catalog.table? ref = op.onTable ref (r.catalog.table? ref) := by
  cases applies_of_ok h with
  | @createDatabase id name unnamed free =>
      rw [Operation.onTable, Catalog.table?, IdMap.find?_insert, Catalog.table?]
      by_cases hid : id = ref.database
      · rw [if_pos hid, ← hid, free]
        rfl
      · rw [if_neg hid]
  | @dropDatabase id d found =>
      rw [Operation.onTable, Catalog.table?, IdMap.find?_erase, Catalog.table?]
      by_cases hid : id = ref.database
      · rw [if_pos hid, if_pos hid.symm, Option.bind_none]
      · rw [if_neg hid, if_neg (Ne.symm hid)]
  | @createTable new name d found unnamed free =>
      have hid := hs.ids _ _ found
      rw [Operation.onTable, Catalog.table?_setDatabase, hid]
      rcases ref with ⟨database, table⟩
      rcases new with ⟨database', table'⟩
      simp only [TableRef.mk.injEq, IdMap.find?_insert, Catalog.table?]
      by_cases hdatabase : database' = database
      · subst hdatabase
        simp only [if_true, true_and, eq_comm, found, Option.bind_some]
      · rw [if_neg hdatabase, if_neg fun h => hdatabase h.1.symm]
  | @dropTable old d t found table =>
      have hid := hs.ids _ _ found
      rw [Operation.onTable, Catalog.table?_setDatabase, hid]
      rcases ref with ⟨database, table⟩
      rcases old with ⟨database', table'⟩
      simp only [TableRef.mk.injEq, IdMap.find?_erase, Catalog.table?]
      by_cases hdatabase : database' = database
      · subst hdatabase
        simp only [if_true, true_and, eq_comm, found, Option.bind_some]
      · rw [if_neg hdatabase, if_neg fun h => hdatabase h.1.symm]
  | updateSchema | addChunk => exact Catalog.table?_modifyTable ..

theorem nextChunk_apply (h : r.apply op = .ok r') :
    r'.nextChunk = op.onNextChunk r.nextChunk := by
  cases applies_of_ok h <;> rfl

-- A database that is changed keeps its number, and a new one is listed under its own.
theorem sound_apply (hs : r.catalog.Sound) (h : r.apply op = .ok r') : r'.catalog.Sound where
  ids := by
    intro id d hd
    cases applies_of_ok h with
    | @createDatabase new name unnamed free =>
        simp only [IdMap.find?_insert] at hd
        by_cases hid : new = id
        · rw [if_pos hid, Option.some.injEq] at hd
          rw [← hd]
          exact hid
        · rw [if_neg hid] at hd
          exact hs.ids id d hd
    | dropDatabase found =>
        simp only [IdMap.find?_erase] at hd
        split at hd
        · cases hd
        · exact hs.ids id d hd
    | createTable | dropTable =>
        rw [Catalog.find?_setDatabase] at hd
        split at hd
        · next hid =>
          rw [Option.some.injEq] at hd
          rw [← hd, hid]
        · exact hs.ids id d hd
    | updateSchema | addChunk =>
        rcases Catalog.find?_modifyTable hd with ⟨before, hbefore, hid, -⟩
        exact hid.trans (hs.ids id before hbefore)
  refs := by
    intro ref t ht
    rw [table?_apply hs h] at ht
    cases op with
    | createDatabase new name => exact hs.refs ref t ht
    | dropDatabase | dropTable =>
        rw [Operation.onTable] at ht
        split at ht
        · cases ht
        · exact hs.refs ref t ht
    | createTable new name =>
        rw [Operation.onTable] at ht
        split at ht
        · next href =>
          rw [Option.some.injEq] at ht
          rw [← ht, href]
          rfl
        · exact hs.refs ref t ht
    | updateSchema | addChunk =>
        rw [Operation.onTable] at ht
        split at ht
        · rcases Option.map_eq_some_iff.mp ht with ⟨before, hbefore, rfl⟩
          exact hs.refs ref before hbefore
        · exact hs.refs ref t ht

-- The number of a new table is free.
theorem table?_of_createTable {ref : TableRef} {name : String}
    (h : r.apply (.createTable ref name) = .ok r') : r.catalog.table? ref = none := by
  cases applies_of_ok h with
  | createTable found unnamed free => rw [Catalog.table?, found, Option.bind_some, free]

/-! ### Operations one after another -/

theorem applyAll_induction {P : Registry → Prop} {ops : List Operation}
    (hstep : ∀ (r : Registry) (op : Operation) (r' : Registry), op ∈ ops → P r →
      r.apply op = .ok r' → P r') (h : P r) : P (r.applyAll ops).1 := by
  induction ops generalizing r with
  | nil => exact h
  | cons op rest ih =>
      rw [applyAll]
      cases happly : r.apply op with
      | error e => exact h
      | ok after =>
          exact ih (fun r op r' hop => hstep r op r' (List.mem_cons_of_mem _ hop))
            (hstep r op after List.mem_cons_self h happly)

theorem applyAll_cons_ok {rest : List Operation} (h : r.apply op = .ok r') :
    r.applyAll (op :: rest) = r'.applyAll rest := by
  rw [applyAll, h]

theorem applyAll_cons_eq_ok {rest : List Operation} :
    r.applyAll (op :: rest) = (r', .ok ()) ↔
      ∃ r₁, r.apply op = .ok r₁ ∧ r₁.applyAll rest = (r', .ok ()) := by
  rw [applyAll]
  cases r.apply op with
  | error e => simp only [Prod.mk.injEq, reduceCtorEq, and_false, false_and, exists_false]
  | ok r₁ => simp only [Except.ok.injEq, exists_eq_left']

/-- A registry with another table in place of the one of its numbers. -/
structure Replaced (r r' : Registry) (ref : TableRef) (t : Table) : Prop where
  sound : r'.catalog.Sound
  nextChunk : r'.nextChunk = r.nextChunk
  table : r'.catalog.table? ref = some t
  others : ∀ other, other ≠ ref → r'.catalog.table? other = r.catalog.table? other

theorem replaced_updateSchema {ref : TableRef} {t : Table} (hs : r.catalog.Sound)
    (ht : r.catalog.table? ref = some t) (schema : Schema) :
    ∃ r', r.apply (.updateSchema ref schema) = .ok r' ∧
      r.Replaced r' ref ⟨t.ref, t.name, schema, t.chunks⟩ := by
  have happly : r.apply (.updateSchema ref schema) = _ := (Applies.updateSchema ht).apply_eq
  refine ⟨_, happly, sound_apply hs happly, rfl, ?_, fun other hne => ?_⟩
  · rw [table?_apply hs happly, Operation.onTable, if_pos rfl, ht, Option.map_some]
  · rw [table?_apply hs happly, Operation.onTable, if_neg hne]

theorem applyAll_addChunks {ref : TableRef} {t : Table} (hs : r.catalog.Sound)
    (ht : r.catalog.table? ref = some t) (chunks : List ChunkInfo)
    (hnext : ∀ c ∈ chunks, c.chunk < r.nextChunk) :
    ∃ r', r.applyAll (chunks.map (.addChunk ref)) = (r', .ok ()) ∧
      r.Replaced r' ref ⟨t.ref, t.name, t.schema, t.chunks ++ chunks⟩ := by
  induction chunks generalizing r t with
  | nil => exact ⟨r, rfl, hs, rfl, by rw [ht, List.append_nil], fun _ _ => rfl⟩
  | cons chunk rest ih =>
      have happly : r.apply (.addChunk ref chunk) = _ := (Applies.addChunk ht).apply_eq
      have hmax : max r.nextChunk (chunk.chunk + 1) = r.nextChunk :=
        Nat.max_eq_left (hnext chunk List.mem_cons_self)
      rw [hmax] at happly
      have hat : (r.catalog.addChunk ref chunk).table? ref =
          some ⟨t.ref, t.name, t.schema, t.chunks ++ [chunk]⟩ := by
        have hafter := table?_apply hs happly ref
        rwa [Operation.onTable, if_pos rfl, ht, Option.map_some] at hafter
      rcases ih (sound_apply hs happly) hat
        fun c hc => hnext c (List.mem_cons_of_mem _ hc) with ⟨r', hall, hsound, hn, htable, hothers⟩
      refine ⟨r', ?_, hsound, hn, ?_, fun other hne => ?_⟩
      · rw [List.map_cons, applyAll_cons_ok happly, hall]
      · rw [htable, List.append_assoc, List.singleton_append]
      · rw [hothers other hne, table?_apply hs happly, Operation.onTable, if_neg hne]

theorem applyAll_concat_ok {ops : List Operation} (h : r.applyAll (ops ++ [op]) = (r', .ok ())) :
    ∃ r₁, r.applyAll ops = (r₁, .ok ()) ∧ r₁.apply op = .ok r' := by
  induction ops generalizing r with
  | nil =>
      rcases applyAll_cons_eq_ok.mp h with ⟨after, happly, hnone⟩
      rw [applyAll, Prod.mk.injEq] at hnone
      exact ⟨r, rfl, hnone.1 ▸ happly⟩
  | cons first rest ih =>
      rcases applyAll_cons_eq_ok.mp h with ⟨after, happly, hrest⟩
      rw [applyAll_cons_ok happly]
      exact ih hrest

/-- A registry with new tables, which are empty, beside those of another one. -/
structure Adds (r r' : Registry) : Prop where
  sound : r'.catalog.Sound
  old : ∀ ref t, r.catalog.table? ref = some t → r'.catalog.table? ref = some t
  new : ∀ ref t, r'.catalog.table? ref = some t → r.catalog.table? ref = some t ∨
    r.catalog.table? ref = none ∧ ∃ name, t = .empty ref name

/-- A registry without some tables of another one. -/
structure Drops (dropped : TableRef → Prop) (r r' : Registry) : Prop where
  sound : r'.catalog.Sound
  rest : ∀ ref, r'.catalog.table? ref = r.catalog.table? ref ∨
    dropped ref ∧ r'.catalog.table? ref = none

variable {r₁ r₂ : Registry} {dropped : TableRef → Prop}

theorem Adds.refl (hs : r.catalog.Sound) : r.Adds r :=
  ⟨hs, fun _ _ ht => ht, fun _ _ ht => Or.inl ht⟩

theorem Adds.createDatabase (h : r.Adds r₁) {id : Nat} {name : String}
    (happly : r₁.apply (.createDatabase id name) = .ok r₂) : r.Adds r₂ := by
  have hsame : ∀ ref, r₂.catalog.table? ref = r₁.catalog.table? ref := fun ref => by
    rw [table?_apply h.sound happly, Operation.onTable]
  refine ⟨sound_apply h.sound happly, fun ref t ht => ?_, fun ref t ht => ?_⟩
  · rw [hsame]
    exact h.old ref t ht
  · rw [hsame] at ht
    exact h.new ref t ht

theorem Adds.createTable (h : r.Adds r₁) {new : TableRef} {name : String}
    (happly : r₁.apply (.createTable new name) = .ok r₂) : r.Adds r₂ := by
  have hfree := table?_of_createTable happly
  have hat := table?_apply h.sound happly
  simp only [Operation.onTable] at hat
  refine ⟨sound_apply h.sound happly, fun ref t ht => ?_, fun ref t ht => ?_⟩
  · have hne : ref ≠ new := fun heq => by
      rw [heq] at ht
      rw [h.old new t ht] at hfree
      cases hfree
    rw [hat, if_neg hne]
    exact h.old ref t ht
  · rw [hat] at ht
    by_cases heq : ref = new
    · rw [if_pos heq, Option.some.injEq] at ht
      refine Or.inr ⟨?_, name, heq ▸ ht.symm⟩
      rw [heq, Option.eq_none_iff_forall_ne_some]
      intro t' ht'
      rw [h.old new t' ht'] at hfree
      cases hfree
    · rw [if_neg heq] at ht
      exact h.new ref t ht

theorem Drops.refl (hs : r.catalog.Sound) : r.Drops dropped r :=
  ⟨hs, fun _ => Or.inl rfl⟩

theorem Drops.dropTable (h : r.Drops dropped r₁) {old : TableRef} (hold : dropped old)
    (happly : r₁.apply (.dropTable old) = .ok r₂) : r.Drops dropped r₂ := by
  have hat := table?_apply h.sound happly
  simp only [Operation.onTable] at hat
  refine ⟨sound_apply h.sound happly, fun ref => ?_⟩
  rw [hat]
  by_cases heq : ref = old
  · rw [if_pos heq]
    exact Or.inr ⟨heq ▸ hold, rfl⟩
  · rw [if_neg heq]
    exact h.rest ref

theorem Drops.dropDatabase (h : r.Drops dropped r₁) {id : Nat}
    (hold : ∀ ref : TableRef, ref.database = id → dropped ref)
    (happly : r₁.apply (.dropDatabase id) = .ok r₂) : r.Drops dropped r₂ := by
  have hat := table?_apply h.sound happly
  simp only [Operation.onTable] at hat
  refine ⟨sound_apply h.sound happly, fun ref => ?_⟩
  rw [hat]
  by_cases heq : ref.database = id
  · rw [if_pos heq]
    exact Or.inr ⟨hold ref heq, rfl⟩
  · rw [if_neg heq]
    exact h.rest ref

theorem sound_applyAll (hs : r.catalog.Sound) (ops : List Operation) :
    (r.applyAll ops).1.catalog.Sound :=
  applyAll_induction (P := fun r => r.catalog.Sound)
    (fun _ _ _ _ hbefore happly => sound_apply hbefore happly) hs

-- What is dropped last is gone.
theorem gone_of_dropTable (hs : r.catalog.Sound) {ops : List Operation} {old : TableRef}
    (h : r.applyAll (ops ++ [.dropTable old]) = (r', .ok ())) : r'.catalog.table? old = none := by
  rcases applyAll_concat_ok h with ⟨r₁, hfirst, happly⟩
  have hsound := sound_applyAll hs ops
  rw [hfirst] at hsound
  have hat := table?_apply hsound happly old
  rwa [Operation.onTable, if_pos rfl] at hat

theorem gone_of_dropDatabase (hs : r.catalog.Sound) {ops : List Operation} {id : Nat}
    (h : r.applyAll (ops ++ [.dropDatabase id]) = (r', .ok ())) (ref : TableRef)
    (href : ref.database = id) : r'.catalog.table? ref = none := by
  rcases applyAll_concat_ok h with ⟨r₁, hfirst, happly⟩
  have hsound := sound_applyAll hs ops
  rw [hfirst] at hsound
  have hat := table?_apply hsound happly ref
  rwa [Operation.onTable, if_pos href] at hat

/-! ### Replaying -/

variable {r₀ : Registry}

-- What each operation of a log preserves, whether it is stale or not.
theorem replay_induction {P : Registry → Prop} {ops : List Operation} (hempty : P empty)
    (hstep : ∀ (r : Registry) (op : Operation) (r' : Registry), P r → r.apply op = .ok r' → P r')
    (h : replay ops = .ok r) : P r := by
  have hfold : ∀ (r₀ : Registry), P r₀ → ops.foldlM replayOne r₀ = .ok r → P r := by
    intro r₀ h₀ hops
    clear h
    induction ops generalizing r₀ with
    | nil =>
        rw [List.foldlM_nil, pure, Except.instMonad] at hops
        exact Except.ok.inj hops ▸ h₀
    | cons op rest ih =>
        rw [List.foldlM_cons] at hops
        rcases Outcome.bind_eq_ok.mp hops with ⟨r₁, hone, hrest⟩
        refine ih r₁ ?_ hrest
        rw [replayOne] at hone
        split at hone
        · exact Except.ok.inj hone ▸ h₀
        · exact hstep r₀ op r₁ h₀ hone
  exact hfold empty hempty h

-- The number of the next chunk decides nothing about the catalog.
theorem apply_of_catalog (h : r.apply op = .ok r') (hsame : r₀.catalog = r.catalog) :
    ∃ r₀', r₀.apply op = .ok r₀' ∧ r₀'.catalog = r'.catalog := by
  rcases r with ⟨c, next⟩
  rcases r₀ with ⟨c₀, next₀⟩
  cases hsame
  have hother : ∃ r₀', Applies ⟨c, next₀⟩ op r₀' ∧ r₀'.catalog = r'.catalog := by
    cases applies_of_ok h with
    | createDatabase unnamed free => exact ⟨_, .createDatabase unnamed free, rfl⟩
    | dropDatabase found => exact ⟨_, .dropDatabase found, rfl⟩
    | createTable found unnamed free => exact ⟨_, .createTable found unnamed free, rfl⟩
    | dropTable found table => exact ⟨_, .dropTable found table, rfl⟩
    | updateSchema found => exact ⟨_, .updateSchema found, rfl⟩
    | addChunk found => exact ⟨_, .addChunk found, rfl⟩
  rcases hother with ⟨r₀', happlies, hcatalog⟩
  exact ⟨r₀', happlies.apply_eq, hcatalog⟩

theorem applyAll_of_catalog {ops : List Operation} (h : r.applyAll ops = (r', .ok ()))
    (hsame : r₀.catalog = r.catalog) :
    ∃ r₀', r₀.applyAll ops = (r₀', .ok ()) ∧ r₀'.catalog = r'.catalog := by
  induction ops generalizing r r₀ with
  | nil =>
      rw [applyAll, Prod.mk.injEq] at h
      exact ⟨r₀, rfl, h.1 ▸ hsame⟩
  | cons op rest ih =>
      rcases applyAll_cons_eq_ok.mp h with ⟨r₁, happly, hrest⟩
      rcases apply_of_catalog happly hsame with ⟨r₂, happly₂, hsame₂⟩
      rw [applyAll_cons_ok happly₂]
      exact ih hrest hsame₂

-- An operation that could be applied is about a table that is there.
theorem isStale_of_apply (h : r.apply op = .ok r') : r.isStale op = false := by
  cases applies_of_ok h with
  | updateSchema found | addChunk found =>
      rw [isStale, found]
      rfl
  | _ => rfl

/-- What was applied to a catalog can be replayed on the same one. -/
theorem replay_of_applyAll {ops : List Operation} (h : r.applyAll ops = (r', .ok ()))
    (hsame : r₀.catalog = r.catalog) :
    ∃ r₀', ops.foldlM replayOne r₀ = .ok r₀' ∧ r₀'.catalog = r'.catalog ∧
      r₀'.nextChunk = Operation.chunksFrom r₀.nextChunk ops := by
  induction ops generalizing r r₀ with
  | nil =>
      rw [applyAll, Prod.mk.injEq] at h
      exact ⟨r₀, rfl, h.1 ▸ hsame, rfl⟩
  | cons op rest ih =>
      rcases applyAll_cons_eq_ok.mp h with ⟨r₁, happly, hothers⟩
      rcases apply_of_catalog happly hsame with ⟨r₂, happly₂, hsame₂⟩
      rcases ih hothers hsame₂ with ⟨r₀', hrest, hlast, hnext⟩
      rw [nextChunk_apply happly₂] at hnext
      refine ⟨r₀', ?_, hlast, hnext⟩
      have hone : replayOne r₀ op = .ok r₂ := by
        rw [replayOne, isStale_of_apply happly₂, if_neg Bool.false_ne_true, happly₂]
      rw [List.foldlM_cons, hone]
      exact hrest

theorem replay_append {before ops : List Operation} (hbefore : replay before = .ok r₀)
    (hsame : r₀.catalog = r.catalog) (h : r.applyAll ops = (r', .ok ())) :
    ∃ r₀', replay (before ++ ops) = .ok r₀' ∧ r₀'.catalog = r'.catalog ∧
      r₀'.nextChunk = Operation.chunksFrom r₀.nextChunk ops := by
  rcases replay_of_applyAll h hsame with ⟨r₀', hops, hlast⟩
  have hfold : before.foldlM replayOne empty = .ok r₀ := hbefore
  refine ⟨r₀', ?_, hlast⟩
  rw [replay, List.foldlM_append, hfold]
  exact hops

end Registry

end NestedColumns
