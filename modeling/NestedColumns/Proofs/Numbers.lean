import NestedColumns.Proofs.Registry

/-!
# Numbers are given out once

A new database gets the next number of the catalog, and a new table the next one of its
database. Both numbers only grow, and stay when something is dropped. So no database has the
number of an earlier one, and no table the numbers of an earlier one, whether that is still
there or not: a database that was dropped does not come back, and with it the numbers of its
tables are gone.

## Main definitions

* `Operation.newDatabase?`, `Operation.newTable?`: What an operation makes.
* `Catalog.Numbered`: Numbers in use are below the next ones.
* `Catalog.Given`: Some operations gave out no number twice.
* `Operation.Orderly`: Operations that give out the next numbers.

## Theorems

* `Registry.database_apply`: What a database was before an operation.
* `Catalog.Numbered.applyAll`, `Catalog.Given.applyAll`: Operations one after another.
* `Registry.createDatabase_fits`, `Registry.createTable_fits`, `Registry.dropDatabase_fits`,
  `Registry.onTable_fits`: Operations that fit.
-/

namespace NestedColumns

namespace Operation

/-- The number of the database that an operation makes. -/
def newDatabase? : Operation → Option Nat
  | .createDatabase id _ => some id
  | _ => none

/-- The numbers of the table that an operation makes. -/
def newTable? : Operation → Option TableRef
  | .createTable ref _ => some ref
  | _ => none

/-- The numbers that an operation gives out are the next ones, if not above. -/
structure Next (op : Operation) (c : Catalog) : Prop where
  database : ∀ id, op.newDatabase? = some id → c.nextDatabase ≤ id
  table : ∀ ref, op.newTable? = some ref →
    ∃ d, c.databases.find? ref.database = some d ∧ d.nextTable ≤ ref.table

/-- One operation that gives out the next numbers, or many that give out none. -/
def Orderly (c : Catalog) (ops : List Operation) : Prop :=
  (∃ op, ops = [op] ∧ op.Next c) ∨ ∀ op ∈ ops, op.newDatabase? = none ∧ op.newTable? = none

theorem Next.of_none {op : Operation} (h : op.newDatabase? = none ∧ op.newTable? = none)
    (c : Catalog) : op.Next c where
  database := fun id hid => by
    rw [h.1] at hid
    cases hid
  table := fun ref href => by
    rw [h.2] at href
    cases href

end Operation

namespace Catalog

/-- Numbers in use are below the next ones. -/
structure Numbered (c : Catalog) : Prop where
  sound : c.Sound
  databases : ∀ id d, c.databases.find? id = some d → id < c.nextDatabase
  tables : ∀ id d, c.databases.find? id = some d →
    ∀ table, (d.tables.find? table).isSome = true → table < d.nextTable

/-- The numbers that operations gave out are below the next ones, and no two are the same. -/
structure Given (c : Catalog) (ops : List Operation) : Prop where
  databases : ∀ id ∈ ops.filterMap Operation.newDatabase?, id < c.nextDatabase
  tables : ∀ ref ∈ ops.filterMap Operation.newTable?, ref.database < c.nextDatabase ∧
    ∀ d, c.databases.find? ref.database = some d → ref.table < d.nextTable
  databasesOnce : (ops.filterMap Operation.newDatabase?).Nodup
  tablesOnce : (ops.filterMap Operation.newTable?).Nodup

theorem numbered_empty : empty.Numbered where
  sound := sound_empty
  databases := fun _ _ h => by cases h
  tables := fun _ _ h => by cases h

theorem given_nil (c : Catalog) : c.Given [] where
  databases := fun _ h => absurd h List.not_mem_nil
  tables := fun _ h => absurd h List.not_mem_nil
  databasesOnce := List.nodup_nil
  tablesOnce := List.nodup_nil

end Catalog

namespace Registry

variable {r r' : Registry} {op : Operation} {ops more : List Operation}

theorem nextDatabase_apply (h : r.apply op = .ok r') :
    r.catalog.nextDatabase ≤ r'.catalog.nextDatabase ∧
      ∀ id, op.newDatabase? = some id → id < r'.catalog.nextDatabase := by
  cases applies_of_ok h with
  | @createDatabase new =>
      refine ⟨Nat.le_max_left .., fun id hid => ?_⟩
      rw [Operation.newDatabase?, Option.some.injEq] at hid
      rw [← hid]
      exact Nat.lt_of_lt_of_le (Nat.lt_succ_self new) (Nat.le_max_right ..)
  | dropDatabase | createTable | dropTable | updateSchema | addChunk =>
      exact ⟨Nat.le_refl _, fun id hid => by cases hid⟩

/-- A database with more tables, the numbers of which an operation gave out. -/
structure Later (op : Operation) (d d' : Database) : Prop where
  next : d.nextTable ≤ d'.nextTable
  tables : ∀ table, (d'.tables.find? table).isSome = true →
    (d.tables.find? table).isSome = true ∨ op.newTable? = some ⟨d.id, table⟩
  given : ∀ table, op.newTable? = some ⟨d.id, table⟩ → table < d'.nextTable

-- A database that was not changed, or of which tables were, has given out no number.
theorem Later.of_same {d d' : Database} (hnext : d'.nextTable = d.nextTable)
    (htables : ∀ table, (d'.tables.find? table).isSome = true →
      (d.tables.find? table).isSome = true)
    (hgiven : ∀ table, op.newTable? ≠ some ⟨d.id, table⟩) : Later op d d' where
  next := Nat.le_of_eq hnext.symm
  tables := fun table htable => Or.inl (htables table htable)
  given := fun table htable => absurd htable (hgiven table)

-- A new table has the number that was given out, and the next one is above it.
theorem later_createTable {d : Database} {ref : TableRef} (hid : d.id = ref.database)
    (name : String) :
    Later (.createTable ref name) d ⟨d.id, d.name,
      d.tables.insert ref.table (.empty ⟨d.id, ref.table⟩ name), max d.nextTable (ref.table + 1)⟩ where
  next := Nat.le_max_left ..
  tables := fun table htable => by
    rw [IdMap.find?_insert] at htable
    split at htable
    · next heq =>
      rw [hid, ← heq]
      exact Or.inr rfl
    · exact Or.inl htable
  given := fun table htable => by
    rw [Operation.newTable?, Option.some.injEq] at htable
    rw [htable]
    exact Nat.lt_of_lt_of_le (Nat.lt_succ_self table) (Nat.le_max_right ..)

-- A database is new, or it was there under its number.
theorem database_apply (hs : r.catalog.Sound) (h : r.apply op = .ok r') {id : Nat} {d' : Database}
    (hd' : r'.catalog.databases.find? id = some d') :
    op.newDatabase? = some id ∧ d' = .empty id d'.name ∨
      ∃ d, r.catalog.databases.find? id = some d ∧ Later op d d' := by
  cases applies_of_ok h with
  | createDatabase unnamed free =>
      simp only [IdMap.find?_insert] at hd'
      split at hd'
      · next hid =>
        cases hd'
        exact Or.inl ⟨congrArg some hid, by rw [← hid]; rfl⟩
      · exact Or.inr ⟨d', hd', .of_same rfl (fun _ ht => ht) fun _ ht => by cases ht⟩
  | dropDatabase found =>
      simp only [IdMap.find?_erase] at hd'
      split at hd'
      · cases hd'
      · exact Or.inr ⟨d', hd', .of_same rfl (fun _ ht => ht) fun _ ht => by cases ht⟩
  | @createTable ref name d found unnamed free =>
      have hid := hs.ids _ _ found
      rw [Catalog.find?_setDatabase] at hd'
      split at hd'
      · next hsame =>
        cases hd'
        rw [← hsame]
        exact Or.inr ⟨d, by rw [hid]; exact found, later_createTable hid name⟩
      · next hother =>
        refine Or.inr ⟨d', hd', .of_same rfl (fun _ ht => ht) fun table ht => hother ?_⟩
        rw [Operation.newTable?, Option.some.injEq] at ht
        rw [hid, ht]
        exact hs.ids _ _ hd'
  | @dropTable ref d t found table =>
      rw [Catalog.find?_setDatabase] at hd'
      split at hd'
      · next hsame =>
        cases hd'
        rw [← hsame, hs.ids _ _ found]
        refine Or.inr ⟨d, found, .of_same rfl (fun table htable => ?_) fun _ ht => by cases ht⟩
        simp only [IdMap.find?_erase] at htable
        split at htable
        · cases htable
        · exact htable
      · exact Or.inr ⟨d', hd', .of_same rfl (fun _ ht => ht) fun _ ht => by cases ht⟩
  | updateSchema | addChunk =>
      rcases Catalog.find?_modifyTable hd' with ⟨d, hd, -, hnext, htables⟩
      exact Or.inr ⟨d, hd, .of_same hnext (fun table ht => (htables table).symm.trans ht)
        fun _ ht => by cases ht⟩

end Registry

namespace Catalog

variable {r r' : Registry} {op : Operation} {ops more : List Operation}

theorem Numbered.apply (h : r.catalog.Numbered) (happly : r.apply op = .ok r') :
    r'.catalog.Numbered where
  sound := Registry.sound_apply h.sound happly
  databases := fun id d hd => by
    rcases Registry.nextDatabase_apply happly with ⟨hle, hnew⟩
    rcases Registry.database_apply h.sound happly hd with ⟨hmade, -⟩ | ⟨before, hbefore, -⟩
    · exact hnew id hmade
    · exact Nat.lt_of_lt_of_le (h.databases id before hbefore) hle
  tables := fun id d hd table htable => by
    rcases Registry.database_apply h.sound happly hd with ⟨-, hempty⟩ | ⟨before, hbefore, hlater⟩
    · rw [hempty] at htable
      cases htable
    · rcases hlater.tables table htable with hold | hnew
      · exact Nat.lt_of_lt_of_le (h.tables id before hbefore table hold) hlater.next
      · exact hlater.given table hnew

theorem Numbered.applyAll (h : r.catalog.Numbered) (ops : List Operation) :
    (r.applyAll ops).1.catalog.Numbered :=
  Registry.applyAll_induction (P := fun r => r.catalog.Numbered)
    (fun _ _ _ _ hbefore happly => hbefore.apply happly) h

theorem filterMap_concat {α β : Type} (f : α → Option β) (as : List α) (a : α) :
    (as ++ [a]).filterMap f = as.filterMap f ++ (f a).toList := by
  rw [List.filterMap_append]
  cases h : f a <;> simp only [List.filterMap_cons, h, List.filterMap_nil, Option.toList]

theorem nodup_toList {α : Type} (a : Option α) : a.toList.Nodup := by
  cases a with
  | none => exact List.nodup_nil
  | some a => exact List.pairwise_singleton _ a

-- What was given out is below what comes next, so it differs from what is given out now.
theorem Given.apply (h : r.catalog.Given ops) (hn : r.catalog.Numbered)
    (hnext : op.Next r.catalog) (happly : r.apply op = .ok r') : r'.catalog.Given (ops ++ [op]) := by
  rcases Registry.nextDatabase_apply happly with ⟨hle, hnew⟩
  constructor
  · rw [filterMap_concat]
    intro id hid
    rcases List.mem_append.mp hid with hold | hmade
    · exact Nat.lt_of_lt_of_le (h.databases id hold) hle
    · exact hnew id (Option.mem_toList.mp hmade)
  · rw [filterMap_concat]
    intro ref href
    rcases List.mem_append.mp href with hold | hmade
    · rcases h.tables ref hold with ⟨hlt, hbelow⟩
      refine ⟨Nat.lt_of_lt_of_le hlt hle, fun d hd => ?_⟩
      rcases Registry.database_apply hn.sound happly hd with ⟨hdatabase, -⟩ | ⟨before, hbefore, hlater⟩
      · have hge := hnext.database _ hdatabase
        omega
      · exact Nat.lt_of_lt_of_le (hbelow before hbefore) hlater.next
    · have hmade := Option.mem_toList.mp hmade
      rcases hnext.table ref hmade with ⟨d, hd, -⟩
      refine ⟨Nat.lt_of_lt_of_le (hn.databases _ d hd) hle, fun d' hd' => ?_⟩
      rcases Registry.database_apply hn.sound happly hd' with ⟨hdatabase, -⟩ | ⟨before, hbefore, hlater⟩
      · have hge := hnext.database _ hdatabase
        have hlt := hn.databases _ d hd
        omega
      · refine hlater.given ref.table ?_
        rw [hn.sound.ids _ _ hbefore]
        exact hmade
  · rw [filterMap_concat, List.nodup_append]
    refine ⟨h.databasesOnce, nodup_toList _, fun id hid other hother heq => ?_⟩
    have hlt := h.databases id hid
    have hge := hnext.database other (Option.mem_toList.mp hother)
    omega
  · rw [filterMap_concat, List.nodup_append]
    refine ⟨h.tablesOnce, nodup_toList _, fun ref href other hother heq => ?_⟩
    rcases hnext.table other (Option.mem_toList.mp hother) with ⟨d, hd, hge⟩
    subst heq
    have hlt := (h.tables ref href).2 d hd
    omega

theorem Given.applyAll (h : r.catalog.Given ops) (hn : r.catalog.Numbered)
    (horderly : Operation.Orderly r.catalog more) (hall : r.applyAll more = (r', .ok ())) :
    r'.catalog.Given (ops ++ more) := by
  rcases horderly with ⟨op, rfl, hnext⟩ | hnone
  · have hone : r.applyAll ([] ++ [op]) = (r', .ok ()) := hall
    rcases Registry.applyAll_concat_ok hone with ⟨same, hsame, happly⟩
    rw [Registry.applyAll, Prod.mk.injEq] at hsame
    rw [← hsame.1] at happly
    exact h.apply hn hnext happly
  · induction more generalizing r ops with
    | nil =>
        rw [Registry.applyAll, Prod.mk.injEq] at hall
        rw [List.append_nil, ← hall.1]
        exact h
    | cons op rest ih =>
        rcases Registry.applyAll_cons_eq_ok.mp hall with ⟨after, happly, hothers⟩
        have hone := h.apply hn (.of_none (hnone op List.mem_cons_self) _) happly
        have hrest := ih hone (hn.apply happly) hothers fun other hother =>
          hnone other (List.mem_cons_of_mem _ hother)
        rwa [List.append_assoc, List.singleton_append] at hrest

end Catalog

/-! ### Operations that fit -/

namespace Registry

variable {r : Registry} {name : String}

theorem applyAll_singleton {r' : Registry} {op : Operation} (h : r.apply op = .ok r') :
    r.applyAll [op] = (r', .ok ()) := by
  rw [applyAll_cons_ok h, applyAll]

theorem createDatabase_fits (h : r.catalog.Numbered) (hname : r.catalog.databaseNamed? name = none) :
    ∃ r', r.applyAll [.createDatabase r.catalog.nextDatabase name] = (r', .ok ()) := by
  have hfree : r.catalog.databases.find? r.catalog.nextDatabase = none := by
    rw [Option.eq_none_iff_forall_ne_some]
    exact fun d hd => Nat.lt_irrefl _ (h.databases _ d hd)
  exact ⟨_, applyAll_singleton (Applies.createDatabase hname hfree).apply_eq⟩

theorem createTable_fits (h : r.catalog.Numbered) {id : Nat} {d : Database}
    (hd : r.catalog.databases.find? id = some d) (hname : d.tableNamed? name = none) :
    ∃ r', r.applyAll [.createTable ⟨id, d.nextTable⟩ name] = (r', .ok ()) := by
  have hfree : d.tables.find? d.nextTable = none := by
    rw [← Option.not_isSome_iff_eq_none]
    exact fun hsome => Nat.lt_irrefl _ (h.tables id d hd d.nextTable hsome)
  exact ⟨_, applyAll_singleton (Applies.createTable hd hname hfree).apply_eq⟩

-- Dropping a table leaves its database there.
theorem dropTable_fits {ref : TableRef} {t : Table} (ht : r.catalog.table? ref = some t) :
    ∃ r', r.apply (.dropTable ref) = .ok r' ∧ ∀ id, (r.catalog.databases.find? id).isSome = true →
      (r'.catalog.databases.find? id).isSome = true := by
  rcases Catalog.table?_eq_some.mp ht with ⟨d, hd, hfound⟩
  refine ⟨_, (Applies.dropTable hd hfound).apply_eq, fun id hid => ?_⟩
  rw [Catalog.find?_setDatabase]
  split
  · rfl
  · exact hid

theorem dropDatabase_fits (hs : r.catalog.Sound) {id : Nat} {tables : List Table}
    (hd : (r.catalog.databases.find? id).isSome = true)
    (htables : ∀ t ∈ tables, r.catalog.table? t.ref = some t)
    (hdistinct : (tables.map (·.ref)).Nodup) :
    ∃ r', r.applyAll (tables.map (fun t => Operation.dropTable t.ref) ++ [Operation.dropDatabase id]) =
      (r', .ok ()) := by
  induction tables generalizing r with
  | nil =>
      rcases Option.isSome_iff_exists.mp hd with ⟨d, hd⟩
      exact ⟨_, applyAll_singleton (Applies.dropDatabase hd).apply_eq⟩
  | cons t rest ih =>
      rw [List.map_cons, List.nodup_cons] at hdistinct
      rcases dropTable_fits (htables t List.mem_cons_self) with ⟨after, happly, hstays⟩
      have hrest : ∀ other ∈ rest, after.catalog.table? other.ref = some other := by
        intro other hother
        have hne : other.ref ≠ t.ref := fun heq =>
          hdistinct.1 (heq ▸ List.mem_map_of_mem hother)
        rw [table?_apply hs happly, Operation.onTable, if_neg hne]
        exact htables other (List.mem_cons_of_mem _ hother)
      rw [List.map_cons, List.cons_append, applyAll_cons_ok happly]
      exact ih (sound_apply hs happly) (hstays id hd) hrest hdistinct.2

-- A table takes any schema and any chunks.
theorem onTable_fits (hs : r.catalog.Sound) {ref : TableRef} {ops : List Operation}
    (ht : (r.catalog.table? ref).isSome = true)
    (hops : ∀ op ∈ ops, (∃ schema, op = .updateSchema ref schema) ∨
      ∃ chunk, op = .addChunk ref chunk) : ∃ r', r.applyAll ops = (r', .ok ()) := by
  induction ops generalizing r with
  | nil => exact ⟨r, rfl⟩
  | cons op rest ih =>
      rcases Option.isSome_iff_exists.mp ht with ⟨t, htable⟩
      have hone : ∃ after, r.apply op = .ok after := by
        rcases hops op List.mem_cons_self with ⟨schema, rfl⟩ | ⟨chunk, rfl⟩
        · exact ⟨_, (Applies.updateSchema htable).apply_eq⟩
        · exact ⟨_, (Applies.addChunk htable).apply_eq⟩
      rcases hone with ⟨after, happly⟩
      have hstays : (after.catalog.table? ref).isSome = true := by
        rw [table?_apply hs happly, htable]
        rcases hops op List.mem_cons_self with ⟨schema, rfl⟩ | ⟨chunk, rfl⟩
        · rw [Operation.onTable, if_pos rfl]
          rfl
        · rw [Operation.onTable, if_pos rfl]
          rfl
      rw [applyAll_cons_ok happly]
      exact ih (sound_apply hs happly) hstays fun other hother =>
        hops other (List.mem_cons_of_mem _ hother)

end Registry

end NestedColumns
