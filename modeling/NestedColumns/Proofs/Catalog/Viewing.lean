import NestedColumns.Proofs.Catalog.Indexed

/-!
# What rosters stand for

A catalog with its indexes stands for a catalog in which databases and tables are found by
looking at all of them. As long as the rosters are consistent, every call does to the one what
it does to the other, and fails when the other does, with the same error; and what is found
by a name is the same.

## Theorems

* `IndexedCatalog.Consistent.databaseNamed?_view`,
  `IndexedCatalog.Consistent.tableNamed?_viewDatabase`: What is found by names.
* `IndexedCatalog.table?_view`: What is found by numbers.
* `IndexedCatalog.Consistent.view_addDatabase`, `IndexedCatalog.Consistent.view_dropDatabase`:
  Changes of the databases.
* `IndexedCatalog.Consistent.view_addTable`, `IndexedCatalog.Consistent.view_dropTable`:
  Changes of the tables.
* `IndexedCatalog.Consistent.view_modifyTable`: A change of one table.
-/

namespace NestedColumns

namespace Roster

variable {κ α : Type} {r : Roster} {key : Nat → κ} {label : Nat → Option (κ × String)}
  {id : Nat} {name : String} {f : Nat → α} {nameOf : α → String}

-- The first object of a name is the one that the index gives, for no other one has the name.
theorem Consistent.find?_named (h : r.Consistent key label)
    (hname : ∀ place k n, label place = some (k, n) → nameOf (f place) = n) (name : String) :
    (r.places.map fun _ place => f place).values.find? (fun a => nameOf a = name) =
      (r.named? name).map f := by
  have hvalues : ∀ a, a ∈ (r.places.map fun _ place => f place).values ↔
      ∃ id place, r.numbered? id = some place ∧ f place = a := by
    intro a
    simp only [IdMap.mem_values, IdMap.find?_map, Option.map_eq_some_iff, numbered?]
  cases hnamed : r.named? name with
  | none =>
      rw [Option.map_none, List.find?_eq_none]
      intro a ha heq
      rcases (hvalues a).mp ha with ⟨id, place, hfound, rfl⟩
      rcases h.indexed id place hfound with ⟨name', hlabel, -⟩
      rw [decide_eq_true_eq, hname place _ _ hlabel] at heq
      rw [heq] at hlabel
      rw [h.named?_eq_some_iff.mpr ⟨id, hfound, hlabel⟩] at hnamed
      cases hnamed
  | some place =>
      rcases h.named?_eq_some_iff.mp hnamed with ⟨id, hfound, hlabel⟩
      refine IdMap.find?_values ((hvalues _).mpr ⟨id, place, hfound, rfl⟩) ?_ fun b hb heq => ?_
      · rw [decide_eq_true_eq]
        exact hname place _ _ hlabel
      · rcases (hvalues b).mp hb with ⟨other, place', hfound', rfl⟩
        rcases h.indexed other place' hfound' with ⟨name', hlabel', -⟩
        rw [decide_eq_true_eq, hname place' _ _ hlabel'] at heq
        rw [heq] at hlabel'
        have hnamed' := h.named?_eq_some_iff.mpr ⟨other, hfound', hlabel'⟩
        rw [hnamed, Option.some.injEq] at hnamed'
        rw [hnamed']

-- A name or a number is taken if something is found by it.
theorem Consistent.taken_iff (h : r.Consistent key label) :
    r.Taken id name ↔ (r.named? name).isSome ∨ (r.numbered? id).isSome := by
  have hsome : (r.named? name).isSome ↔ (r.numbers.find? name).isSome := by
    rw [← not_iff_not, Option.not_isSome_iff_eq_none, Option.not_isSome_iff_eq_none,
      h.named?_eq_none_iff]
  rw [Taken, hsome]

end Roster

namespace IndexedCatalog

variable {c c' : IndexedCatalog} {id place : Nat} {name : String} {d : IndexedDatabase}
  {ref : TableRef}

/-! ### What is found -/

theorem find?_view (c : IndexedCatalog) (id : Nat) :
    c.view.databases.find? id = (c.root.numbered? id).map c.viewDatabase :=
  IdMap.find?_map ..

theorem find?_viewDatabase (c : IndexedCatalog) (place table : Nat) :
    (c.viewDatabase place).tables.find? table =
      ((c.database place).roster.numbered? table).map c.table :=
  IdMap.find?_map ..

/-- The table of two numbers is what is at the place that is found by them. -/
theorem table?_view (c : IndexedCatalog) (ref : TableRef) :
    c.view.table? ref = (c.table? ref).map c.table := by
  rw [Catalog.table?, find?_view, table?]
  cases c.root.numbered? ref.database with
  | none => rfl
  | some place => exact find?_viewDatabase ..

-- Places that are listed are those of databases, which have the number.
theorem Consistent.database_of_numbered (h : c.Consistent) (hfound : c.root.numbered? id = some place) :
    ∃ d, c.databases[place]? = some d ∧ d.id = id := by
  rcases h.root.indexed id place hfound with ⟨name, hlabel, -⟩
  rcases databaseLabel?_eq_some_iff.mp hlabel with ⟨d, hd, hid, -⟩
  exact ⟨d, hd, hid⟩

theorem Consistent.table_of_numbered (h : c.Consistent) (hd : c.databases[place]? = some d)
    {table : Nat} (hfound : d.roster.numbered? id = some table) :
    ∃ t, c.tables[table]? = some t ∧ t.ref = ⟨d.id, id⟩ := by
  rcases (h.databases place d hd).indexed id table hfound with ⟨name, hlabel, -⟩
  rcases tableLabel?_eq_some_iff.mp hlabel with ⟨t, ht, href, -⟩
  exact ⟨t, ht, href⟩

-- The table that is found by numbers has these numbers.
theorem Consistent.ref_of_table? (h : c.Consistent) (hfound : c.table? ref = some place) :
    ∃ t, c.tables[place]? = some t ∧ t.ref = ref := by
  rw [table?, Option.bind_eq_some_iff] at hfound
  rcases hfound with ⟨at', hdatabase, htable⟩
  rcases h.database_of_numbered hdatabase with ⟨d, hd, hid⟩
  rw [database_eq hd] at htable
  rcases h.table_of_numbered hd htable with ⟨t, ht, href⟩
  rw [hid] at href
  exact ⟨t, ht, href⟩

/-- The database of a name is what is at the place that the index gives. -/
theorem Consistent.databaseNamed?_view (h : c.Consistent) (name : String) :
    c.view.databaseNamed? name = (c.root.named? name).map c.viewDatabase := by
  refine h.root.find?_named (fun place k n hlabel => ?_) name
  rcases databaseLabel?_eq_some_iff.mp hlabel with ⟨d, hd, -, hname⟩
  rw [viewDatabase, database_eq hd, hname]

/-- The table of a name is what is at the place that the index gives. -/
theorem Consistent.tableNamed?_viewDatabase (h : c.Consistent) (hd : c.databases[place]? = some d)
    (name : String) : (c.viewDatabase place).tableNamed? name =
      (d.roster.named? name).map c.table := by
  rw [viewDatabase, database_eq hd]
  refine (h.databases place d hd).find?_named (fun table k n hlabel => ?_) name
  rcases tableLabel?_eq_some_iff.mp hlabel with ⟨t, ht, -, hname⟩
  rw [table_eq ht, hname]

-- Databases that are listed under different numbers are at different places.
theorem Consistent.place_ne (h : c.Consistent) {other other' : Nat}
    (hfound : c.root.numbered? id = some place) (hother : c.root.numbered? other = some other')
    (hne : id ≠ other) : place ≠ other' := by
  intro heq
  rcases h.database_of_numbered hfound with ⟨d, hd, hid⟩
  rcases h.database_of_numbered hother with ⟨d', hd', hid'⟩
  rw [← heq, hd, Option.some.injEq] at hd'
  exact hne (by rw [← hid, hd', hid'])

-- A table of a database is the one that is found by some numbers if these are its numbers.
theorem Consistent.place_eq_iff (h : c.Consistent) {at' table other : Nat}
    (hfound : c.table? ref = some place) (hat : c.root.numbered? id = some at')
    (hd : c.databases[at']? = some d) (hlisted : d.roster.numbered? table = some other) :
    place = other ↔ (⟨id, table⟩ : TableRef) = ref := by
  constructor
  · intro heq
    rcases h.database_of_numbered hat with ⟨d', hd', hid⟩
    rw [hd, Option.some.injEq] at hd'
    rcases h.table_of_numbered hd hlisted with ⟨t, ht, href⟩
    rcases h.ref_of_table? hfound with ⟨t', ht', href'⟩
    rw [heq, ht, Option.some.injEq] at ht'
    rw [← href', ← ht', href, hd', hid]
  · intro heq
    rw [← heq, table?, Option.bind_eq_some_iff] at hfound
    rcases hfound with ⟨other', hother, hlisted'⟩
    rw [hat, Option.some.injEq] at hother
    rw [← hother, database_eq hd] at hlisted'
    exact Option.some.inj (hlisted'.symm.trans hlisted)

/-! ### What is changed -/

-- A database is the same if its entry is and its tables are.
theorem viewDatabase_congr (hdatabase : c'.database place = c.database place)
    (htables : ∀ id table, (c.database place).roster.numbered? id = some table →
      c'.table table = c.table table) : c'.viewDatabase place = c.viewDatabase place := by
  simp only [viewDatabase, hdatabase]
  rw [IdMap.map_congr fun id table hfound => htables id table hfound]

-- More databases are no change to the one at a place.
theorem viewDatabase_append (hd : c.databases[place]? = some d) (root : Roster)
    (more : List IndexedDatabase) :
    (⟨root, c.databases ++ more, c.tables⟩ : IndexedCatalog).viewDatabase place =
      c.viewDatabase place := by
  refine viewDatabase_congr ?_ fun _ _ _ => rfl
  rw [database_eq hd]
  exact database_eq (getElem?_append_of_eq_some hd more)

theorem table_append {t : Table} (ht : c.tables[place]? = some t)
    (databases : List IndexedDatabase) (more : List Table) :
    (⟨c.root, databases, c.tables ++ more⟩ : IndexedCatalog).table place = c.table place := by
  rw [table_eq ht]
  exact table_eq (getElem?_append_of_eq_some ht more)

theorem database_setRoster (hd : c.databases[place]? = some d) (r : Roster) :
    (c.setRoster place r).database place = ⟨d.id, d.name, r⟩ := by
  refine database_eq ?_
  rw [getElem?_setRoster, hd, Option.map_some, if_pos rfl]

theorem database_setRoster_of_ne {other : Nat} (hne : place ≠ other) (r : Roster) :
    (c.setRoster place r).database other = c.database other := by
  rw [database, List.getD_eq_getElem?_getD, getElem?_setRoster, database,
    List.getD_eq_getElem?_getD]
  simp only [if_neg hne, Option.map_id']

theorem table_modifyTable {t : Table} {other : Nat} (ht : c.tables[other]? = some t)
    {f : Table → Table} : (c.modifyTable place f).table other = if place = other then f t else t := by
  refine table_eq ?_
  rw [modifyTable, List.getElem?_modify, ht]
  rfl

-- What happened to the database of a number is all that happened.
theorem view_eq_setDatabase (hroot : c'.root = c.root) (hfound : c.root.numbered? id = some place)
    (hid : (c'.viewDatabase place).id = id)
    (hothers : ∀ other at', c.root.numbered? other = some at' → other ≠ id →
      c'.viewDatabase at' = c.viewDatabase at') :
    c'.view = c.view.setDatabase (c'.viewDatabase place) := by
  rw [Catalog.setDatabase, hid]
  show Catalog.mk _ c'.root.next = Catalog.mk _ c.root.next
  rw [hroot]
  refine congrArg (fun databases => Catalog.mk databases c.root.next) ?_
  refine IdMap.ext_find? fun other => ?_
  rw [IdMap.find?_insert, find?_view, IdMap.find?_map]
  show Option.map _ (c.root.numbered? other) = _
  by_cases hother : id = other
  · rw [if_pos hother, ← hother, hfound, Option.map_some]
  · rw [if_neg hother]
    cases hat : c.root.numbered? other with
    | none => rfl
    | some at' => rw [Option.map_some, Option.map_some, hothers other at' hat (Ne.symm hother)]

/-- A database is dropped where the rosters are as it is dropped from the catalog. -/
theorem view_dropDatabase (c : IndexedCatalog) (id : Nat) :
    c.view.dropDatabase id = (c.dropDatabase id).2.map fun place =>
      (c.viewDatabase place, (c.dropDatabase id).1.view) := by
  rw [Catalog.dropDatabase, find?_view]
  rcases c.dropDatabase_cases id with ⟨hnone, hdrop⟩ | ⟨place, hfound, hdrop⟩
  · rw [hdrop, hnone]
    rfl
  · rw [hdrop, hfound]
    simp only [Option.map_some, Except.map, Except.ok.injEq, Prod.mk.injEq, true_and]
    refine congrArg (fun databases => Catalog.mk databases c.root.next) ?_
    refine IdMap.ext_find? fun other => ?_
    rw [IdMap.find?_erase, find?_view, IdMap.find?_map]
    show _ = Option.map _ ((c.root.erase id (c.database place).name).numbered? other)
    rw [Roster.numbered?_erase]
    split
    · rfl
    · rfl

/-- A table is dropped where the rosters are as it is dropped from its database. -/
theorem viewDatabase_dropTable (hd : c.databases[place]? = some d) (id : Nat) :
    (c.viewDatabase place).dropTable id = (c.dropTable place id).2.map fun table =>
      (c.table table, (c.dropTable place id).1.viewDatabase place) := by
  rw [Database.dropTable, find?_viewDatabase, database_eq hd]
  rcases dropTable_cases hd id with ⟨hnone, hdrop⟩ | ⟨table, hfound, hdrop⟩
  · rw [hdrop, hnone]
    rfl
  · rw [hdrop, hfound]
    simp only [Option.map_some, Except.map, Except.ok.injEq, Prod.mk.injEq, true_and]
    rw [viewDatabase, viewDatabase, database_eq hd, database_setRoster hd]
    refine congrArg (fun tables => Database.mk d.id d.name tables d.roster.next) ?_
    refine IdMap.ext_find? fun other => ?_
    rw [IdMap.find?_erase, IdMap.find?_map, IdMap.find?_map]
    show _ = Option.map _ ((d.roster.erase id (c.table table).name).numbered? other)
    rw [Roster.numbered?_erase]
    split
    · rfl
    · rfl

namespace Consistent

/-- A database is added where the rosters are as it is added to the catalog. -/
theorem view_addDatabase (h : c.Consistent) (id : Nat) (name : String) :
    c.view.addDatabase id name =
      (c.addDatabase id name).2.map fun _ => (c.addDatabase id name).1.view := by
  have htaken : (c.view.databaseNamed? name).isSome ∨ (c.view.databases.find? id).isSome ↔
      c.root.Taken id name := by
    rw [h.databaseNamed?_view, find?_view, Option.isSome_map, Option.isSome_map, h.root.taken_iff]
  rw [Catalog.addDatabase]
  rcases c.addDatabase_cases id name with ⟨hin, hadd⟩ | ⟨hfree, hadd⟩
  · rw [hadd, if_pos (htaken.mpr hin)]
    rfl
  · rw [hadd, if_neg fun hin => hfree (htaken.mp hin), Except.map, Except.ok.injEq]
    refine congrArg (fun databases => Catalog.mk databases (max c.root.next (id + 1))) ?_
    refine IdMap.ext_find? fun other => ?_
    rw [IdMap.find?_insert, find?_view, IdMap.find?_map]
    show _ = Option.map _ ((c.root.insert id name c.databases.length).numbered? other)
    rw [Roster.numbered?_insert]
    split
    · rw [Option.map_some, viewDatabase, database_eq List.getElem?_concat_length]
      rfl
    · cases hfound : c.root.numbered? other with
      | none => rfl
      | some place =>
          rcases h.database_of_numbered hfound with ⟨d, hd, -⟩
          rw [Option.map_some, Option.map_some, viewDatabase_append hd]

/-- A table is added where the rosters are as it is added to its database. -/
theorem viewDatabase_addTable (h : c.Consistent) (hd : c.databases[place]? = some d) (id : Nat)
    (name : String) : (c.viewDatabase place).addTable id name =
      (c.addTable place id name).2.map fun _ => (c.addTable place id name).1.viewDatabase place := by
  have htaken : ((c.viewDatabase place).tableNamed? name).isSome ∨
      ((c.viewDatabase place).tables.find? id).isSome ↔ d.roster.Taken id name := by
    rw [h.tableNamed?_viewDatabase hd, find?_viewDatabase, database_eq hd, Option.isSome_map,
      Option.isSome_map, (h.databases place d hd).taken_iff]
  rw [Database.addTable]
  rcases addTable_cases hd id name with ⟨hin, hadd⟩ | ⟨hfree, hadd⟩
  · rw [hadd, if_pos (htaken.mpr hin)]
    rfl
  · rw [hadd, if_neg fun hin => hfree (htaken.mp hin), Except.map, Except.ok.injEq]
    rw [viewDatabase, viewDatabase, database_eq hd]
    simp only
    have hdatabase := database_setRoster hd (d.roster.insert id name c.tables.length)
    rw [show IndexedCatalog.database ⟨c.root, (c.setRoster place (d.roster.insert id name
        c.tables.length)).databases, c.tables ++ [.empty ⟨d.id, id⟩ name]⟩ place =
      ⟨d.id, d.name, d.roster.insert id name c.tables.length⟩ from hdatabase]
    refine congrArg (fun tables =>
      Database.mk d.id d.name tables (max d.roster.next (id + 1))) ?_
    refine IdMap.ext_find? fun other => ?_
    rw [IdMap.find?_insert, IdMap.find?_map, IdMap.find?_map]
    show _ = Option.map _ ((d.roster.insert id name c.tables.length).numbered? other)
    rw [Roster.numbered?_insert]
    split
    · rw [Option.map_some, table_eq List.getElem?_concat_length]
    · show Option.map _ (d.roster.numbered? other) = _
      cases hfound : d.roster.numbered? other with
      | none => rfl
      | some table =>
          rcases h.table_of_numbered hd hfound with ⟨t, ht, -⟩
          rw [Option.map_some, Option.map_some, table_append ht]

/-- With its database the catalog has another table. -/
theorem view_addTable (h : c.Consistent) (hfound : c.root.numbered? id = some place)
    (table : Nat) (name : String) (hok : (c.addTable place table name).2.isOk) :
    (c.addTable place table name).1.view =
      c.view.setDatabase ((c.addTable place table name).1.viewDatabase place) := by
  rcases h.database_of_numbered hfound with ⟨d, hd, hid⟩
  rcases addTable_cases hd table name with ⟨-, hadd⟩ | ⟨-, hadd⟩
  · rw [hadd] at hok
    cases hok
  · rw [hadd]
    refine view_eq_setDatabase rfl hfound ?_ fun other other' hother hne => ?_
    · exact (congrArg IndexedDatabase.id (database_setRoster hd _)).trans hid
    · refine viewDatabase_congr ?_ fun n t hlisted => ?_
      · exact database_setRoster_of_ne (h.place_ne hfound hother (Ne.symm hne)) _
      · rcases h.database_of_numbered hother with ⟨d', hd', -⟩
        rw [database_eq hd'] at hlisted
        rcases h.table_of_numbered hd' hlisted with ⟨t', ht', -⟩
        exact table_append ht' _ _

/-- With its database the catalog has a table less. -/
theorem view_dropTable (h : c.Consistent) (hfound : c.root.numbered? id = some place)
    (table : Nat) (hok : (c.dropTable place table).2.isOk) :
    (c.dropTable place table).1.view =
      c.view.setDatabase ((c.dropTable place table).1.viewDatabase place) := by
  rcases h.database_of_numbered hfound with ⟨d, hd, hid⟩
  rcases dropTable_cases hd table with ⟨-, hdrop⟩ | ⟨_, -, hdrop⟩
  · rw [hdrop] at hok
    cases hok
  · rw [hdrop]
    refine view_eq_setDatabase rfl hfound ?_ fun other other' hother hne => ?_
    · exact (congrArg IndexedDatabase.id (database_setRoster hd _)).trans hid
    · refine viewDatabase_congr ?_ fun _ _ _ => rfl
      exact database_setRoster_of_ne (h.place_ne hfound hother (Ne.symm hne)) _

/-- A table is changed at its place as it is changed under its numbers. -/
theorem view_modifyTable (h : c.Consistent) (hfound : c.table? ref = some place)
    (f : Table → Table) : (c.modifyTable place f).view = c.view.modifyTable ref f := by
  rw [Catalog.modifyTable]
  refine congrArg (fun databases => Catalog.mk databases c.root.next) ?_
  refine IdMap.ext_find? fun id => ?_
  rw [IdMap.find?_modify, find?_view, IdMap.find?_map]
  show Option.map _ (c.root.numbered? id) = _
  cases hat : c.root.numbered? id with
  | none => simp only [Option.map_none, ite_self]
  | some database =>
      rcases h.database_of_numbered hat with ⟨d, hd, hid⟩
      have hchanged : (c.modifyTable place f).viewDatabase database =
          ⟨d.id, d.name, d.roster.places.map fun table t =>
            if (⟨id, table⟩ : TableRef) = ref then f (c.table t) else c.table t,
              d.roster.next⟩ := by
        rw [viewDatabase, show (c.modifyTable place f).database database = d from database_eq hd]
        refine congrArg (fun tables => Database.mk d.id d.name tables d.roster.next) ?_
        refine IdMap.map_congr fun table t hlisted => ?_
        rcases h.table_of_numbered hd hlisted with ⟨t', ht', -⟩
        rw [table_modifyTable ht', table_eq ht']
        simp only [h.place_eq_iff hfound hat hd hlisted]
      rw [Option.map_some, Option.map_some, hchanged]
      have hview : c.viewDatabase database = ⟨d.id, d.name,
          d.roster.places.map fun _ t => c.table t, d.roster.next⟩ := by
        rw [viewDatabase, database_eq hd]
      rw [hview]
      rcases ref with ⟨database', table'⟩
      simp only [TableRef.mk.injEq]
      by_cases hsame : id = database'
      · simp only [hsame, if_true, true_and, Option.map_some, Option.some.injEq,
          Database.mk.injEq, and_true]
        refine IdMap.ext_find? fun table => ?_
        rw [IdMap.find?_modify, IdMap.find?_map, IdMap.find?_map]
        by_cases htable : table = table'
        · simp only [htable, if_true, Option.map_map, Function.comp_def]
        · simp only [htable, if_false]
      · simp only [hsame, false_and, if_false]

end Consistent

end IndexedCatalog

end NestedColumns
