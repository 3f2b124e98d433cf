import NestedColumns.Proofs.Catalog.Viewing
import NestedColumns.Proofs.Registry
import NestedColumns.Registry.Indexed

/-!
# The tables that can be worked with

An open store has a map of its tables beside the catalog. Every operation changes both, the
catalog first, and a table is looked up in the map by the numbers that its entry in the catalog
has. The map never has a table that the catalog has not, nor lacks one, and what it refers to
is the entry of the catalog itself, whatever operations are applied and whatever log is
replayed.

## Main definitions

* `IndexedRegistry.Consistent`: The rosters are consistent, and the map agrees with them.
* `IndexedRegistry.Follows`: An operation keeps that, and does what it does to the registry.

## Theorems

* `IndexedRegistry.Consistent.follows`: Every operation does.
* `IndexedRegistry.Consistent.applyAll`: Operations one after another.
* `IndexedRegistry.Consistent.replay`: Replaying a log.
* `IndexedRegistry.Consistent.tableNamed`: What is found by names.
-/

namespace NestedColumns

namespace IndexedCatalog

variable {c : IndexedCatalog} {id place : Nat} {name : String} {d : IndexedDatabase}

-- The tables of a database whose number is known are those of its roster.
theorem table?_of_numbered (hfound : c.root.numbered? id = some place)
    (hd : c.databases[place]? = some d) (table : Nat) :
    c.table? ⟨id, table⟩ = d.roster.numbered? table := by
  rw [table?, hfound, Option.bind_some, database_eq hd]

namespace Consistent

-- A new database has no tables, and the number that it has was nobody's.
theorem table?_addDatabase (h : c.Consistent) (hfree : ¬ c.root.Taken id name) (ref : TableRef) :
    (⟨c.root.insert id name c.databases.length, c.databases ++ [⟨id, name, .empty⟩], c.tables⟩ :
      IndexedCatalog).table? ref = c.table? ref := by
  rw [table?, Roster.numbered?_insert, table?]
  split
  · next hid =>
    rw [← hid, (Roster.not_taken_iff.mp hfree).2, Option.bind_some,
      database_eq List.getElem?_concat_length]
    rfl
  · cases hfound : c.root.numbered? ref.database with
    | none => rfl
    | some place =>
        rcases h.database_of_numbered hfound with ⟨d, hd, -⟩
        rw [Option.bind_some, Option.bind_some, database_eq hd,
          database_eq (getElem?_append_of_eq_some hd _)]

-- With the roster of one database its tables are others.
theorem table?_setRoster (h : c.Consistent) (hfound : c.root.numbered? id = some place)
    (r : Roster) (tables : List Table) (ref : TableRef) :
    (⟨c.root, (c.setRoster place r).databases, tables⟩ : IndexedCatalog).table? ref =
      if ref.database = id then r.numbered? ref.table else c.table? ref := by
  rcases h.database_of_numbered hfound with ⟨d, hd, -⟩
  rw [table?]
  split
  · next hid =>
    rw [hid, hfound, Option.bind_some]
    exact congrArg (fun d => d.roster.numbered? ref.table) (database_setRoster hd r)
  · next hne =>
    rw [table?]
    cases hother : c.root.numbered? ref.database with
    | none => rfl
    | some other =>
        rw [Option.bind_some, Option.bind_some]
        exact congrArg (fun d => d.roster.numbered? ref.table)
          (database_setRoster_of_ne (h.place_ne hfound hother (Ne.symm hne)) r)

-- If only one number of the roster is another's, or nobody's, only that table is another.
theorem table?_setRoster_one (h : c.Consistent) {ref : TableRef}
    (hfound : c.root.numbered? ref.database = some place) (hd : c.databases[place]? = some d)
    {r : Roster} {found : Option Nat}
    (hr : ∀ table, r.numbered? table = if ref.table = table then found else d.roster.numbered? table)
    (tables : List Table) (other : TableRef) :
    (⟨c.root, (c.setRoster place r).databases, tables⟩ : IndexedCatalog).table? other =
      if ref = other then found else c.table? other := by
  rw [h.table?_setRoster hfound, hr]
  rcases ref with ⟨database, table⟩
  rcases other with ⟨database', table'⟩
  simp only [TableRef.mk.injEq]
  by_cases hsame : database = database'
  · subst hsame
    rw [table?_of_numbered hfound hd]
    simp only [true_and, if_true]
  · simp only [hsame, Ne.symm hsame, false_and, if_false]

end Consistent

end IndexedCatalog

namespace IndexedRegistry

variable {r r' : IndexedRegistry} {op : Operation}

/-- The rosters are consistent, and the map has the tables of the catalog, at their places. -/
structure Consistent (r : IndexedRegistry) : Prop where
  catalog : r.catalog.Consistent
  stored : ∀ ref, r.stored.find? ref = r.catalog.table? ref

/-- An operation keeps a registry consistent, does what it does to the registry that it
    stands for, and changes nothing if it fails. -/
structure Follows (r : IndexedRegistry) (op : Operation) : Prop where
  consistent : (r.apply op).1.Consistent
  view : r.view.apply op = (r.apply op).2.map fun _ => (r.apply op).1.view
  unchanged : ∀ e, (r.apply op).2 = .error e → (r.apply op).1 = r

theorem consistent_empty : empty.Consistent where
  catalog := IndexedCatalog.consistent_empty
  stored := fun _ => rfl

-- An operation that fails where the other one does, and changes nothing.
theorem Follows.of_error (h : r.Consistent) {e : CatalogError}
    (happly : r.apply op = (r, .error e)) (hview : r.view.apply op = .error e) :
    r.Follows op where
  consistent := by
    rw [happly]
    exact h
  view := by
    rw [happly, hview]
    rfl
  unchanged := fun _ _ => by rw [happly]

theorem Follows.of_ok (r' : IndexedRegistry) (happly : r.apply op = (r', .ok ())) (h : r'.Consistent)
    (hview : r.view.apply op = .ok r'.view) : r.Follows op where
  consistent := by
    rw [happly]
    exact h
  view := by
    rw [happly, hview]
    rfl
  unchanged := fun e he => by
    rw [happly] at he
    cases he

/-! ### The operations -/

-- What is erased for a dropped database are its tables.
theorem find?_withoutTables (c : IndexedCatalog) (stored : KeyMap TableRef Nat)
    (places : List Nat) (ref : TableRef) :
    (withoutTables c stored places).find? ref =
      if ref ∈ places.map fun place => (c.table place).ref then none else stored.find? ref := by
  induction places generalizing stored with
  | nil => rfl
  | cons place rest ih =>
      rw [withoutTables, List.foldl_cons, ← withoutTables, ih, KeyMap.find?_erase, List.map_cons]
      by_cases hrest : ref ∈ rest.map fun place => (c.table place).ref
      · rw [if_pos hrest, if_pos (List.mem_cons_of_mem _ hrest)]
      · rw [if_neg hrest]
        simp only [List.mem_cons, hrest, or_false, eq_comm]

namespace Consistent

theorem createDatabase (h : r.Consistent) (id : Nat) (name : String) :
    r.Follows (.createDatabase id name) := by
  have hview := h.catalog.view_addDatabase id name
  have hcatalog := h.catalog.addDatabase id name
  rcases r.catalog.addDatabase_cases id name with ⟨-, hadd⟩ | ⟨hfree, hadd⟩
  · refine .of_error h (e := .duplicated .database name) ?_ ?_
    · rw [apply, IndexedRegistry.createDatabase, hadd]
      rfl
    · rw [Registry.apply, view, hview, hadd]
      rfl
  · rw [hadd] at hcatalog
    refine .of_ok ⟨_, r.stored, r.nextChunk⟩ ?_ ⟨hcatalog, fun ref => ?_⟩ ?_
    · rw [apply, IndexedRegistry.createDatabase, hadd]
      rfl
    · exact (h.stored ref).trans (h.catalog.table?_addDatabase hfree ref).symm
    · rw [Registry.apply, view, hview, hadd]
      rfl

theorem dropDatabase (h : r.Consistent) (id : Nat) : r.Follows (.dropDatabase id) := by
  have hview := r.catalog.view_dropDatabase id
  have hcatalog := h.catalog.dropDatabase id
  rcases r.catalog.dropDatabase_cases id with ⟨-, hdrop⟩ | ⟨place, hfound, hdrop⟩
  · refine .of_error h (e := .notFound .database (toString id)) ?_ ?_
    · rw [apply, IndexedRegistry.dropDatabase, hdrop]
      rfl
    · rw [Registry.apply, view, hview, hdrop]
      rfl
  · rw [hdrop] at hcatalog
    refine .of_ok ⟨_, withoutTables r.catalog r.stored
      (r.catalog.database place).roster.all, r.nextChunk⟩ ?_ ⟨hcatalog, fun ref => ?_⟩ ?_
    · rw [apply, IndexedRegistry.dropDatabase, hdrop]
      rfl
    · rcases h.catalog.database_of_numbered hfound with ⟨d, hd, hid⟩
      rw [find?_withoutTables, IndexedCatalog.database_eq hd, h.stored]
      show _ = Option.bind ((r.catalog.root.erase id _).numbered? ref.database) _
      rw [Roster.numbered?_erase]
      -- The numbers that are erased are those of the tables of the database.
      have hmem : ref ∈ d.roster.all.map (fun place => (r.catalog.table place).ref) ↔
          ref.database = id ∧ (d.roster.numbered? ref.table).isSome := by
        rw [List.mem_map, Option.isSome_iff_exists]
        constructor
        · rintro ⟨table, hin, rfl⟩
          rcases IdMap.mem_values.mp hin with ⟨n, hlisted⟩
          rcases h.catalog.table_of_numbered hd hlisted with ⟨t, ht, href⟩
          rw [IndexedCatalog.table_eq ht, href]
          exact ⟨hid, table, hlisted⟩
        · rintro ⟨heq, table, hlisted⟩
          rcases h.catalog.table_of_numbered hd hlisted with ⟨t, ht, href⟩
          refine ⟨table, IdMap.mem_values.mpr ⟨_, hlisted⟩, ?_⟩
          rw [IndexedCatalog.table_eq ht, href, hid, ← heq]
      by_cases hsame : ref.database = id
      · have htable : r.catalog.table? ref = d.roster.numbered? ref.table := by
          rw [← IndexedCatalog.table?_of_numbered hfound hd, ← hsame]
        rw [if_pos hsame.symm, Option.bind_none, htable]
        simp only [hmem, hsame, true_and]
        cases d.roster.numbered? ref.table <;> rfl
      · rw [if_neg fun hin => hsame (hmem.mp hin).1, if_neg (Ne.symm hsame)]
        rfl
    · rw [Registry.apply, view, hview, hdrop]
      rfl

theorem createTable (h : r.Consistent) (ref : TableRef) (name : String) :
    r.Follows (.createTable ref name) := by
  cases hfound : r.catalog.root.numbered? ref.database with
  | none =>
      refine .of_error h (e := .notFound .database (toString ref.database)) ?_ ?_
      · rw [apply, IndexedRegistry.createTable, hfound]
      · rw [Registry.apply, view, IndexedCatalog.find?_view, hfound]
        rfl
  | some place =>
      rcases h.catalog.database_of_numbered hfound with ⟨d, hd, hid⟩
      have hview := h.catalog.viewDatabase_addTable hd ref.table name
      have hset := h.catalog.view_addTable hfound ref.table name
      have hcatalog := h.catalog.addTable place ref.table name
      rcases IndexedCatalog.addTable_cases hd ref.table name with ⟨-, hadd⟩ | ⟨-, hadd⟩
      · refine .of_error h (e := .duplicated .table name) ?_ ?_
        · rw [apply, IndexedRegistry.createTable, hfound]
          simp only [hadd]
          rfl
        · rw [Registry.apply, view, IndexedCatalog.find?_view, hfound]
          simp only [Option.map_some, hview, hadd]
          rfl
      · rw [hadd] at hcatalog hset
        refine .of_ok ⟨_, r.stored.insert ref r.catalog.tables.length, r.nextChunk⟩ ?_
          ⟨hcatalog, fun other => ?_⟩ ?_
        · rw [apply, IndexedRegistry.createTable, hfound]
          simp only [hadd]
        · rw [KeyMap.find?_insert, h.stored]
          exact (h.catalog.table?_setRoster_one hfound hd
            (Roster.numbered?_insert _ _ _ _) _ other).symm
        · rw [Registry.apply, view, IndexedCatalog.find?_view, hfound]
          simp only [Option.map_some, hview, hadd]
          exact congrArg (fun c => Except.ok (Registry.mk c r.nextChunk)) (hset rfl).symm

theorem dropTable (h : r.Consistent) (ref : TableRef) : r.Follows (.dropTable ref) := by
  cases hfound : r.catalog.root.numbered? ref.database with
  | none =>
      refine .of_error h (e := .notFound .database (toString ref.database)) ?_ ?_
      · rw [apply, IndexedRegistry.dropTable, hfound]
      · rw [Registry.apply, view, IndexedCatalog.find?_view, hfound]
        rfl
  | some place =>
      rcases h.catalog.database_of_numbered hfound with ⟨d, hd, hid⟩
      have hview := IndexedCatalog.viewDatabase_dropTable hd ref.table
      have hset := h.catalog.view_dropTable hfound ref.table
      have hcatalog := h.catalog.dropTable place ref.table
      rcases IndexedCatalog.dropTable_cases hd ref.table with ⟨-, hdrop⟩ | ⟨table, -, hdrop⟩
      · refine .of_error h (e := .notFound .table (toString ref.table)) ?_ ?_
        · rw [apply, IndexedRegistry.dropTable, hfound]
          simp only [hdrop]
          rfl
        · rw [Registry.apply, view, IndexedCatalog.find?_view, hfound]
          simp only [Option.map_some, hview, hdrop]
          rfl
      · rw [hdrop] at hcatalog hset
        refine .of_ok ⟨_, r.stored.erase ref, r.nextChunk⟩ ?_
          ⟨hcatalog, fun other => ?_⟩ ?_
        · rw [apply, IndexedRegistry.dropTable, hfound]
          simp only [hdrop]
        · rw [KeyMap.find?_erase, h.stored]
          exact (h.catalog.table?_setRoster_one hfound hd
            (Roster.numbered?_erase _ _ _) r.catalog.tables other).symm
        · rw [Registry.apply, view, IndexedCatalog.find?_view, hfound]
          simp only [Option.map_some, hview, hdrop]
          exact congrArg (fun c => Except.ok (Registry.mk c r.nextChunk)) (hset rfl).symm

-- A table is changed where the map says that it is.
theorem onTable (h : r.Consistent) {ref : TableRef} (f : Table → Table) {next : Nat}
    (hf : ∀ t, (f t).ref = t.ref ∧ (f t).name = t.name)
    (happly : r.apply op = r.onTable ref (·.modifyTable · f) next)
    (hview : r.view.apply op = match r.view.catalog.table? ref with
      | none => .error (.notFound .table ref.display)
      | some _ => .ok ⟨r.view.catalog.modifyTable ref f, next⟩) : r.Follows op := by
  have htable : r.view.catalog.table? ref = (r.catalog.table? ref).map r.catalog.table :=
    r.catalog.table?_view ref
  rw [IndexedRegistry.onTable, tableOf, h.stored] at happly
  rw [htable] at hview
  cases hfound : r.catalog.table? ref with
  | none =>
      rw [hfound] at happly hview
      exact .of_error h happly hview
  | some place =>
      rw [hfound] at happly hview
      refine .of_ok _ happly ⟨h.catalog.modifyTable place hf, h.stored⟩ (hview.trans ?_)
      exact congrArg (fun c => Except.ok (Registry.mk c next))
        (h.catalog.view_modifyTable hfound f).symm

/-- Every operation keeps a registry consistent, and does what it does to the registry that it
    stands for. -/
theorem follows (h : r.Consistent) (op : Operation) : r.Follows op := by
  cases op with
  | createDatabase id name => exact h.createDatabase id name
  | dropDatabase id => exact h.dropDatabase id
  | createTable ref name => exact h.createTable ref name
  | dropTable ref => exact h.dropTable ref
  | updateSchema ref schema =>
      exact h.onTable (fun t => ⟨t.ref, t.name, schema, t.chunks⟩) (fun _ => ⟨rfl, rfl⟩) rfl rfl
  | addChunk ref chunk =>
      exact h.onTable (fun t => ⟨t.ref, t.name, t.schema, t.chunks ++ [chunk]⟩)
        (fun _ => ⟨rfl, rfl⟩) rfl rfl

/-! ### Operations one after another -/

theorem applyAll (h : r.Consistent) (ops : List Operation) :
    (r.applyAll ops).1.Consistent ∧
      r.view.applyAll ops = ((r.applyAll ops).1.view, (r.applyAll ops).2) := by
  induction ops generalizing r with
  | nil => exact ⟨h, rfl⟩
  | cons op rest ih =>
      have hop := h.follows op
      have hconsistent := hop.consistent
      have hview := hop.view
      rw [IndexedRegistry.applyAll, Registry.applyAll, hview]
      cases happly : r.apply op with
      | mk after result =>
          cases result with
          | error e =>
              have hsame := hop.unchanged e (by rw [happly])
              rw [happly] at hsame
              simp only at hsame
              rw [hsame]
              exact ⟨h, rfl⟩
          | ok _ =>
              rw [happly] at hconsistent
              exact ih hconsistent

-- Whether an operation is stale is decided by the map, and by the catalog.
theorem isStale_view (h : r.Consistent) (op : Operation) : r.view.isStale op = r.isStale op := by
  have htable : ∀ ref, (r.view.catalog.table? ref).isNone = !(r.tableOf ref).isOk := by
    intro ref
    rw [view, IndexedCatalog.table?_view, tableOf, h.stored]
    cases r.catalog.table? ref <;> rfl
  cases op with
  | updateSchema ref schema => exact htable ref
  | addChunk ref chunk => exact htable ref
  | _ => rfl

/-- A log is replayed as it is for the registry that this one stands for. -/
theorem replay (h : r.Consistent) (ops : List Operation) :
    (r.replay ops).1.Consistent ∧
      ops.foldlM Registry.replayOne r.view =
        (r.replay ops).2.map fun _ => (r.replay ops).1.view := by
  induction ops generalizing r with
  | nil => exact ⟨h, rfl⟩
  | cons op rest ih =>
      rw [IndexedRegistry.replay, List.foldlM_cons, Registry.replayOne, h.isStale_view]
      cases hstale : r.isStale op with
      | true => exact ih h
      | false =>
          have hop := h.follows op
          have hconsistent := hop.consistent
          rw [if_neg Bool.false_ne_true, if_neg Bool.false_ne_true, hop.view]
          cases happly : r.apply op with
          | mk after result =>
              rw [happly] at hconsistent
              cases result with
              | error e => exact ⟨hconsistent, rfl⟩
              | ok _ => exact ih hconsistent

/-- What is found by names is what the catalog has under these names. The last step, from the
    numbers of the table to the table in the map, never fails. -/
theorem tableNamed (h : r.Consistent) (database table : String) :
    (r.tableNamed database table).map r.catalog.table =
      match r.view.catalog.databaseNamed? database with
      | none => .error (.notFound .database database)
      | some d =>
        match d.tableNamed? table with
        | none => .error (.notFound .table table)
        | some t => .ok t := by
  rw [IndexedRegistry.tableNamed, view, h.catalog.databaseNamed?_view]
  cases hdatabase : r.catalog.root.named? database with
  | none => rfl
  | some place =>
      rcases h.catalog.root.named?_eq_some_iff.mp hdatabase with ⟨id, hfound, -⟩
      rcases h.catalog.database_of_numbered hfound with ⟨d, hd, hid⟩
      simp only [Option.map_some, h.catalog.tableNamed?_viewDatabase hd,
        IndexedCatalog.database_eq hd]
      cases htable : d.roster.named? table with
      | none => rfl
      | some t =>
          rcases (h.catalog.databases place d hd).named?_eq_some_iff.mp htable with ⟨n, hlisted, -⟩
          rcases h.catalog.table_of_numbered hd hlisted with ⟨t', ht', href⟩
          have hstored : r.stored.find? t'.ref = some t := by
            rw [h.stored, href, hid, IndexedCatalog.table?_of_numbered hfound hd, hlisted]
          simp only [Option.map_some, tableOf, IndexedCatalog.table_eq ht', hstored, Except.map]

end Consistent

end IndexedRegistry

end NestedColumns
