import NestedColumns.Catalog.Indexed
import NestedColumns.Proofs.IdMap

/-!
# Rosters stay consistent

A roster has the objects by number, and beside them an index of the numbers by name. Objects
are added to both and removed from both, and what is to be removed from the index is known
from the object alone. So the two agree as long as every object is listed under the number
and the name that it says it has. Objects never change either, and this holds for databases
that were dropped as well, which go on having a roster of their own.

## Main definitions

* `Roster.Consistent`: The index and the entries of a roster are inverse to one another.
* `IndexedCatalog.Consistent`: The rosters of a catalog are consistent.
* `Roster.Agrees`, `IndexedCatalog.Agrees`: What callers rely on.
* `CatalogCall`, `IndexedCatalog.run`: Changes of a catalog one after another.
* `IndexedCatalog.succeeded`: Those of them that did not fail.

## Theorems

* `Roster.Consistent.named?_eq_some_iff`, `Roster.Consistent.keys_all`: What is found and listed.
* `IndexedCatalog.call_error`: A call that fails changes nothing.
* `IndexedCatalog.Consistent.run`: Rosters stay consistent.
* `IndexedCatalog.above_run`: The next numbers are above all that were ever added.
* `IndexedCatalog.Within.run`: They are no greater than that takes.
-/

namespace NestedColumns

namespace Roster

variable {κ : Type} {r r' : Roster} {key : Nat → κ} {label label' : Nat → Option (κ × String)}
  {kind : EntryKind} {id place : Nat} {name : String}

/-- The index and the entries are inverse to one another, for objects that are labelled with
    the key that goes with their number, and with their name. -/
structure Consistent (r : Roster) (key : Nat → κ) (label : Nat → Option (κ × String)) : Prop where
  indexed : ∀ id place, r.numbered? id = some place →
    ∃ name, label place = some (key id, name) ∧ r.numbers.find? name = some id
  listed : ∀ name id, r.numbers.find? name = some id →
    ∃ place, r.numbered? id = some place ∧ label place = some (key id, name)
  below : ∀ id place, r.numbered? id = some place → id < r.next

/-- A number or a name is in use. -/
def Taken (r : Roster) (id : Nat) (name : String) : Prop :=
  (r.numbers.find? name).isSome ∨ (r.numbered? id).isSome

theorem not_taken_iff : ¬ r.Taken id name ↔
    r.numbers.find? name = none ∧ r.numbered? id = none := by
  rw [Taken, not_or, Option.not_isSome_iff_eq_none, Option.not_isSome_iff_eq_none]

theorem add_cases (r : Roster) (kind : EntryKind) (id : Nat) (name : String) (place : Nat) :
    r.Taken id name ∧ r.add kind id name place = (r, .error (.duplicated kind name)) ∨
      ¬ r.Taken id name ∧ r.add kind id name place = (r.insert id name place, .ok ()) := by
  rw [add]
  by_cases htaken : r.Taken id name
  · exact Or.inl ⟨htaken, if_pos htaken⟩
  · exact Or.inr ⟨htaken, if_neg htaken⟩

theorem remove_cases (r : Roster) (kind : EntryKind) (id : Nat) (nameAt : Nat → String) :
    r.numbered? id = none ∧
        r.remove kind id nameAt = (r, .error (.notFound kind (toString id))) ∨
      ∃ place, r.numbered? id = some place ∧
        r.remove kind id nameAt = (r.erase id (nameAt place), .ok place) := by
  rw [remove]
  cases hfound : r.numbered? id with
  | none => exact Or.inl ⟨rfl, rfl⟩
  | some place => exact Or.inr ⟨place, rfl, rfl⟩

@[simp] theorem numbered?_insert (r : Roster) (id : Nat) (name : String) (place other : Nat) :
    (r.insert id name place).numbered? other =
      if id = other then some place else r.numbered? other :=
  IdMap.find?_insert ..

@[simp] theorem numbered?_erase (r : Roster) (id : Nat) (name : String) (other : Nat) :
    (r.erase id name).numbered? other = if id = other then none else r.numbered? other :=
  IdMap.find?_erase ..

@[simp] theorem numbers_insert (r : Roster) (id : Nat) (name : String) (place : Nat)
    (other : String) : (r.insert id name place).numbers.find? other =
      if name = other then some id else r.numbers.find? other :=
  KeyMap.find?_insert ..

@[simp] theorem numbers_erase (r : Roster) (id : Nat) (name other : String) :
    (r.erase id name).numbers.find? other =
      if name = other then none else r.numbers.find? other :=
  KeyMap.find?_erase ..

theorem consistent_empty (key : Nat → κ) (label : Nat → Option (κ × String)) :
    empty.Consistent key label where
  indexed := fun _ _ h => by cases h
  listed := fun _ _ h => by cases h
  below := fun _ _ h => by cases h

namespace Consistent

-- Labels of further objects make no difference.
theorem mono (h : r.Consistent key label)
    (hlabel : ∀ place l, label place = some l → label' place = some l) :
    r.Consistent key label' where
  indexed := fun id place hfound => by
    rcases h.indexed id place hfound with ⟨name, hname, hindex⟩
    exact ⟨name, hlabel _ _ hname, hindex⟩
  listed := fun name id hindex => by
    rcases h.listed name id hindex with ⟨place, hfound, hname⟩
    exact ⟨place, hfound, hlabel _ _ hname⟩
  below := h.below

theorem insert (h : r.Consistent key label) (hfree : ¬ r.Taken id name)
    (hlabel : label place = some (key id, name)) :
    (r.insert id name place).Consistent key label := by
  rw [not_taken_iff] at hfree
  constructor
  · intro other at' hfound
    rw [numbered?_insert] at hfound
    split at hfound
    · next hid =>
      rw [Option.some.injEq] at hfound
      rw [← hfound, ← hid]
      exact ⟨name, hlabel, by rw [numbers_insert, if_pos rfl]⟩
    · rcases h.indexed other at' hfound with ⟨name', hname', hindex⟩
      refine ⟨name', hname', ?_⟩
      -- The name is not taken, so it is not that of another object.
      have hne : name ≠ name' := fun heq => by
        rw [← heq, hfree.1] at hindex
        cases hindex
      rw [numbers_insert, if_neg hne, hindex]
  · intro name' other hindex
    rw [numbers_insert] at hindex
    rw [numbered?_insert]
    split at hindex
    · next hname =>
      rw [Option.some.injEq] at hindex
      rw [← hindex, ← hname, if_pos rfl]
      exact ⟨place, rfl, hlabel⟩
    · rcases h.listed name' other hindex with ⟨at', hfound, hname'⟩
      have hne : id ≠ other := fun heq => by
        rw [← heq, hfree.2] at hfound
        cases hfound
      rw [if_neg hne]
      exact ⟨at', hfound, hname'⟩
  · intro other at' hfound
    rw [numbered?_insert] at hfound
    rw [Roster.insert]
    split at hfound
    · next hid =>
      rw [← hid]
      exact Nat.lt_of_lt_of_le (Nat.lt_succ_self id) (Nat.le_max_right ..)
    · exact Nat.lt_of_lt_of_le (h.below other at' hfound) (Nat.le_max_left ..)

theorem erase (h : r.Consistent key label) (hfound : r.numbered? id = some place)
    (hlabel : label place = some (key id, name)) : (r.erase id name).Consistent key label := by
  have hindexed : r.numbers.find? name = some id := by
    rcases h.indexed id place hfound with ⟨name', hname', hindex⟩
    rw [hlabel, Option.some.injEq, Prod.mk.injEq] at hname'
    rw [hname'.2, hindex]
  constructor
  · intro other at' hfound'
    rw [numbered?_erase] at hfound'
    split at hfound'
    · cases hfound'
    · next hother =>
      rcases h.indexed other at' hfound' with ⟨name', hname', hindex⟩
      refine ⟨name', hname', ?_⟩
      have hne : name ≠ name' := fun heq => by
        rw [← heq, hindexed, Option.some.injEq] at hindex
        exact hother hindex
      rw [numbers_erase, if_neg hne, hindex]
  · intro name' other hindex
    rw [numbers_erase] at hindex
    split at hindex
    · cases hindex
    · next hother =>
      rcases h.listed name' other hindex with ⟨at', hfound', hname'⟩
      have hne : id ≠ other := fun heq => by
        rw [← heq, hfound, Option.some.injEq] at hfound'
        rw [← hfound', hlabel, Option.some.injEq, Prod.mk.injEq] at hname'
        exact hother hname'.2
      rw [numbered?_erase, if_neg hne]
      exact ⟨at', hfound', hname'⟩
  · intro other at' hfound'
    rw [numbered?_erase] at hfound'
    split at hfound'
    · cases hfound'
    · exact h.below other at' hfound'

/-- An object is found by a name if it is found by a number and has this name. -/
theorem named?_eq_some_iff (h : r.Consistent key label) :
    r.named? name = some place ↔
      ∃ id, r.numbered? id = some place ∧ label place = some (key id, name) := by
  rw [named?, Option.bind_eq_some_iff]
  constructor
  · rintro ⟨id, hindex, hfound⟩
    rcases h.listed name id hindex with ⟨place', hfound', hlabel⟩
    have hsame : some place' = some place := hfound'.symm.trans hfound
    rw [Option.some.injEq] at hsame
    exact ⟨id, hfound, hsame ▸ hlabel⟩
  · rintro ⟨id, hfound, hlabel⟩
    rcases h.indexed id place hfound with ⟨name', hname', hindex⟩
    rw [hlabel, Option.some.injEq, Prod.mk.injEq] at hname'
    rw [← hname'.2] at hindex
    exact ⟨id, hindex, hfound⟩

-- A name that is in the index is found.
theorem named?_eq_none_iff (h : r.Consistent key label) :
    r.named? name = none ↔ r.numbers.find? name = none := by
  rw [named?, Option.bind_eq_none_iff]
  constructor
  · intro hnone
    cases hindex : r.numbers.find? name with
    | none => rfl
    | some id =>
        rcases h.listed name id hindex with ⟨place, hfound, -⟩
        have hgone := hnone id hindex
        rw [← numbered?, hfound] at hgone
        cases hgone
  · intro hnone id hindex
    rw [hnone] at hindex
    cases hindex

/-- The objects are listed with their keys in ascending order of the numbers. -/
theorem keys_all (h : r.Consistent key label) :
    r.all.map (fun place => (label place).map Prod.fst) =
      r.places.ids.map fun id => some (key id) := by
  rw [all, IdMap.values, IdMap.ids, List.map_map, List.map_map]
  refine List.map_congr_left fun entry hentry => ?_
  rcases entry with ⟨id, place⟩
  rcases h.indexed id place (IdMap.find?_eq_some_iff.mpr hentry) with ⟨name, hname, -⟩
  simp only [Function.comp, hname, Option.map_some]

end Consistent

/-- What callers of a roster rely on: the index and the entries are inverse to one another, by
    a name the same is found as by the number of this name, and all is listed in ascending
    order of the numbers. -/
structure Agrees (r : Roster) (key : Nat → κ) (label : Nat → Option (κ × String)) : Prop where
  consistent : r.Consistent key label
  named : ∀ name place, r.named? name = some place ↔
    ∃ id, r.numbered? id = some place ∧ label place = some (key id, name)
  all : r.all.map (fun place => (label place).map Prod.fst) =
    r.places.ids.map fun id => some (key id)
  ascending : r.places.ids.Pairwise (· < ·)

theorem Consistent.agrees (h : r.Consistent key label) : r.Agrees key label where
  consistent := h
  named := fun _ _ => h.named?_eq_some_iff
  all := h.keys_all
  ascending := List.pairwise_map.mpr r.places.ascending

end Roster

namespace IndexedCatalog

variable {c c' c'' : IndexedCatalog} {id place : Nat} {name : String} {d : IndexedDatabase}
  {r : Roster}

/-- The number and the name that the database at a place says it has. -/
def databaseLabel? (c : IndexedCatalog) (place : Nat) : Option (Nat × String) :=
  c.databases[place]?.map fun d => (d.id, d.name)

/-- The numbers and the name that the table at a place says it has. -/
def tableLabel? (c : IndexedCatalog) (place : Nat) : Option (TableRef × String) :=
  c.tables[place]?.map fun t => (t.ref, t.name)

/-- The rosters are consistent, also those of databases that were dropped. -/
structure Consistent (c : IndexedCatalog) : Prop where
  root : c.root.Consistent (fun id => id) c.databaseLabel?
  databases : ∀ (place : Nat) (d : IndexedDatabase), c.databases[place]? = some d →
    d.roster.Consistent (TableRef.mk d.id) c.tableLabel?

/-- Callers of the roster of the databases, and of the one of any database, can rely on it. -/
structure Agrees (c : IndexedCatalog) : Prop where
  root : c.root.Agrees (fun id => id) c.databaseLabel?
  databases : ∀ (place : Nat) (d : IndexedDatabase), c.databases[place]? = some d →
    d.roster.Agrees (TableRef.mk d.id) c.tableLabel?

theorem Consistent.agrees (h : c.Consistent) : c.Agrees where
  root := h.root.agrees
  databases := fun place d hd => (h.databases place d hd).agrees

theorem database_eq (hd : c.databases[place]? = some d) : c.database place = d := by
  rw [database, List.getD_eq_getElem?_getD, hd, Option.getD_some]

theorem table_eq {t : Table} (ht : c.tables[place]? = some t) : c.table place = t := by
  rw [table, List.getD_eq_getElem?_getD, ht, Option.getD_some]

theorem databaseLabel?_eq_some_iff : c.databaseLabel? place = some (id, name) ↔
    ∃ d, c.databases[place]? = some d ∧ d.id = id ∧ d.name = name := by
  simp only [databaseLabel?, Option.map_eq_some_iff, Prod.mk.injEq]

theorem tableLabel?_eq_some_iff {ref : TableRef} : c.tableLabel? place = some (ref, name) ↔
    ∃ t, c.tables[place]? = some t ∧ t.ref = ref ∧ t.name = name := by
  simp only [tableLabel?, Option.map_eq_some_iff, Prod.mk.injEq]

theorem consistent_empty : empty.Consistent where
  root := Roster.consistent_empty ..
  databases := fun _ _ h => by cases h

/-! ### What calls do -/

@[simp] theorem getElem?_setRoster (c : IndexedCatalog) (place : Nat) (r : Roster) (other : Nat) :
    (c.setRoster place r).databases[other]? =
      c.databases[other]?.map fun d => if place = other then ⟨d.id, d.name, r⟩ else d :=
  List.getElem?_modify ..

theorem setRoster_self (hd : c.databases[place]? = some d) : c.setRoster place d.roster = c := by
  have hsame : (c.setRoster place d.roster).databases = c.databases := by
    refine List.ext_getElem? fun other => ?_
    rw [getElem?_setRoster]
    by_cases hother : place = other
    · rw [← hother, hd, Option.map_some, if_pos rfl]
    · simp only [if_neg hother, Option.map_id']
  exact congrArg (fun databases => IndexedCatalog.mk c.root databases c.tables) hsame

theorem addDatabase_cases (c : IndexedCatalog) (id : Nat) (name : String) :
    c.root.Taken id name ∧ c.addDatabase id name = (c, .error (.duplicated .database name)) ∨
      ¬ c.root.Taken id name ∧ c.addDatabase id name =
        (⟨c.root.insert id name c.databases.length, c.databases ++ [⟨id, name, .empty⟩], c.tables⟩,
          .ok c.databases.length) := by
  rw [addDatabase]
  rcases c.root.add_cases .database id name c.databases.length with ⟨htaken, hadd⟩ | ⟨hfree, hadd⟩
  · refine Or.inl ⟨htaken, ?_⟩
    rw [hadd]
  · refine Or.inr ⟨hfree, ?_⟩
    rw [hadd]

theorem dropDatabase_cases (c : IndexedCatalog) (id : Nat) :
    c.root.numbered? id = none ∧
        c.dropDatabase id = (c, .error (.notFound .database (toString id))) ∨
      ∃ place, c.root.numbered? id = some place ∧ c.dropDatabase id =
        (⟨c.root.erase id (c.database place).name, c.databases, c.tables⟩, .ok place) := by
  rw [dropDatabase]
  rcases c.root.remove_cases .database id fun place => (c.database place).name with
    ⟨hnone, hremove⟩ | ⟨place, hfound, hremove⟩
  · refine Or.inl ⟨hnone, ?_⟩
    rw [hremove]
  · refine Or.inr ⟨place, hfound, ?_⟩
    rw [hremove]

theorem addTable_cases (hd : c.databases[place]? = some d) (id : Nat) (name : String) :
    d.roster.Taken id name ∧
        c.addTable place id name = (c, .error (.duplicated .table name)) ∨
      ¬ d.roster.Taken id name ∧ c.addTable place id name =
        (⟨c.root, (c.setRoster place (d.roster.insert id name c.tables.length)).databases,
          c.tables ++ [.empty ⟨d.id, id⟩ name]⟩, .ok c.tables.length) := by
  rw [addTable, hd]
  rcases d.roster.add_cases .table id name c.tables.length with ⟨htaken, hadd⟩ | ⟨hfree, hadd⟩
  · refine Or.inl ⟨htaken, ?_⟩
    simp only [hadd, setRoster_self hd]
  · refine Or.inr ⟨hfree, ?_⟩
    simp only [hadd]

theorem dropTable_cases (hd : c.databases[place]? = some d) (id : Nat) :
    d.roster.numbered? id = none ∧
        c.dropTable place id = (c, .error (.notFound .table (toString id))) ∨
      ∃ table, d.roster.numbered? id = some table ∧ c.dropTable place id =
        (c.setRoster place (d.roster.erase id (c.table table).name), .ok table) := by
  rw [dropTable, hd]
  rcases d.roster.remove_cases .table id fun table => (c.table table).name with
    ⟨hnone, hremove⟩ | ⟨table, hfound, hremove⟩
  · refine Or.inl ⟨hnone, ?_⟩
    simp only [hremove, setRoster_self hd]
  · refine Or.inr ⟨table, hfound, ?_⟩
    simp only [hremove]

/-- A table is added to a database that there is, or nothing is changed. -/
theorem addTable_outcome (c : IndexedCatalog) (place id : Nat) (name : String) :
    (∃ e, c.addTable place id name = (c, .error e)) ∨
      ∃ d, c.databases[place]? = some d ∧ ¬ d.roster.Taken id name ∧ c.addTable place id name =
        (⟨c.root, (c.setRoster place (d.roster.insert id name c.tables.length)).databases,
          c.tables ++ [.empty ⟨d.id, id⟩ name]⟩, .ok c.tables.length) := by
  cases hd : c.databases[place]? with
  | none =>
      rw [addTable, hd]
      exact Or.inl ⟨_, rfl⟩
  | some d =>
      rcases addTable_cases hd id name with ⟨-, hadd⟩ | ⟨hfree, hadd⟩
      · exact Or.inl ⟨_, hadd⟩
      · exact Or.inr ⟨d, rfl, hfree, hadd⟩

/-- A table is dropped from a database that there is, or nothing is changed. -/
theorem dropTable_outcome (c : IndexedCatalog) (place id : Nat) :
    (∃ e, c.dropTable place id = (c, .error e)) ∨
      ∃ d table, c.databases[place]? = some d ∧ d.roster.numbered? id = some table ∧
        c.dropTable place id =
          (c.setRoster place (d.roster.erase id (c.table table).name), .ok table) := by
  cases hd : c.databases[place]? with
  | none =>
      rw [dropTable, hd]
      exact Or.inl ⟨_, rfl⟩
  | some d =>
      rcases dropTable_cases hd id with ⟨-, hdrop⟩ | ⟨table, hfound, hdrop⟩
      · exact Or.inl ⟨_, hdrop⟩
      · exact Or.inr ⟨d, table, rfl, hfound, hdrop⟩

/-- A catalog has all objects of another one. They have their numbers and their names, and
    the next numbers have not become smaller. -/
structure Extends (c c' : IndexedCatalog) : Prop where
  next : c.root.next ≤ c'.root.next
  databases : ∀ (place : Nat) (d : IndexedDatabase), c.databases[place]? = some d →
    ∃ d', c'.databases[place]? = some d' ∧ d'.id = d.id ∧ d'.name = d.name ∧
      d.roster.next ≤ d'.roster.next
  tables : ∀ (place : Nat) (t : Table), c.tables[place]? = some t →
    ∃ t', c'.tables[place]? = some t' ∧ t'.ref = t.ref ∧ t'.name = t.name

namespace Extends

theorem refl (c : IndexedCatalog) : c.Extends c where
  next := Nat.le_refl _
  databases := fun _ d hd => ⟨d, hd, rfl, rfl, Nat.le_refl _⟩
  tables := fun _ t ht => ⟨t, ht, rfl, rfl⟩

theorem trans (h : c.Extends c') (h' : c'.Extends c'') : c.Extends c'' where
  next := Nat.le_trans h.next h'.next
  databases := fun place d hd => by
    rcases h.databases place d hd with ⟨d', hd', hid', hname', hle'⟩
    rcases h'.databases place d' hd' with ⟨d'', hd'', hid'', hname'', hle''⟩
    exact ⟨d'', hd'', hid''.trans hid', hname''.trans hname', Nat.le_trans hle' hle''⟩
  tables := fun place t ht => by
    rcases h.tables place t ht with ⟨t', ht', href', hname'⟩
    rcases h'.tables place t' ht' with ⟨t'', ht'', href'', hname''⟩
    exact ⟨t'', ht'', href''.trans href', hname''.trans hname'⟩

theorem databaseLabel? (h : c.Extends c') (place : Nat) (l : Nat × String)
    (hl : c.databaseLabel? place = some l) : c'.databaseLabel? place = some l := by
  rcases databaseLabel?_eq_some_iff.mp hl with ⟨d, hd, hid, hname⟩
  rcases h.databases place d hd with ⟨d', hd', hid', hname', -⟩
  exact databaseLabel?_eq_some_iff.mpr ⟨d', hd', hid'.trans hid, hname'.trans hname⟩

theorem setRoster (hd : c.databases[place]? = some d) (hr : d.roster.next ≤ r.next) :
    c.Extends (c.setRoster place r) where
  next := Nat.le_refl _
  databases := fun other e he => by
    rw [getElem?_setRoster, he, Option.map_some]
    by_cases hother : place = other
    · have hsame : e = d := by
        rw [← hother, hd, Option.some.injEq] at he
        exact he.symm
      rw [if_pos hother, hsame]
      exact ⟨_, rfl, rfl, rfl, hr⟩
    · rw [if_neg hother]
      exact ⟨e, rfl, rfl, rfl, Nat.le_refl _⟩
  tables := fun _ t ht => ⟨t, ht, rfl, rfl⟩

end Extends

theorem getElem?_append_of_eq_some {α : Type} {as : List α} {i : Nat} {a : α} (h : as[i]? = some a)
    (more : List α) : (as ++ more)[i]? = some a := by
  rw [List.getElem?_append_left (List.getElem?_eq_some_iff.mp h).1, h]

theorem extends_addDatabase (c : IndexedCatalog) (id : Nat) (name : String) :
    c.Extends (c.addDatabase id name).1 := by
  rcases c.addDatabase_cases id name with ⟨-, hadd⟩ | ⟨-, hadd⟩
  · rw [hadd]
    exact .refl c
  · rw [hadd]
    exact {
      next := Nat.le_max_left ..
      databases := fun place d hd =>
        ⟨d, getElem?_append_of_eq_some hd _, rfl, rfl, Nat.le_refl _⟩
      tables := fun _ t ht => ⟨t, ht, rfl, rfl⟩ }

theorem extends_dropDatabase (c : IndexedCatalog) (id : Nat) :
    c.Extends (c.dropDatabase id).1 := by
  rcases c.dropDatabase_cases id with ⟨-, hdrop⟩ | ⟨place, -, hdrop⟩
  · rw [hdrop]
    exact .refl c
  · rw [hdrop]
    exact {
      next := Nat.le_refl _
      databases := fun _ d hd => ⟨d, hd, rfl, rfl, Nat.le_refl _⟩
      tables := fun _ t ht => ⟨t, ht, rfl, rfl⟩ }

theorem extends_addTable (c : IndexedCatalog) (place id : Nat) (name : String) :
    c.Extends (c.addTable place id name).1 := by
  rcases c.addTable_outcome place id name with ⟨_, hadd⟩ | ⟨d, hd, -, hadd⟩
  · rw [hadd]
    exact .refl c
  · rw [hadd]
    exact {
      next := Nat.le_refl _
      databases := (Extends.setRoster hd (Nat.le_max_left ..)).databases
      tables := fun _ t ht => ⟨t, getElem?_append_of_eq_some ht _, rfl, rfl⟩ }

theorem extends_dropTable (c : IndexedCatalog) (place id : Nat) :
    c.Extends (c.dropTable place id).1 := by
  rcases c.dropTable_outcome place id with ⟨_, hdrop⟩ | ⟨d, table, hd, -, hdrop⟩
  · rw [hdrop]
    exact .refl c
  · rw [hdrop]
    exact .setRoster hd (Nat.le_refl _)

namespace Consistent

theorem addDatabase (h : c.Consistent) (id : Nat) (name : String) :
    (c.addDatabase id name).1.Consistent := by
  have hextends := c.extends_addDatabase id name
  rcases c.addDatabase_cases id name with ⟨-, hadd⟩ | ⟨hfree, hadd⟩
  · rw [hadd]
    exact h
  · rw [hadd] at hextends ⊢
    constructor
    · refine (h.root.mono hextends.databaseLabel?).insert hfree ?_
      exact databaseLabel?_eq_some_iff.mpr ⟨_, List.getElem?_concat_length, rfl, rfl⟩
    · intro place d hd
      rw [List.getElem?_append] at hd
      split at hd
      · exact h.databases place d hd
      · -- The new database is the last, and has no tables.
        have hnew := List.mem_singleton.mp (List.mem_of_getElem? hd)
        rw [hnew]
        exact Roster.consistent_empty ..

theorem dropDatabase (h : c.Consistent) (id : Nat) : (c.dropDatabase id).1.Consistent := by
  rcases c.dropDatabase_cases id with ⟨-, hdrop⟩ | ⟨place, hfound, hdrop⟩
  · rw [hdrop]
    exact h
  · rw [hdrop]
    rcases h.root.indexed id place hfound with ⟨name, hlabel, -⟩
    rcases databaseLabel?_eq_some_iff.mp hlabel with ⟨d, hd, -, hname⟩
    refine ⟨?_, h.databases⟩
    rw [database_eq hd, hname]
    exact h.root.erase hfound hlabel

-- The roster of one database is changed, and the objects are those of before or more.
theorem setRoster (h : c.Consistent) (hd : c.databases[place]? = some d)
    (hr : r.Consistent (TableRef.mk d.id) c.tableLabel?) : (c.setRoster place r).Consistent where
  root := by
    have hlabels : (c.setRoster place r).databaseLabel? = c.databaseLabel? := by
      funext other
      rw [databaseLabel?, getElem?_setRoster, databaseLabel?, Option.map_map]
      congr 1
      funext e
      by_cases hother : place = other
      · simp only [Function.comp, if_pos hother]
      · simp only [Function.comp, if_neg hother]
    rw [hlabels]
    exact h.root
  databases := fun other e he => by
    rw [getElem?_setRoster, Option.map_eq_some_iff] at he
    rcases he with ⟨before, hbefore, rfl⟩
    by_cases hother : place = other
    · have hsame : before = d := by
        rw [← hother, hd, Option.some.injEq] at hbefore
        exact hbefore.symm
      rw [if_pos hother, hsame]
      exact hr
    · rw [if_neg hother]
      exact h.databases other before hbefore

-- With more tables the rosters are consistent as before.
theorem moreTables (h : c.Consistent) (more : List Table) :
    (⟨c.root, c.databases, c.tables ++ more⟩ : IndexedCatalog).Consistent where
  root := h.root
  databases := fun place d hd => by
    refine (h.databases place d hd).mono fun other l hl => ?_
    rcases tableLabel?_eq_some_iff.mp hl with ⟨t, ht, href, hname⟩
    exact tableLabel?_eq_some_iff.mpr ⟨t, getElem?_append_of_eq_some ht _, href, hname⟩

theorem addTable (h : c.Consistent) (place id : Nat) (name : String) :
    (c.addTable place id name).1.Consistent := by
  rcases c.addTable_outcome place id name with ⟨_, hadd⟩ | ⟨d, hd, hfree, hadd⟩
  · rw [hadd]
    exact h
  · rw [hadd]
    have hmore := h.moreTables [.empty ⟨d.id, id⟩ name]
    refine hmore.setRoster hd ((hmore.databases place d hd).insert hfree ?_)
    exact tableLabel?_eq_some_iff.mpr ⟨_, List.getElem?_concat_length, rfl, rfl⟩

theorem dropTable (h : c.Consistent) (place id : Nat) : (c.dropTable place id).1.Consistent := by
  rcases c.dropTable_outcome place id with ⟨_, hdrop⟩ | ⟨d, table, hd, hfound, hdrop⟩
  · rw [hdrop]
    exact h
  · rw [hdrop]
    have hd' := h.databases place d hd
    rcases hd'.indexed id table hfound with ⟨name, hlabel, -⟩
    rcases tableLabel?_eq_some_iff.mp hlabel with ⟨t, ht, -, hname⟩
    refine h.setRoster hd ?_
    rw [table_eq ht, hname]
    exact hd'.erase hfound hlabel

-- A table that is changed keeps its numbers and its name.
theorem modifyTable (h : c.Consistent) (place : Nat) {f : Table → Table}
    (hf : ∀ t, (f t).ref = t.ref ∧ (f t).name = t.name) : (c.modifyTable place f).Consistent := by
  have hlabels : (c.modifyTable place f).tableLabel? = c.tableLabel? := by
    funext other
    rw [tableLabel?, IndexedCatalog.modifyTable, List.getElem?_modify, tableLabel?, Option.map_eq_map,
      Option.map_map]
    congr 1
    funext t
    by_cases hother : place = other
    · simp only [Function.comp, if_pos hother, hf]
    · simp only [Function.comp, if_neg hother]
  refine ⟨h.root, fun other d hd => ?_⟩
  rw [hlabels]
  exact h.databases other d hd

end Consistent

end IndexedCatalog

/-! ### Calls one after another -/

/-- A change of what is listed. A database is meant by its place, for who has found it may go
    on using it after it was dropped. -/
inductive CatalogCall where
  | addDatabase (id : Nat) (name : String)
  | dropDatabase (id : Nat)
  | addTable (database : Nat) (id : Nat) (name : String)
  | dropTable (database : Nat) (id : Nat)
  deriving DecidableEq, Repr

/-- The number that a call is to give to a database or to a table. -/
def CatalogCall.added? : CatalogCall → Option Nat
  | .addDatabase id _ => some id
  | .addTable _ id _ => some id
  | _ => none

namespace IndexedCatalog

variable {c : IndexedCatalog}

/-- The catalog after a call. -/
def call (c : IndexedCatalog) : CatalogCall → IndexedCatalog × Except CatalogError Nat
  | .addDatabase id name => c.addDatabase id name
  | .dropDatabase id => c.dropDatabase id
  | .addTable database id name => c.addTable database id name
  | .dropTable database id => c.dropTable database id

/-- The catalog after calls. -/
def run (c : IndexedCatalog) (calls : List CatalogCall) : IndexedCatalog :=
  calls.foldl (fun c call => (c.call call).1) c

/-- The calls that do not fail. -/
def succeeded (c : IndexedCatalog) : List CatalogCall → List CatalogCall
  | [] => []
  | call :: rest =>
    if (c.call call).2.isOk then call :: (c.call call).1.succeeded rest
    else (c.call call).1.succeeded rest

/-- A call that fails changes nothing. -/
theorem call_error {call : CatalogCall} {e : CatalogError} (h : (c.call call).2 = .error e) :
    (c.call call).1 = c := by
  cases call with
  | addDatabase id name =>
      rcases c.addDatabase_cases id name with ⟨-, hcall⟩ | ⟨-, hcall⟩
      · rw [call, hcall]
      · rw [call, hcall] at h
        cases h
  | dropDatabase id =>
      rcases c.dropDatabase_cases id with ⟨-, hcall⟩ | ⟨_, -, hcall⟩
      · rw [call, hcall]
      · rw [call, hcall] at h
        cases h
  | addTable place id name =>
      rcases c.addTable_outcome place id name with ⟨_, hcall⟩ | ⟨_, -, -, hcall⟩
      · rw [call, hcall]
      · rw [call, hcall] at h
        cases h
  | dropTable place id =>
      rcases c.dropTable_outcome place id with ⟨_, hcall⟩ | ⟨_, _, -, -, hcall⟩
      · rw [call, hcall]
      · rw [call, hcall] at h
        cases h

theorem extends_call (c : IndexedCatalog) (call : CatalogCall) : c.Extends (c.call call).1 := by
  cases call with
  | addDatabase id name => exact c.extends_addDatabase id name
  | dropDatabase id => exact c.extends_dropDatabase id
  | addTable place id name => exact c.extends_addTable place id name
  | dropTable place id => exact c.extends_dropTable place id

theorem Consistent.call (h : c.Consistent) (call : CatalogCall) : (c.call call).1.Consistent := by
  cases call with
  | addDatabase id name => exact h.addDatabase id name
  | dropDatabase id => exact h.dropDatabase id
  | addTable place id name => exact h.addTable place id name
  | dropTable place id => exact h.dropTable place id

theorem extends_run (c : IndexedCatalog) (calls : List CatalogCall) : c.Extends (c.run calls) := by
  induction calls generalizing c with
  | nil => exact .refl c
  | cons call rest ih => exact (c.extends_call call).trans (ih _)

/-- Rosters stay consistent. -/
theorem Consistent.run (h : c.Consistent) (calls : List CatalogCall) :
    (c.run calls).Consistent := by
  induction calls generalizing c with
  | nil => exact h
  | cons call rest ih => exact ih (h.call call)

/-- The next numbers are above those that some calls added. -/
structure Above (c : IndexedCatalog) (calls : List CatalogCall) : Prop where
  databases : ∀ id name, .addDatabase id name ∈ calls → id < c.root.next
  tables : ∀ place id name, .addTable place id name ∈ calls →
    ∃ d, c.databases[place]? = some d ∧ id < d.roster.next

theorem Above.mono {c' : IndexedCatalog} {calls : List CatalogCall} (h : c.Above calls)
    (hextends : c.Extends c') : c'.Above calls where
  databases := fun id name hadd => Nat.lt_of_lt_of_le (h.databases id name hadd) hextends.next
  tables := fun place id name hadd => by
    rcases h.tables place id name hadd with ⟨d, hd, hlt⟩
    rcases hextends.databases place d hd with ⟨d', hd', -, -, hle⟩
    exact ⟨d', hd', Nat.lt_of_lt_of_le hlt hle⟩

theorem above_call {call : CatalogCall} (h : (c.call call).2.isOk) :
    (c.call call).1.Above [call] where
  databases := fun id name hadd => by
    rw [← List.mem_singleton.mp hadd, IndexedCatalog.call] at h ⊢
    rcases c.addDatabase_cases id name with ⟨-, hcall⟩ | ⟨-, hcall⟩
    · rw [hcall] at h
      cases h
    · rw [hcall]
      exact Nat.lt_of_lt_of_le (Nat.lt_succ_self id) (Nat.le_max_right ..)
  tables := fun place id name hadd => by
    rw [← List.mem_singleton.mp hadd, IndexedCatalog.call] at h ⊢
    rcases c.addTable_outcome place id name with ⟨_, hcall⟩ | ⟨d, hd, -, hcall⟩
    · rw [hcall] at h
      cases h
    · rw [hcall]
      refine ⟨⟨d.id, d.name, d.roster.insert id name c.tables.length⟩, ?_, ?_⟩
      · rw [getElem?_setRoster, hd, Option.map_some, if_pos rfl]
      · exact Nat.lt_of_lt_of_le (Nat.lt_succ_self id) (Nat.le_max_right ..)

/-- The next numbers are above all that were ever added. -/
theorem above_run (c : IndexedCatalog) (calls : List CatalogCall) :
    (c.run calls).Above (c.succeeded calls) := by
  induction calls generalizing c with
  | nil => exact ⟨fun _ _ h => absurd h List.not_mem_nil, fun _ _ _ h => absurd h List.not_mem_nil⟩
  | cons call rest ih =>
      rw [succeeded, run, List.foldl_cons]
      split
      · next hok =>
        have hfirst := (above_call hok).mono ((c.call call).1.extends_run rest)
        constructor
        · intro id name hadd
          rcases List.mem_cons.mp hadd with hnow | hlater
          · exact hfirst.databases id name (List.mem_singleton.mpr hnow)
          · exact (ih _).databases id name hlater
        · intro place id name hadd
          rcases List.mem_cons.mp hadd with hnow | hlater
          · exact hfirst.tables place id name (List.mem_singleton.mpr hnow)
          · exact (ih _).tables place id name hlater
      · exact ih _

/-- The next numbers are not above a bound. -/
structure Within (c : IndexedCatalog) (bound : Nat) : Prop where
  root : c.root.next ≤ bound
  databases : ∀ d ∈ c.databases, d.roster.next ≤ bound

theorem Within.setRoster {bound place : Nat} {r : Roster} (h : c.Within bound)
    (hr : r.next ≤ bound) : (c.setRoster place r).Within bound where
  root := h.root
  databases := fun d hd => by
    rcases List.getElem?_of_mem hd with ⟨other, hother⟩
    rw [getElem?_setRoster, Option.map_eq_some_iff] at hother
    rcases hother with ⟨before, hbefore, rfl⟩
    split
    · exact hr
    · exact h.databases before (List.mem_of_getElem? hbefore)

-- A number that is given out leaves room for the next one.
theorem Within.call {bound : Nat} (h : c.Within bound) {call : CatalogCall}
    (hcall : ∀ id, call.added? = some id → id < bound) : (c.call call).1.Within bound := by
  cases call with
  | addDatabase id name =>
      rw [IndexedCatalog.call]
      rcases c.addDatabase_cases id name with ⟨-, hadd⟩ | ⟨-, hadd⟩
      · rw [hadd]
        exact h
      · rw [hadd]
        refine ⟨Nat.max_le.mpr ⟨h.root, hcall id rfl⟩, fun d hd => ?_⟩
        rcases List.mem_append.mp hd with hold | hnew
        · exact h.databases d hold
        · rw [List.mem_singleton.mp hnew]
          exact Nat.zero_le _
  | dropDatabase id =>
      rw [IndexedCatalog.call]
      rcases c.dropDatabase_cases id with ⟨-, hdrop⟩ | ⟨place, -, hdrop⟩
      · rw [hdrop]
        exact h
      · rw [hdrop]
        exact ⟨h.root, h.databases⟩
  | addTable place id name =>
      rw [IndexedCatalog.call]
      rcases c.addTable_outcome place id name with ⟨_, hadd⟩ | ⟨d, hd, -, hadd⟩
      · rw [hadd]
        exact h
      · rw [hadd]
        have hnext := h.databases d (List.mem_of_getElem? hd)
        exact ⟨h.root, (h.setRoster (Nat.max_le.mpr ⟨hnext, hcall id rfl⟩)).databases⟩
  | dropTable place id =>
      rw [IndexedCatalog.call]
      rcases c.dropTable_outcome place id with ⟨_, hdrop⟩ | ⟨d, table, hd, -, hdrop⟩
      · rw [hdrop]
        exact h
      · rw [hdrop]
        exact h.setRoster (h.databases d (List.mem_of_getElem? hd))

/-- With numbers below a bound the next ones are not above it. -/
theorem Within.run {bound : Nat} (h : c.Within bound) {calls : List CatalogCall}
    (hcalls : ∀ call ∈ calls, ∀ id, call.added? = some id → id < bound) :
    (c.run calls).Within bound := by
  induction calls generalizing c with
  | nil => exact h
  | cons call rest ih =>
      exact ih (h.call (hcalls call List.mem_cons_self))
        fun other hother => hcalls other (List.mem_cons_of_mem _ hother)

end IndexedCatalog

end NestedColumns
