import NestedColumns.Proofs.Store.Holdings

/-!
# Tables that are dropped

Whoever drops tables is their writer for that time. Nobody can tell afterwards: if one of them has a
writer, those that were taken before it are given back, and the store is as it was; else the tables
are dropped, or not, as if none had been taken.

The tables that are taken have different numbers, so none is in the way of another. This is why a
database is dropped as it should be only in a catalog that is sound.

## Theorems

* `Store.openSession_eq`: Opening a session takes one table.
* `Store.lockAll_eq`: Taking tables one after another.
* `Store.dropTable_eq`, `Store.dropDatabase_eq`: Dropping, told without writers that come and go.
-/

namespace NestedColumns

namespace Store

variable {s : Store} {t : Table} {tables : List Table} {held : List TableRef} {name : String}
  {d : Database}

theorem openSession_eq (s : Store) (database table : String) :
    s.openSession database table = match s.tableNamed database table with
      | .error e => (s, .error e)
      | .ok t =>
        if s.isWritten t.ref then (s, .error (.sessionConflict t.name))
        else (s.setWriters (t.ref :: s.writers),
          .ok ⟨t.ref, t.name, t.schema, false, .empty, [], 0⟩) := by
  rw [openSession]
  cases s.tableNamed database table with
  | error e => rfl
  | ok t =>
      simp only [lock]
      cases s.isWritten t.ref with
      | true => rfl
      | false => rfl

theorem not_written (h : ¬ s.isWritten t.ref = true) : t.ref ∉ s.writers :=
  fun hin => h (List.contains_iff_mem.mpr hin)

/-! ### Taking tables and giving them back -/

theorem foldl_unlock (refs : List TableRef) (s : Store) :
    refs.foldl unlock s = s.setWriters (s.writers.filter (· ∉ refs)) := by
  induction refs generalizing s with
  | nil =>
      have hall : s.writers.filter (· ∉ []) = s.writers :=
        List.filter_eq_self.mpr fun _ _ => decide_eq_true List.not_mem_nil
      rw [hall]
      rfl
  | cons ref rest ih =>
      have hboth : (s.writers.filter (· ≠ ref)).filter (· ∉ rest) =
          s.writers.filter (· ∉ ref :: rest) := by
        rw [List.filter_filter]
        refine List.filter_congr fun x _ => ?_
        rw [← Bool.decide_and, decide_eq_decide, List.mem_cons, not_or, and_comm]
      rw [List.foldl_cons, ih, ← hboth]
      rfl

theorem foldl_unlock_lock (hfree : ∀ ref ∈ held, ref ∉ s.writers) :
    held.foldl unlock (s.setWriters (held.reverse ++ s.writers)) = s := by
  have hnone : held.reverse.filter (· ∉ held) = [] :=
    List.filter_eq_nil_iff.mpr fun ref href hnot =>
      of_decide_eq_true hnot (List.mem_reverse.mp href)
  have hall : s.writers.filter (· ∉ held) = s.writers :=
    List.filter_eq_self.mpr fun ref href => decide_eq_true fun hin => hfree ref hin href
  have hwriters : (s.setWriters (held.reverse ++ s.writers)).writers = held.reverse ++ s.writers := rfl
  rw [foldl_unlock, hwriters, List.filter_append, hnone, hall]
  rfl

/-- Tables are taken if all are free; else the first that is not is the error, and the store is as
    it was. -/
theorem lockAll_eq (held : List TableRef) (hn : (held ++ tables.map (·.ref)).Nodup)
    (hfree : ∀ ref ∈ held, ref ∉ s.writers) :
    (s.setWriters (held.reverse ++ s.writers)).lockAll held tables =
      match tables.find? fun t => s.isWritten t.ref with
      | some t => (s, .error (.sessionConflict t.name))
      | none => (s.setWriters ((held ++ tables.map (·.ref)).reverse ++ s.writers),
          .ok (held ++ tables.map (·.ref))) := by
  -- What is held grows by one table at a time.
  induction tables generalizing held with
  | nil =>
      rw [List.map_nil, List.append_nil]
      rfl
  | cons t rest ih =>
      have hsplit : held ++ (t :: rest).map (·.ref) = (held ++ [t.ref]) ++ rest.map (·.ref) := by
        rw [List.map_cons, List.append_assoc, List.singleton_append]
      have hother : t.ref ∉ held := fun hin =>
        (List.nodup_append.mp hn).2.2 t.ref hin t.ref List.mem_cons_self rfl
      have hsame : (s.setWriters (held.reverse ++ s.writers)).isWritten t.ref =
          s.isWritten t.ref := by
        rw [isWritten, isWritten, setWriters, List.contains_append,
          Bool.or_eq_right_iff_imp.mpr fun hin => absurd
            (List.mem_reverse.mp (List.contains_iff_mem.mp hin)) hother]
      rw [lockAll, lock, hsame, List.find?_cons]
      cases hwritten : s.isWritten t.ref with
      | true =>
          simp only [if_true]
          rw [foldl_unlock_lock hfree]
      | false =>
          have hnext : (s.setWriters (held.reverse ++ s.writers)).setWriters
              (t.ref :: (s.setWriters (held.reverse ++ s.writers)).writers) =
                s.setWriters ((held ++ [t.ref]).reverse ++ s.writers) := by
            rw [List.reverse_append]
            rfl
          simp only [Bool.false_eq_true, if_false]
          rw [hnext, hsplit]
          refine ih (held ++ [t.ref]) (hsplit ▸ hn) fun ref href => ?_
          rcases List.mem_append.mp href with hin | hin
          · exact hfree ref hin
          · rw [List.mem_singleton.mp hin]
            exact not_written (Bool.eq_false_iff.mp hwritten)

/-! ### Dropping -/

-- Who writes does not matter for what is committed.
theorem commit_setWriters (s : Store) (writers : List TableRef) (ops : List Operation) :
    (s.setWriters writers).commit ops = ((s.commit ops).1.setWriters writers, (s.commit ops).2) := by
  have hlog : (s.setWriters writers).log.append (s.setWriters writers).disk =
      s.log.append s.disk := rfl
  rw [commit, commit, hlog]
  rcases s.log.append s.disk (ops.map .operation) with ⟨after, e | _, log⟩
  · rfl
  · rfl

theorem commitDrop_setWriters (s : Store) (writers : List TableRef) (ops : List Operation)
    (directory : Path) : (s.setWriters writers).commitDrop ops directory =
      ((s.commitDrop ops directory).1.setWriters writers, (s.commitDrop ops directory).2) := by
  rw [commitDrop, commitDrop, commit_setWriters]
  rcases s.commit ops with ⟨after, e | _⟩
  · rfl
  · rfl

-- Removing a directory afterwards does not matter for the catalog.
theorem commitDrop_registry (s : Store) (ops : List Operation) (directory : Path) :
    (s.commitDrop ops directory).1.registry = (s.commit ops).1.registry ∧
      (s.commitDrop ops directory).1.writers = (s.commit ops).1.writers ∧
      (s.commitDrop ops directory).2 = (s.commit ops).2 := by
  rw [commitDrop]
  rcases s.commit ops with ⟨after, e | _⟩
  · exact ⟨rfl, rfl, rfl⟩
  · exact ⟨rfl, rfl, rfl⟩

theorem dropLocked_eq (hn : (tables.map (·.ref)).Nodup) (ops : List Operation) (directory : Path) :
    s.dropLocked tables ops directory = match tables.find? fun t => s.isWritten t.ref with
      | some t => (s, .error (.sessionConflict t.name))
      | none => s.commitDrop ops directory := by
  have hlock : s.lockAll [] tables = match tables.find? fun t => s.isWritten t.ref with
      | some t => (s, .error (.sessionConflict t.name))
      | none => (s.setWriters ((tables.map (·.ref)).reverse ++ s.writers),
          .ok (tables.map (·.ref))) :=
    lockAll_eq [] hn fun _ hin => absurd hin List.not_mem_nil
  rw [dropLocked, hlock]
  cases hfound : tables.find? fun t => s.isWritten t.ref with
  | some t => rfl
  | none =>
      have hwriters : (s.commitDrop ops directory).1.writers = s.writers :=
        (s.commitDrop_registry ops directory).2.1.trans (commit_cases (fun _ => True) s ops).2.1
      have hfree : ∀ ref ∈ tables.map (·.ref), ref ∉ (s.commitDrop ops directory).1.writers := by
        intro ref href
        rcases List.mem_map.mp href with ⟨t, ht, rfl⟩
        rw [hwriters]
        exact not_written (List.find?_eq_none.mp hfound t ht)
      have hback := foldl_unlock_lock hfree
      rw [hwriters] at hback
      simp only
      rw [commitDrop_setWriters, hback]

theorem dropTable_eq (s : Store) (database table : String) :
    s.dropTable database table = match s.tableNamed database table with
      | .error e => (s, .error e)
      | .ok t =>
        if s.isWritten t.ref then (s, .error (.sessionConflict t.name))
        else s.commitDrop [.dropTable t.ref] (s.options.tablePath t.ref) := by
  rw [dropTable]
  cases s.tableNamed database table with
  | error e => rfl
  | ok t =>
      have hone : ([t].map (·.ref)).Nodup := List.nodup_singleton t.ref
      simp only
      rw [dropLocked_eq hone, List.find?_singleton]
      cases s.isWritten t.ref with
      | true => rfl
      | false => rfl

-- The tables of a database are those of its number.
theorem mem_tables_iff (hs : s.catalog.Sound) (hd : s.databaseNamed name = .ok d) :
    t ∈ d.tables.values ↔ t.ref.database = d.id ∧ s.catalog.table? t.ref = some t := by
  have hin := find?_of_databaseNamed hs hd
  constructor
  · intro ht
    rcases List.mem_map.mp ht with ⟨⟨id, t'⟩, hentry, rfl⟩
    have hat : s.catalog.table? ⟨d.id, id⟩ = some t' :=
      Catalog.table?_eq_some.mpr ⟨d, hin, IdMap.find?_eq_some_iff.mpr hentry⟩
    rw [hs.refs _ _ hat]
    exact ⟨rfl, hat⟩
  · rintro ⟨href, ht⟩
    rcases Catalog.table?_eq_some.mp ht with ⟨d', hd', hfound⟩
    rw [href, hin, Option.some.injEq] at hd'
    subst hd'
    exact List.mem_map.mpr ⟨_, IdMap.find?_eq_some_iff.mp hfound, rfl⟩

theorem refs_nodup (hs : s.catalog.Sound) (hd : s.databaseNamed name = .ok d) :
    (d.tables.values.map (·.ref)).Nodup := by
  have hin := find?_of_databaseNamed hs hd
  have hrefs : d.tables.values.map (·.ref) = d.tables.ids.map (TableRef.mk d.id) := by
    rw [IdMap.values, IdMap.ids, List.map_map, List.map_map]
    refine List.map_congr_left fun e he => ?_
    exact hs.refs _ _ (Catalog.table?_eq_some.mpr ⟨d, hin, IdMap.find?_eq_some_iff.mpr he⟩)
  have hids : d.tables.ids.Nodup := (List.pairwise_map.mpr d.tables.ascending).imp Nat.ne_of_lt
  rw [hrefs]
  refine List.pairwise_map.mpr (hids.imp fun hne heq => hne ?_)
  rw [TableRef.mk.injEq] at heq
  exact heq.2

theorem dropDatabase_eq (hs : s.catalog.Sound) (name : String) :
    s.dropDatabase name = match s.databaseNamed name with
      | .error e => (s, .error e)
      | .ok d =>
        match d.tables.values.find? fun t => s.isWritten t.ref with
        | some t => (s, .error (.sessionConflict t.name))
        | none => s.commitDrop
            (d.tables.values.map (fun t => .dropTable t.ref) ++ [.dropDatabase d.id])
            (s.options.databasePath d.id) := by
  rw [dropDatabase]
  cases hd : s.databaseNamed name with
  | error e => rfl
  | ok d => exact dropLocked_eq (refs_nodup hs hd) ..

end Store

end NestedColumns
