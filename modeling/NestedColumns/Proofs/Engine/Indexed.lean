import NestedColumns.Proofs.Engine.Actions
import NestedColumns.Proofs.Store.Indexed
import NestedColumns.Proofs.Store.Reopening

/-!
# The indexes of an engine

The catalog of an engine changes with the transactions that are completed, and its indexes and
the map of its tables change with it, operation by operation. They start from the log that the
store was opened on, whatever it says, and stay consistent through whatever is done with the
engine, by any number of sessions and readers and on a disk that may fail.

## Main definitions

* `Engine.change?`: The actions that may change the catalog, as calls.
* `Engine.completed`, `Engine.ledger`: The transactions that actions complete.
* `IndexedRegistry.following`: The registry of a store after transactions.

## Theorems

* `Engine.completed_applied`: A transaction is completed and applied, or neither.
* `IndexedRegistry.Consistent.ledger`: Actions one after another.
* `Engine.indexes_agree`: The indexes of a catalog and of an engine agree at all times.
-/

namespace NestedColumns

/-- A store on which one session is open. -/
def Usage.alone (s : Store) (session : Session) : Usage :=
  ⟨s, fun ref => if ref = session.ref then some session else none, fun _ => [], fun _ => []⟩

namespace Engine

variable {e : Engine} {a : Action} {u : Usage} {c : Call}

/-- What an action that may change the catalog asks of the store. Other sessions have no part
    in it. -/
def change? (e : Engine) : Action → Option (Usage × Call)
  | .createDatabase name => some (.ofStore e.store, .createDatabase name)
  | .dropDatabase name => some (.ofStore e.store, .dropDatabase name)
  | .createTable database table => some (.ofStore e.store, .createTable database table)
  | .dropTable database table => some (.ofStore e.store, .dropTable database table)
  | .close handle => (e.sessions.find? handle).map fun live =>
      (.alone e.store live.session, .close live.session.ref)
  | _ => none

/-- The transactions that an action completes. -/
def completed (e : Engine) (a : Action) : List (List Operation) :=
  match e.change? a with
  | none => []
  | some (u, c) => u.completed c

/-- The transactions that actions complete one after another. -/
def ledger (e : Engine) : List Action → List (List Operation)
  | [] => []
  | a :: rest => e.completed a ++ (e.step a).1.ledger rest

theorem onChange_store (e : Engine) (answer : Store × Except StoreError Unit) :
    (e.onChange answer).1.store = answer.1 := by
  rcases answer with ⟨s, error | _⟩
  · rfl
  · rfl

theorem step_change? (h : e.change? a = some (u, c)) :
    u.store = e.store ∧ (e.step a).1.store = (u.call c).1.store := by
  cases a with
  | createDatabase | dropDatabase | createTable | dropTable =>
      rw [change?, Option.some.injEq, Prod.mk.injEq] at h
      rcases h with ⟨rfl, rfl⟩
      exact ⟨rfl, onChange_store ..⟩
  | close handle =>
      rw [change?, Option.map_eq_some_iff] at h
      rcases h with ⟨live, hlive, h⟩
      rw [Prod.mk.injEq] at h
      rcases h with ⟨rfl, rfl⟩
      refine ⟨rfl, ?_⟩
      rw [step, hlive, Usage.call]
      simp only [Usage.alone, if_true]
      rfl
  | _ => cases h

-- All other actions leave the catalog as it is.
theorem catalog_of_change? (h : e.change? a = none) :
    (e.step a).1.store.catalog = e.store.catalog := by
  cases a with
  | createDatabase | dropDatabase | createTable | dropTable => cases h
  | close handle =>
      rw [change?, Option.map_eq_none_iff] at h
      rw [step, h]
  | openSession handle database table =>
      rw [step]
      cases e.sessions.find? handle with
      | some live => rfl
      | none =>
          simp only [Store.openSession_eq]
          cases e.store.tableNamed database table with
          | error error => rfl
          | ok t =>
              by_cases hwritten : e.store.isWritten t.ref = true
              · simp only [if_pos hwritten]
                rfl
              · simp only [if_neg hwritten]
                rfl
  | insert handle document =>
      rw [step]
      cases e.sessions.find? handle with
      | none => rfl
      | some live => exact (live.session.insert_quiet e.store document).catalog
  | insertText handle bytes =>
      rw [step]
      cases e.sessions.find? handle with
      | none => rfl
      | some live => exact (live.session.insertText_quiet e.store bytes).catalog
  | abort handle =>
      rw [step]
      cases e.sessions.find? handle with
      | none => rfl
      | some live => exact (live.session.abort_quiet e.store).catalog
  | discard handle =>
      rw [step]
      cases e.sessions.find? handle with
      | none => rfl
      | some live => exact (live.session.discard_quiet e.store).catalog
  | openReader handle database table paths =>
      rw [step]
      cases e.store.reader database table paths with
      | error error => rfl
      | ok reader => rfl
  | next handle =>
      rw [step]
      cases e.readers.find? handle with
      | none => rfl
      | some reader => rfl
  | forget keys => rfl

/-- An action completes no transaction and leaves the catalog as it is, or it completes one, of
    which all operations are applied. -/
theorem completed_applied (h : e.store.catalog.Numbered) (a : Action) :
    e.completed a = [] ∧ (e.step a).1.store.catalog = e.store.catalog ∨
      ∃ (ops : List Operation) (r r' : Registry), e.completed a = [ops] ∧ r.catalog = e.store.catalog ∧
        r.applyAll ops = (r', .ok ()) ∧ (e.step a).1.store.catalog = r'.catalog := by
  rw [completed]
  cases hchange : e.change? a with
  | none => exact Or.inl ⟨rfl, catalog_of_change? hchange⟩
  | some call =>
      rcases call with ⟨u, c⟩
      rcases step_change? hchange with ⟨hbefore, hafter⟩
      rw [← hbefore] at h ⊢
      rw [hafter]
      rcases Usage.completed_cases h c with hnone | ⟨r, r', happlied⟩
      · exact Or.inl hnone
      · exact Or.inr ⟨_, r, r', happlied.completed, happlied.before, happlied.applied,
          happlied.after⟩

end Engine

namespace IndexedRegistry

variable {r : IndexedRegistry} {e : Engine}

/-- The registry after transactions, each up to the first operation that does not fit. -/
def commitAll (r : IndexedRegistry) (txs : List (List Operation)) : IndexedRegistry :=
  txs.foldl (fun r tx => (r.applyAll tx).1) r

/-- The registry of a store that was opened on a log, after transactions. -/
def following (ops : List Operation) (txs : List (List Operation)) : IndexedRegistry :=
  (empty.replay ops).1.commitAll txs

/-- Whatever is done with an engine, its indexes stay consistent and stand for its catalog. -/
theorem Consistent.ledger (h : r.Consistent) (hsame : r.catalog.view = e.store.catalog)
    (hnumbered : e.store.catalog.Numbered) (actions : List Action) :
    (r.commitAll (e.ledger actions)).Consistent ∧
      (r.commitAll (e.ledger actions)).catalog.view = (e.run actions).store.catalog := by
  induction actions generalizing r e with
  | nil => exact ⟨h, hsame⟩
  | cons a rest ih =>
      rw [Engine.ledger, commitAll, List.foldl_append, Engine.run, List.foldl_cons]
      rcases Engine.completed_applied hnumbered a with
        ⟨hnone, hcatalog⟩ | ⟨ops, before, after, hcompleted, hbefore, happly, hafter⟩
      · rw [hnone, List.foldl_nil]
        exact ih h (hsame.trans hcatalog.symm) (hcatalog ▸ hnumbered)
      · have hstart : r.view.catalog = before.catalog := hsame.trans hbefore.symm
        rcases Registry.applyAll_of_catalog happly hstart with ⟨after', happly', hafter'⟩
        rcases h.applyAll ops with ⟨hconsistent, hview⟩
        rw [happly', Prod.mk.injEq] at hview
        rw [← hbefore] at hnumbered
        have hnext := hnumbered.applyAll ops
        rw [happly] at hnext
        rw [hcompleted, List.foldl_cons, List.foldl_nil]
        refine ih hconsistent ?_ (hafter ▸ hnext)
        rw [hafter, ← hafter', hview.1]
        rfl

-- What was replayed stands for the catalog that the first action finds.
theorem consistent_following {options : StoreOptions} {d : Disk} {s : Store}
    {ops : List Operation} (h : Store.Opened options d s ops) (kept : TableRef → List Taken)
    (actions : List Action) :
    (following ops ((Engine.resume s kept).ledger actions)).Consistent ∧
      (following ops ((Engine.resume s kept).ledger actions)).catalog.view =
        ((Engine.resume s kept).run actions).store.catalog := by
  rcases consistent_empty.replay ops with ⟨hconsistent, hview⟩
  have hregistry : ops.foldlM Registry.replayOne empty.view = .ok s.registry := h.registry
  rw [hregistry] at hview
  have hsame : (empty.replay ops).1.view = s.registry := by
    cases hresult : (empty.replay ops).2 with
    | error e =>
        rw [hresult] at hview
        cases hview
    | ok _ =>
        rw [hresult, Except.map, Except.ok.injEq] at hview
        exact hview.symm
  have hnumbered : s.registry.catalog.Numbered :=
    Registry.replay_induction (P := fun r => r.catalog.Numbered) Catalog.numbered_empty
      (fun _ _ _ hr happly => hr.apply happly) h.registry
  exact hconsistent.ledger (e := .resume s kept) (congrArg Registry.catalog hsame) hnumbered actions

end IndexedRegistry

namespace Engine

variable {options : StoreOptions} {d : Disk} {s : Store} {ops : List Operation}

/-- Whatever databases and tables are added and dropped, also in databases that were dropped,
    and whether that fails or not: the index and the entries of every roster are inverse to one
    another, the same is found by names and by numbers, all is listed by number, the next
    numbers are above all that were ever added, and a call that fails has changed nothing. And
    whatever log a store was opened on, and whatever was done with it, its map of tables has
    the tables of the catalog and no others, each at the place of the catalog's own entry. -/
theorem indexes_agree (changes : List CatalogCall) (h : Store.Opened options d s ops)
    (kept : TableRef → List Taken) (actions : List Action) :
    ((IndexedCatalog.empty.run changes).Agrees ∧
      (IndexedCatalog.empty.run changes).Above (IndexedCatalog.empty.succeeded changes) ∧
      ∀ call error, ((IndexedCatalog.empty.run changes).call call).2 = .error error →
        ((IndexedCatalog.empty.run changes).call call).1 = IndexedCatalog.empty.run changes) ∧
    ((IndexedRegistry.following ops ((resume s kept).ledger actions)).catalog.view =
        ((resume s kept).run actions).store.catalog ∧
      (IndexedRegistry.following ops ((resume s kept).ledger actions)).catalog.Agrees ∧
      ∀ ref, (IndexedRegistry.following ops ((resume s kept).ledger actions)).stored.find? ref =
        (IndexedRegistry.following ops ((resume s kept).ledger actions)).catalog.table? ref) := by
  have hrun := IndexedCatalog.consistent_empty.run changes
  rcases IndexedRegistry.consistent_following h kept actions with ⟨hconsistent, hview⟩
  exact ⟨⟨hrun.agrees, IndexedCatalog.above_run _ changes, fun _ _ => IndexedCatalog.call_error⟩,
    hview, hconsistent.catalog.agrees, hconsistent.stored⟩

/-- Numbers that come out of order, and names that are used again after what had them was
    dropped. The database that was dropped is given another table. -/
def sampleChanges : List CatalogCall :=
  [.addDatabase 7 "late", .addDatabase 3 "early", .addTable 0 4 "t", .dropDatabase 7,
    .addTable 0 6 "u", .addDatabase 3 "again", .addDatabase 9 "late", .dropTable 0 4]

/-- A table is dropped, and another one has its name. -/
def sampleRenewed : List Action :=
  [.createDatabase "d", .createTable "d" "t", .dropTable "d" "t", .createTable "d" "t"]

-- A name is that of the last object that was given it, and so is a table in the map.
theorem indexes_agree_renewed :
    (IndexedCatalog.empty.run sampleChanges).root.named? "late" = some 2 ∧
    (IndexedCatalog.empty.run sampleChanges).root.all = [1, 2] ∧
    (∀ id name, .addDatabase id name ∈ IndexedCatalog.empty.succeeded sampleChanges → id < 10) ∧
    (IndexedRegistry.following []
      ((resume .sample fun _ => []).ledger sampleRenewed)).stored.find? ⟨0, 0⟩ = none ∧
    (IndexedRegistry.following []
      ((resume .sample fun _ => []).ledger sampleRenewed)).stored.find? ⟨0, 1⟩ = some 1 := by
  have hopened := Store.opened_new Store.made_sample.opened Store.made_sample.unlogged
  rcases indexes_agree sampleChanges hopened (fun _ => []) sampleRenewed with
    ⟨⟨hagrees, habove, -⟩, -, -, hstored⟩
  refine ⟨(hagrees.root.named "late" 2).mpr ⟨9, by decide +kernel, by decide +kernel⟩,
    by decide +kernel, habove.databases, ?_, ?_⟩
  · rw [hstored]
    decide +kernel
  · rw [hstored]
    decide +kernel

end Engine

end NestedColumns
