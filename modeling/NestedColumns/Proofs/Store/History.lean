import NestedColumns.Proofs.Store.Ledger
import NestedColumns.Proofs.Store.Opening

/-!
# Histories of a store

A store is made, used by any calls, and opened again any number of times, on disks that may
fail at any time. The operations of all transactions that were completed on the way can then
be replayed, and give the catalog as it is. The number of the next chunk is above those of all
chunks that were committed, and no number of a database or of a table was given out twice, also
not after it was dropped.

## Main definitions

* `Store.Opened`: A store is opened, and its log read back.
* `History`: An engine after calls and openings, with the transactions that were completed.
* `History.Kept`: The catalog is the replay of operations that gave out every number once.

## Theorems

* `Store.opened_new`: A store that is made has an empty log.
* `History.Kept.call`, `History.Kept.opened`: What a call keeps, and an opening.
* `History.kept`: What a whole history keeps.
* `History.run`: A history goes on with calls.
-/

namespace NestedColumns

/-- A store is opened on a disk, where its log is read back as some operations. -/
def Store.Opened (options : StoreOptions) (d : Disk) (s : Store) (ops : List Operation) : Prop :=
  ∃ d₁ d₂ d₃ log, d.makeAlong options.route = (d₁, .ok ()) ∧
    LogFile.openAt d₁ options.logPath = (d₂, .ok (log, ops)) ∧
      Store.openWith options d = (d₃, .ok s)

theorem Store.Opened.registry {options : StoreOptions} {d : Disk} {s : Store}
    {ops : List Operation} (h : Store.Opened options d s ops) :
    Registry.replay ops = .ok s.registry := by
  rcases h with ⟨d₁, d₂, d₃, log, hmake, hopen, hopened⟩
  rcases Store.openWith_eq_ok hopened with
    ⟨-, _, _, _, _, registry, hmake', hopen', hreplay, -, hs⟩
  rw [hmake, Prod.mk.injEq] at hmake'
  rw [← hmake'.1, hopen] at hopen'
  simp only [Prod.mk.injEq, Except.ok.injEq] at hopen'
  rw [hopen'.2.2, hreplay, hs]

theorem Store.Opened.options {options : StoreOptions} {d : Disk} {s : Store}
    {ops : List Operation} (h : Store.Opened options d s ops) : s.options = options := by
  rcases h with ⟨_, _, _, _, -, -, hopened⟩
  rcases Store.openWith_eq_ok hopened with ⟨-, _, _, _, _, _, -, -, -, -, hs⟩
  rw [hs]

theorem Store.opened_new {options : StoreOptions} {d d' : Disk} {s : Store}
    (h : Store.openWith options d = (d', .ok s)) (hnone : d.node? options.logPath = none) :
    Store.Opened options d s [] := by
  rcases (Store.openWith_new h hnone).unsaid with ⟨d₁, d₂, log, hmake, hopen⟩
  exact ⟨d₁, d₂, d', log, hmake, hopen, h⟩

/-- An engine after calls and openings, with the transactions that were completed. Opening a
    store again ends all sessions, and may be done on a disk that has changed in the meantime,
    as long as the log is read back. -/
inductive History (options : StoreOptions) : Usage → List (List Operation) → Prop
  | made {d : Disk} {s : Store} (h : Store.Opened options d s []) :
      History options (.ofStore s) []
  | call {u : Usage} {txs : List (List Operation)} (h : History options u txs) (c : Call) :
      History options (u.call c).1 (txs ++ u.completed c)
  | reopen {u : Usage} {txs : List (List Operation)} {d : Disk} {s : Store}
      (h : History options u txs) (hopened : Store.Opened options d s txs.flatten) :
      History options (.ofStore s) txs

namespace History

variable {options : StoreOptions} {u : Usage} {txs : List (List Operation)}

/-- The catalog is the replay of operations that gave out every number once. -/
structure Kept (c : Catalog) (ops : List Operation) : Prop where
  numbered : c.Numbered
  given : c.Given ops
  replayed : ∃ r, Registry.replay ops = .ok r ∧ r.catalog = c ∧
    ∀ ref chunk, .addChunk ref chunk ∈ ops → chunk.chunk < r.nextChunk

theorem kept_empty : Kept .empty [] where
  numbered := Catalog.numbered_empty
  given := Catalog.given_nil _
  replayed := ⟨.empty, rfl, rfl, fun _ _ h => absurd h List.not_mem_nil⟩

-- Opening a store again replays what gave its catalog.
theorem Kept.opened {c : Catalog} {d : Disk} {s : Store} {ops : List Operation} (h : Kept c ops)
    (hopened : Store.Opened options d s ops) : s.catalog = c := by
  have hregistry := hopened.registry
  rcases h.replayed with ⟨r, hreplay, hsame, -⟩
  rw [hreplay, Except.ok.injEq] at hregistry
  rw [Store.catalog, ← hregistry, hsame]

-- Operations that were applied to the catalog are replayed after all others.
theorem Kept.applyAll {r r' : Registry} {ops more : List Operation} (h : Kept r.catalog ops)
    (horderly : Operation.Orderly r.catalog more) (hall : r.applyAll more = (r', .ok ())) :
    Kept r'.catalog (ops ++ more) := by
  rcases h.replayed with ⟨r₀, hreplay, hsame, habove⟩
  rcases Registry.replay_append hreplay hsame hall with ⟨r₁, hreplay', hsame', hnext⟩
  have hnumbered := h.numbered.applyAll more
  rw [hall] at hnumbered
  refine ⟨hnumbered, h.given.applyAll h.numbered horderly hall, r₁, hreplay', hsame',
    fun ref chunk hin => ?_⟩
  rw [hnext]
  rcases List.mem_append.mp hin with hold | hnew
  · exact Nat.lt_of_lt_of_le (habove ref chunk hold) (Operation.le_chunksFrom _ _)
  · exact Operation.lt_chunksFrom hnew _

theorem Kept.call (h : Kept u.store.catalog txs.flatten) (c : Call) :
    Kept (u.call c).1.store.catalog (txs ++ u.completed c).flatten := by
  rcases Usage.completed_cases h.numbered c with ⟨hnone, hsame⟩ | ⟨r, r', happlied⟩
  · rw [hnone, List.append_nil, hsame]
    exact h
  · rw [happlied.completed, List.flatten_append, List.flatten_singleton, happlied.after]
    have horderly := happlied.orderly
    rw [← happlied.before] at h horderly
    exact h.applyAll horderly happlied.applied

theorem kept (h : History options u txs) : Kept u.store.catalog txs.flatten := by
  induction h with
  | made hopened =>
      rw [Usage.ofStore, kept_empty.opened hopened]
      exact kept_empty
  | call _ c ih => exact ih.call c
  | reopen _ hopened ih =>
      rw [Usage.ofStore, ih.opened hopened]
      exact ih

-- A run of calls adds the transactions of its ledger.
theorem run (h : History options u txs) (calls : List Call) :
    History options (u.run calls) (txs ++ u.ledger calls) := by
  induction calls generalizing u txs with
  | nil =>
      rw [Usage.ledger, List.append_nil]
      exact h
  | cons c rest ih =>
      rw [Usage.ledger, ← List.append_assoc]
      exact ih (h.call c)

end History

end NestedColumns
