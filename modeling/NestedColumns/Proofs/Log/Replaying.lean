import NestedColumns.Log.Replay
import NestedColumns.Proofs.Log.Entries
import NestedColumns.Proofs.Text.Utf8

/-!
# Logs that are replayed

A log holds one transaction after another. Replaying it gives back the operations of all
of them if each operation can be read back. If one cannot, the log counts as damaged.

## Main definitions

* `LogEntry.transactions`: The text of transactions.

## Theorems

* `LogEntry.next_print`: The next entry of a text that starts with one.
* `Replay.run_transactions`: Replaying the text of transactions.
* `Replay.ofBytes_transactions`: Replaying a file of transactions.
-/

namespace NestedColumns

open Json (Reader Apart)

namespace LogEntry

/-- An entry that is read back. -/
def Readable : LogEntry → Prop
  | .opening => True
  | .closing => True
  | .operation op => op.Readable

/-- The text of transactions. -/
def transactions (txs : List (List Operation)) : List Char :=
  txs.flatMap fun ops => transaction (ops.map .operation)

theorem reads (e : LogEntry) : ∃ ok, LogEntry.reader.Reads Json.maxNesting e.toJson ok e ∧
    (e.toJson.nesting ≤ Json.maxNesting ∧ ok ↔ e.Readable) := by
  cases e with
  | opening => exact ⟨True, reads_opening, ⟨fun _ => trivial, fun _ => ⟨Nat.zero_le _, trivial⟩⟩⟩
  | closing => exact ⟨True, reads_closing, ⟨fun _ => trivial, fun _ => ⟨Nat.zero_le _, trivial⟩⟩⟩
  | operation op => exact ⟨op.Bounded, reads_operation op, Iff.rfl⟩

-- An entry shows where it ends, so nothing has to stand behind it.
theorem print_delimited (e : LogEntry) : ∃ c rest, e.print = c :: rest ∧
    Json.Reader.isDelimited c = true ∧ Json.isBlank c = false ∧
      Json.isDigit c = false ∧ c ≠ '.' ∧ c ≠ 'e' ∧ c ≠ 'E' := by
  cases e with
  | opening => exact ⟨'"', _, rfl, by decide⟩
  | closing => exact ⟨'"', _, rfl, by decide⟩
  | operation op => cases op <;> exact ⟨'\x7b', _, rfl, by decide⟩

theorem print_ne_nil (e : LogEntry) : e.print ≠ [] := by
  rcases e.print_delimited with ⟨c, rest, hprint, -⟩
  rw [hprint]
  exact List.cons_ne_nil _ _

theorem apart_print (e : LogEntry) (rest : List Char) : Apart (e.print ++ rest) := by
  rcases e.print_delimited with ⟨c, tail, hprint, -, -, hapart⟩
  rw [hprint]
  exact Json.apart_cons _ hapart

theorem next_print (e : LogEntry) {rest : List Char} (hr : Apart rest) :
    e.Readable ∧ Reader.next LogEntry.reader (e.print ++ rest) = .ok (some (e, rest)) ∨
      ¬ e.Readable ∧ Reader.next LogEntry.reader (e.print ++ rest) = .error .malformed := by
  rcases e.print_delimited with ⟨c, tail, hprint, hdelimited, hblank, -⟩
  rcases e.reads with ⟨ok, hreads, hok⟩
  have hscans := hreads.scans.whole rest hr
  have htext : e.toJson.print = c :: tail := hprint
  rw [htext, List.cons_append] at hscans
  rw [← hok, hprint, List.cons_append, Reader.next, Json.skipBlanks_cons hblank]
  rcases hscans with ⟨hyes, hscan⟩ | ⟨hno, hscan⟩
  · refine Or.inl ⟨hyes, ?_⟩
    simp only [hscan, hdelimited, Bool.true_or, if_true]
  · refine Or.inr ⟨hno, ?_⟩
    simp only [hscan]

theorem apart_transaction (entries : List LogEntry) (rest : List Char) :
    Apart (transaction entries ++ rest) := by
  rw [transaction, List.append_assoc, List.append_assoc]
  exact apart_print _ _

theorem apart_transactions_append (txs : List (List Operation)) {rest : List Char}
    (hr : Apart rest) : Apart (transactions txs ++ rest) := by
  cases txs with
  | nil => exact hr
  | cons ops txs =>
      rw [transactions, List.flatMap_cons, List.append_assoc]
      exact apart_transaction _ _

end LogEntry

namespace Replay

open LogEntry (transactions transaction)

variable {opened : Option (List Operation)} {done : List Operation} {tail rest : List Char}

-- One step reads one entry.
theorem run_opening (fuel : Nat) (hr : Apart rest) :
    run (fuel + 1) opened done tail (LogEntry.opening.print ++ rest) =
      run fuel (some []) done tail rest := by
  rcases LogEntry.opening.next_print hr with ⟨-, hnext⟩ | ⟨hno, -⟩
  · rw [run, hnext]
  · exact absurd trivial hno

theorem run_closing (fuel : Nat) (ops : List Operation) (hr : Apart rest) :
    run (fuel + 1) (some ops) done tail (LogEntry.closing.print ++ rest) =
      run fuel none (done ++ ops) rest rest := by
  rcases LogEntry.closing.next_print hr with ⟨-, hnext⟩ | ⟨hno, -⟩
  · rw [run, hnext]
  · exact absurd trivial hno

theorem run_operation (fuel : Nat) (op : Operation) (hr : Apart rest) :
    op.Readable ∧ run (fuel + 1) opened done tail ((LogEntry.operation op).print ++ rest) =
        run fuel (opened.map (· ++ [op])) done tail rest ∨
      ¬ op.Readable ∧ run (fuel + 1) opened done tail ((LogEntry.operation op).print ++ rest) =
        .error .badEntry := by
  rcases (LogEntry.operation op).next_print hr with ⟨hyes, hnext⟩ | ⟨hno, hnext⟩
  · refine Or.inl ⟨hyes, ?_⟩
    rw [run, hnext]
  · refine Or.inr ⟨hno, ?_⟩
    rw [run, hnext]

-- The operations of a transaction are collected one after another, up to one that is not
-- read back.
theorem run_operations (ops before : List Operation) (fuel : Nat) (hr : Apart rest) :
    (∀ op ∈ ops, op.Readable) ∧
        run (fuel + ops.length) (some before) done tail
            ((ops.map .operation).flatMap LogEntry.print ++ rest) =
          run fuel (some (before ++ ops)) done tail rest ∨
      (¬ ∀ op ∈ ops, op.Readable) ∧
        run (fuel + ops.length) (some before) done tail
          ((ops.map .operation).flatMap LogEntry.print ++ rest) = .error .badEntry := by
  induction ops generalizing before with
  | nil =>
      refine Or.inl ⟨fun op hop => absurd hop List.not_mem_nil, ?_⟩
      rw [List.append_nil]
      rfl
  | cons op ops ih =>
      have hrest : Apart ((ops.map LogEntry.operation).flatMap LogEntry.print ++ rest) := by
        cases ops with
        | nil => exact hr
        | cons next ops =>
            rw [List.map_cons, List.flatMap_cons, List.append_assoc]
            exact LogEntry.apart_print _ _
      rw [List.map_cons, List.flatMap_cons, List.append_assoc, List.length_cons, ← Nat.add_assoc,
        List.forall_mem_cons]
      have hstep : op.Readable ∧ run (fuel + ops.length + 1) (some before) done tail
            ((LogEntry.operation op).print ++
              ((ops.map LogEntry.operation).flatMap LogEntry.print ++ rest)) =
          run (fuel + ops.length) (some (before ++ [op])) done tail
            ((ops.map LogEntry.operation).flatMap LogEntry.print ++ rest) ∨
        ¬ op.Readable ∧ run (fuel + ops.length + 1) (some before) done tail
          ((LogEntry.operation op).print ++
            ((ops.map LogEntry.operation).flatMap LogEntry.print ++ rest)) = .error .badEntry :=
        run_operation (fuel + ops.length) op hrest
      rcases hstep with ⟨hyes, hrun⟩ | ⟨hno, hrun⟩
      · rw [hrun]
        rcases ih (before ++ [op]) with ⟨hall, hmore⟩ | ⟨hnot, hmore⟩
        · refine Or.inl ⟨⟨hyes, hall⟩, ?_⟩
          rw [hmore, List.append_assoc, List.singleton_append]
        · exact Or.inr ⟨fun h => hnot h.2, hmore⟩
      · exact Or.inr ⟨fun h => hno h.1, hrun⟩

theorem run_transaction (ops : List Operation) (fuel : Nat) (hr : Apart rest) :
    (∀ op ∈ ops, op.Readable) ∧
        run (fuel + ops.length + 2) none done tail (transaction (ops.map .operation) ++ rest) =
          run fuel none (done ++ ops) rest rest ∨
      (¬ ∀ op ∈ ops, op.Readable) ∧
        run (fuel + ops.length + 2) none done tail (transaction (ops.map .operation) ++ rest) =
          .error .badEntry := by
  have hclosing : Apart (LogEntry.closing.print ++ rest) := LogEntry.apart_print _ _
  have hoperations : Apart
      ((ops.map .operation).flatMap LogEntry.print ++ (LogEntry.closing.print ++ rest)) := by
    cases ops with
    | nil => exact hclosing
    | cons op ops =>
        rw [List.map_cons, List.flatMap_cons, List.append_assoc]
        exact LogEntry.apart_print _ _
  have hfuel : fuel + ops.length + 2 = fuel + 1 + ops.length + 1 := by omega
  rw [transaction, List.append_assoc, List.append_assoc, hfuel, run_opening _ hoperations]
  rcases run_operations ops [] (fuel + 1) hclosing with ⟨hall, hrun⟩ | ⟨hnot, hrun⟩
  · refine Or.inl ⟨hall, ?_⟩
    rw [hrun, List.nil_append, run_closing fuel ops hr]
  · exact Or.inr ⟨hnot, hrun⟩

/-- How many entries transactions have. -/
def entryCount (txs : List (List Operation)) : Nat :=
  (txs.map fun ops => ops.length + 2).sum

theorem entryCount_le (txs : List (List Operation)) :
    entryCount txs ≤ (transactions txs).length := by
  have hprint : ∀ e : LogEntry, 1 ≤ e.print.length := fun e =>
    List.length_pos_iff.mpr e.print_ne_nil
  have hoperations : ∀ ops : List Operation,
      ops.length ≤ ((ops.map .operation).flatMap LogEntry.print).length := by
    intro ops
    induction ops with
    | nil => exact Nat.le_refl _
    | cons op ops ih =>
        have hop := hprint (.operation op)
        rw [List.map_cons, List.flatMap_cons, List.length_cons, List.length_append]
        omega
  induction txs with
  | nil => exact Nat.le_refl _
  | cons ops txs ih =>
      have hopening := hprint .opening
      have hclosing := hprint .closing
      have hmiddle := hoperations ops
      rw [entryCount] at ih
      rw [entryCount, List.map_cons, List.sum_cons, transactions, List.flatMap_cons,
        List.length_append, transaction, List.length_append, List.length_append]
      rw [transactions] at ih
      omega

/-- Between two transactions everything before is done, and the text that is left is what
    follows the last one. -/
theorem run_transactions (txs : List (List Operation)) (done : List Operation) (fuel : Nat)
    (hr : Apart rest) :
    (∀ op ∈ txs.flatten, op.Readable) ∧
        run (fuel + entryCount txs) none done (transactions txs ++ rest)
          (transactions txs ++ rest) = run fuel none (done ++ txs.flatten) rest rest ∨
      (¬ ∀ op ∈ txs.flatten, op.Readable) ∧
        run (fuel + entryCount txs) none done (transactions txs ++ rest)
          (transactions txs ++ rest) = .error .badEntry := by
  induction txs generalizing done with
  | nil =>
      refine Or.inl ⟨fun op hop => absurd hop List.not_mem_nil, ?_⟩
      rw [List.flatten_nil, List.append_nil]
      rfl
  | cons ops txs ih =>
      have hcount : fuel + entryCount (ops :: txs) =
          fuel + entryCount txs + ops.length + 2 := by
        rw [entryCount, entryCount, List.map_cons, List.sum_cons]
        omega
      have hcons : transactions (ops :: txs) ++ rest =
          transaction (ops.map .operation) ++ (transactions txs ++ rest) := List.append_assoc ..
      have hapart := LogEntry.apart_transactions_append txs hr
      have hstep : (∀ op ∈ ops, op.Readable) ∧
            run (fuel + entryCount txs + ops.length + 2) none done (transactions (ops :: txs) ++ rest)
              (transaction (ops.map .operation) ++ (transactions txs ++ rest)) =
            run (fuel + entryCount txs) none (done ++ ops) (transactions txs ++ rest)
              (transactions txs ++ rest) ∨
          (¬ ∀ op ∈ ops, op.Readable) ∧
            run (fuel + entryCount txs + ops.length + 2) none done (transactions (ops :: txs) ++ rest)
              (transaction (ops.map .operation) ++ (transactions txs ++ rest)) =
            .error .badEntry := run_transaction ops (fuel + entryCount txs) hapart
      rw [hcons] at hstep
      rw [hcount, hcons, List.flatten_cons, List.forall_mem_append]
      rcases hstep with ⟨hall, hrun⟩ | ⟨hnot, hrun⟩
      · rw [hrun]
        rcases ih (done ++ ops) with ⟨hmore, hlast⟩ | ⟨hno, hlast⟩
        · refine Or.inl ⟨⟨hall, hmore⟩, ?_⟩
          rw [hlast, List.append_assoc]
        · exact Or.inr ⟨fun h => hno h.2, hlast⟩
      · exact Or.inr ⟨fun h => hnot h.1, hrun⟩

theorem ofBytes_transactions (txs : List (List Operation)) :
    (∀ op ∈ txs.flatten, op.Readable) ∧
        ofBytes (Utf8.encode (transactions txs)) =
          .ok ⟨txs.flatten, (Utf8.encode (transactions txs)).length⟩ ∨
      (¬ ∀ op ∈ txs.flatten, op.Readable) ∧
        ofBytes (Utf8.encode (transactions txs)) = .error .badEntry := by
  have htext : ofBytes (Utf8.encode (transactions txs)) = ofText (transactions txs) := by
    rw [ofBytes, Utf8.read?_encode]
  have hfuel : (transactions txs).length + 1 =
      (transactions txs).length - entryCount txs + 1 + entryCount txs := by
    have hle := entryCount_le txs
    omega
  have hrun := run_transactions txs [] ((transactions txs).length - entryCount txs + 1)
    Json.apart_nil
  rw [List.append_nil, ← hfuel] at hrun
  rw [htext, ofText, Utf8.length_encode]
  rcases hrun with ⟨hall, hrun⟩ | ⟨hnot, hrun⟩
  · refine Or.inl ⟨hall, ?_⟩
    rw [hrun, List.nil_append]
    rfl
  · refine Or.inr ⟨hnot, ?_⟩
    rw [hrun]
    rfl

end Replay

end NestedColumns
