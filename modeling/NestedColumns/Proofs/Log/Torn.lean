import NestedColumns.Log.File
import NestedColumns.Proofs.Disk.Writing
import NestedColumns.Proofs.Log.Replaying

/-!
# Logs whose last write was torn

A crash during the writing of a transaction leaves a start of it behind the transactions that
are complete. Where an entry is cut, its text runs out, so the log ends there: what is complete
counts, and what is not is cut off. That is so for every cut between two characters.

A cut within a character leaves bytes that are no text. The log is read as a text as a whole,
so no transaction of it is found then.

## Theorems

* `Utf8.read?_cut`: The bytes of a text that are cut off.
* `Replay.run_torn`: Nothing of a torn transaction counts.
* `Replay.ofBytes_torn`: Replaying a file that ends with a torn transaction.
* `LogFile.openAt_torn`: Opening a log whose last write was torn.
-/

namespace NestedColumns

/-! ### Bytes that are cut off -/

namespace Utf8

-- A character that is cut off is ill-formed, whichever of its bytes are left.
theorem decodeFrom_cut {c : Char} {part : List UInt8} (h : Cut part (String.utf8EncodeChar c))
    (hne : part ≠ []) : decodeFrom none part = [none] := by
  have hvalid : c.toNat < 0xD800 ∨ 0xDFFF < c.toNat ∧ c.toNat < 0x110000 := c.valid
  rw [String.utf8EncodeChar] at h
  generalize hv : c.val.toNat = v at h
  have hc : c.toNat = v := hv
  rw [hc] at hvalid
  by_cases h₁ : v ≤ 0x7f
  · rw [if_pos h₁] at h
    exact absurd (cut_singleton h) hne
  · by_cases h₂ : v ≤ 0x7ff
    · rw [if_neg h₁, if_pos h₂] at h
      rcases cut_cons h with hnil | ⟨more, rfl, hmore⟩
      · exact absurd hnil hne
      · rw [cut_singleton hmore, decodeFrom_first (by omega) (start_two (by omega) (by omega))]
        rfl
    · by_cases h₃ : v ≤ 0xffff
      · have hlow : (if v / 4096 % 16 + 0xE0 = 0xE0 then 0xA0 else 0x80) ≤ v / 64 % 64 + 0x80 := by
          split <;> omega
        have hhigh : v / 64 % 64 + 0x80 ≤ (if v / 4096 % 16 + 0xE0 = 0xED then 0x9F else 0xBF) := by
          split <;> omega
        rw [if_neg h₁, if_neg h₂, if_pos h₃] at h
        rcases cut_cons h with hnil | ⟨more, rfl, hmore⟩
        · exact absurd hnil hne
        · rw [decodeFrom_first (by omega) (start_three (by omega) (by omega))]
          rcases cut_cons hmore with rfl | ⟨last, rfl, hlast⟩
          · rfl
          · rw [cut_singleton hlast, decodeFrom_next hlow hhigh (by omega)]
            rfl
      · have hlow : (if v / 262144 % 8 + 0xF0 = 0xF0 then 0x90 else 0x80) ≤
            v / 4096 % 64 + 0x80 := by
          split <;> omega
        have hhigh : v / 4096 % 64 + 0x80 ≤
            (if v / 262144 % 8 + 0xF0 = 0xF4 then 0x8F else 0xBF) := by
          split <;> omega
        rw [if_neg h₁, if_neg h₂, if_neg h₃] at h
        rcases cut_cons h with hnil | ⟨more, rfl, hmore⟩
        · exact absurd hnil hne
        · rw [decodeFrom_first (by omega) (start_four (by omega) (by omega))]
          rcases cut_cons hmore with rfl | ⟨rest, rfl, hrest⟩
          · rfl
          · rw [decodeFrom_next hlow hhigh (by omega)]
            rcases cut_cons hrest with rfl | ⟨last, rfl, hlast⟩
            · rfl
            · rw [cut_singleton hlast, decodeFrom_next (by omega) (by omega) (by omega)]
              rfl

theorem mapM_id_eq_none {chars : List (Option Char)} (h : none ∈ chars) : chars.mapM id = none := by
  induction chars with
  | nil => exact absurd h List.not_mem_nil
  | cons c chars ih =>
      rw [List.mapM_cons]
      rcases List.mem_cons.mp h with rfl | hrest
      · rfl
      · rw [ih hrest]
        cases c <;> rfl

/-- The bytes of a text that are cut off are those of a shorter text, or they are no text. -/
theorem read?_cut {text : List Char} {part : List UInt8} (h : Cut part (encode text)) :
    (∃ shorter, Cut shorter text ∧ part = encode shorter) ∨
      ∀ before, read? (encode before ++ part) = none := by
  induction text generalizing part with
  | nil => exact absurd h not_cut_nil
  | cons c text ih =>
      have hcons : encode (c :: text) = String.utf8EncodeChar c ++ encode text := rfl
      rw [hcons] at h
      rcases cut_append h with hin | ⟨more, rfl, hmore⟩
      · by_cases hnil : part = []
        · exact Or.inl ⟨[], ⟨List.nil_prefix, (List.cons_ne_nil _ _).symm⟩, hnil⟩
        · refine Or.inr fun before => ?_
          rw [read?, decode_encode_append, decode, decodeFrom_cut hin hnil]
          exact mapM_id_eq_none (List.mem_append_right _ (List.mem_singleton.mpr rfl))
      · rcases ih hmore with ⟨shorter, hshorter, rfl⟩ | hnone
        · refine Or.inl ⟨c :: shorter, ⟨List.cons_prefix_cons.mpr ⟨rfl, hshorter.1⟩, fun heq =>
            hshorter.2 (List.cons.inj heq).2⟩, rfl⟩
        · refine Or.inr fun before => ?_
          have hmove : encode before ++ (String.utf8EncodeChar c ++ more) =
              encode (before ++ [c]) ++ more := by
            rw [encode, encode, List.flatMap_append, List.flatMap_singleton, List.append_assoc]
          rw [hmove]
          exact hnone (before ++ [c])

end Utf8

/-! ### Entries that are cut off -/

namespace LogEntry

theorem next_cut {e : LogEntry} (he : e.Readable) {part : List Char} (h : Cut part e.print) :
    Json.Reader.next LogEntry.reader part = .ok none ∨
      Json.Reader.next LogEntry.reader part = .error .incomplete := by
  rcases e.print_delimited with ⟨c, tail, hprint, hdelimited, hblank, -⟩
  rcases e.reads with ⟨ok, hreads, hok⟩
  have hhead : e.toJson.print.head?.all Json.Reader.isDelimited = true := by
    have htext : e.toJson.print = c :: tail := hprint
    rw [htext]
    exact hdelimited
  have hout := (hreads.scans.cut (hok.mpr he) part h).incomplete hhead
  rw [hprint] at h
  rcases cut_cons h with rfl | ⟨more, rfl, -⟩
  · exact Or.inl rfl
  · refine Or.inr ?_
    rw [Json.Reader.next, Json.skipBlanks_cons hblank]
    simp only [hout]

end LogEntry

namespace Replay

open LogEntry (transactions transaction)

variable {opened : Option (List Operation)} {done : List Operation} {tail : List Char}

theorem run_cut {e : LogEntry} (he : e.Readable) {part : List Char} (h : Cut part e.print)
    (fuel : Nat) : run fuel opened done tail part = .ok (done, tail) := by
  cases fuel with
  | zero => rfl
  | succ fuel =>
      rcases LogEntry.next_cut he h with hnext | hnext
      · rw [run, hnext]
      · rw [run, hnext]

-- The induction is on the operations whose entries are complete.
theorem run_operations_cut {ops : List Operation} (hops : ∀ op ∈ ops, op.Readable)
    {part : List Char}
    (h : Cut part ((ops.map .operation).flatMap LogEntry.print ++ LogEntry.closing.print))
    (fuel : Nat) (before : List Operation) :
    run fuel (some before) done tail part = .ok (done, tail) := by
  induction ops generalizing part fuel before with
  | nil => exact run_cut (e := .closing) trivial h fuel
  | cons op ops ih =>
      rw [List.map_cons, List.flatMap_cons, List.append_assoc] at h
      have hop : op.Readable := hops op List.mem_cons_self
      rcases cut_append h with hin | ⟨more, rfl, hmore⟩
      · exact run_cut (e := .operation op) hop hin fuel
      · have hapart : Json.Apart more := by
          refine Json.Apart.cut ?_ hmore
          cases ops with
          | nil => exact LogEntry.apart_print .closing []
          | cons next ops =>
              rw [List.map_cons, List.flatMap_cons, List.append_assoc]
              exact LogEntry.apart_print _ _
        cases fuel with
        | zero => rfl
        | succ fuel =>
            rcases run_operation fuel op hapart with ⟨-, hrun⟩ | ⟨hno, -⟩
            · rw [hrun]
              exact ih (fun op hop => hops op (List.mem_cons_of_mem _ hop)) hmore fuel _
            · exact absurd hop hno

/-- Nothing of a torn transaction counts, wherever its text is cut. -/
theorem run_torn {ops : List Operation} (hops : ∀ op ∈ ops, op.Readable) {part : List Char}
    (h : Cut part (transaction (ops.map .operation))) (fuel : Nat) :
    run fuel none done tail part = .ok (done, tail) := by
  rw [transaction, List.append_assoc] at h
  rcases cut_append h with hin | ⟨more, rfl, hmore⟩
  · exact run_cut (e := .opening) trivial hin fuel
  · have hapart : Json.Apart more := by
      refine Json.Apart.cut ?_ hmore
      cases ops with
      | nil => exact LogEntry.apart_print .closing []
      | cons op ops =>
          rw [List.map_cons, List.flatMap_cons, List.append_assoc]
          exact LogEntry.apart_print _ _
    cases fuel with
    | zero => rfl
    | succ fuel =>
        rw [run_opening fuel hapart]
        exact run_operations_cut hops hmore fuel []

/-- Behind complete transactions nothing of a torn one counts if its bytes are a text. If they
    are none, no transaction counts. -/
theorem ofBytes_torn {txs : List (List Operation)} {ops : List Operation}
    (hops : ∀ op ∈ txs.flatten ++ ops, op.Readable) {part : List UInt8}
    (h : Cut part (Utf8.encode (transaction (ops.map .operation)))) :
    (∃ text, Utf8.read? part = some text) ∧
        ofBytes (Utf8.encode (transactions txs) ++ part) =
          .ok ⟨txs.flatten, (Utf8.encode (transactions txs)).length⟩ ∨
      Utf8.read? part = none ∧
        ofBytes (Utf8.encode (transactions txs) ++ part) = .error .notText := by
  rcases Utf8.read?_cut h with ⟨shorter, hshorter, rfl⟩ | hnone
  · refine Or.inl ⟨⟨shorter, Utf8.read?_encode shorter⟩, ?_⟩
    have hjoin : Utf8.encode (transactions txs) ++ Utf8.encode shorter =
        Utf8.encode (transactions txs ++ shorter) := List.flatMap_append.symm
    have hapart : Json.Apart shorter := by
      refine Json.Apart.cut ?_ hshorter
      have hwhole := LogEntry.apart_transaction (ops.map .operation) []
      rwa [List.append_nil] at hwhole
    have hfuel : (transactions txs ++ shorter).length + 1 =
        (transactions txs ++ shorter).length - entryCount txs + 1 + entryCount txs := by
      have hle := entryCount_le txs
      rw [List.length_append]
      omega
    rw [hjoin, ofBytes, Utf8.read?_encode]
    simp only [ofText]
    rw [hfuel]
    rcases run_transactions txs [] ((transactions txs ++ shorter).length - entryCount txs + 1)
      hapart with ⟨-, hrun⟩ | ⟨hno, -⟩
    · rw [hrun, run_torn (fun op hop => hops op (List.mem_append_right _ hop)) hshorter,
        List.nil_append, Utf8.length_encode]
      have hlength : Utf8.byteLength (transactions txs ++ shorter) - Utf8.byteLength shorter =
          Utf8.byteLength (transactions txs) := by
        rw [← Utf8.length_encode, ← Utf8.length_encode, ← Utf8.length_encode, ← hjoin,
          List.length_append, Nat.add_sub_cancel]
      exact congrArg (fun n => Except.ok (Replay.mk txs.flatten n)) hlength
    · exact absurd (fun op hop => hops op (List.mem_append_left _ hop)) hno
  · have hpart := hnone []
    refine Or.inr ⟨hpart, ?_⟩
    rw [ofBytes, hnone]

end Replay

namespace LogFile

open LogEntry (transactions transaction)

variable {d : Disk} {path : Path} {file : Nat} {committed part : List UInt8}
  {ops : List Operation}

-- What is behind the committed bytes is cut off, if there is anything.
theorem replay_cut (hcontents : d.contentsOf file = committed ++ part)
    (hreplay : Replay.ofBytes (committed ++ part) = .ok ⟨ops, committed.length⟩)
    (hreliable : d.faults d.attempts = none) :
    ∃ d', replay d path file =
        (d', .ok (⟨path, file, committed.length, committed.length⟩, ops)) ∧
      d'.contentsOf file = committed ∧ d'.entries = d.entries := by
  rw [replay, hcontents]
  simp only [hreplay]
  by_cases hpart : committed.length < (committed ++ part).length
  · have hcut : d.perform (.truncate file path committed.length) =
        ((d.attempted.setContents file committed).noted (.truncate file path committed.length),
          .ok ()) := by
      have hsame : d.attempted.contentsOf file = committed ++ part := hcontents
      rw [Disk.perform, hreliable]
      simp only [Disk.apply, hsame, Disk.resize_append]
    rw [if_pos hpart, hcut]
    exact ⟨_, rfl, Disk.contentsOf_setContents d.attempted file committed, rfl⟩
  · rw [if_neg hpart]
    have hnil : part = [] := by
      rw [List.length_append] at hpart
      exact List.length_eq_zero_iff.mp (by omega)
    rw [hnil, List.append_nil] at hcontents
    exact ⟨d, rfl, hcontents, rfl⟩

/-- A log whose last write was torn is opened with the operations of its complete transactions,
    and is cut back to these, if the torn bytes are a text. If a character was torn, the log
    cannot be opened. -/
theorem openAt_torn {txs : List (List Operation)} {torn : List UInt8}
    (hfile : d.node? path = some (.file file))
    (hcontents : d.contentsOf file = Utf8.encode (transactions txs) ++ torn)
    (htorn : Cut torn (Utf8.encode (transaction (ops.map .operation))))
    (hops : ∀ op ∈ txs.flatten ++ ops, op.Readable)
    (hreliable : d.faults d.attempts = none) :
    (∃ text, Utf8.read? torn = some text) ∧
        (∃ d', openAt d path = (d', .ok (⟨path, file, (Utf8.encode (transactions txs)).length,
            (Utf8.encode (transactions txs)).length⟩, txs.flatten)) ∧
          d'.contentsOf file = Utf8.encode (transactions txs) ∧ d'.entries = d.entries) ∨
      Utf8.read? torn = none ∧ openAt d path = (d, .error (.log .notText)) := by
  have hopen : openAt d path = replay d path file := by
    rw [openAt, openFile, hfile]
  rw [hopen]
  rcases Replay.ofBytes_torn hops htorn with ⟨htext, hreplay⟩ | ⟨hnone, hreplay⟩
  · exact Or.inl ⟨htext, replay_cut hcontents hreplay hreliable⟩
  · refine Or.inr ⟨hnone, ?_⟩
    rw [replay, hcontents]
    simp only [hreplay]

/-- A log with a transaction, and behind it the first bytes of another. -/
def tornDisk (written : Nat) : Disk :=
  ⟨[(["log"], .file 0)], IdMap.empty.insert 0 (Utf8.encode (transactions [[.createDatabase 0 "d"]]) ++
    (Utf8.encode (transaction ([.createDatabase 1 "é"].map .operation))).take written), 1, 0,
      fun _ => none, []⟩

-- A name was torn behind a character of two bytes.
theorem openAt_torn_name :
    ∃ d', openAt (tornDisk 52) ["log"] = (d', .ok (⟨["log"], 0, 59, 59⟩, [.createDatabase 0 "d"])) ∧
      d'.contentsOf 0 = Utf8.encode (transactions [[.createDatabase 0 "d"]]) ∧
        d'.entries = (tornDisk 52).entries := by
  have hlength : 52 < (Utf8.encode (transaction
      ([Operation.createDatabase 1 "é"].map .operation))).length := by decide +kernel
  have hops : ∀ op ∈ [[Operation.createDatabase 0 "d"]].flatten ++ [.createDatabase 1 "é"],
      op.Readable := by
    intro op hop
    rcases List.mem_cons.mp hop with rfl | hop
    · exact ⟨by decide, (by decide : 0 < idBound)⟩
    · rw [List.mem_singleton.mp hop]
      exact ⟨by decide, (by decide : 1 < idBound)⟩
  have hfile : (tornDisk 52).node? ["log"] = some (.file 0) := rfl
  rcases openAt_torn hfile rfl (cut_take hlength) hops rfl with
    ⟨-, hopen⟩ | ⟨hnone, -⟩
  · have hcommitted : (Utf8.encode (transactions [[.createDatabase 0 "d"]])).length = 59 := by
      decide +kernel
    rw [hcommitted] at hopen
    exact hopen
  · exact absurd hnone (by decide +kernel)

-- With the first byte of that character no transaction of the log is found.
theorem openAt_torn_character :
    Cut ((Utf8.encode (transaction ([.createDatabase 1 "é"].map .operation))).take 51)
        (Utf8.encode (transaction ([.createDatabase 1 "é"].map .operation))) ∧
      openAt (tornDisk 51) ["log"] = (tornDisk 51, .error (.log .notText)) := by
  refine ⟨cut_take (by decide +kernel), ?_⟩
  have hnone : Utf8.read? ((tornDisk 51).contentsOf 0) = none := by decide +kernel
  have hopen : openAt (tornDisk 51) ["log"] = replay (tornDisk 51) ["log"] 0 := rfl
  rw [hopen, replay, Replay.ofBytes]
  simp only [hnone]

end LogFile

end NestedColumns
