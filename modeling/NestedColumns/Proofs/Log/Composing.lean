import NestedColumns.Log.File
import NestedColumns.Proofs.Disk.Writing
import NestedColumns.Proofs.Json.Firm
import NestedColumns.Proofs.Log.Replaying

/-!
# Logs that are written on

A log is opened whatever its file holds, as long as that can be replayed: entries with blanks
between them, operations outside of transactions, transactions opened inside of others, a
tail that was cut off. What is kept of the file is the text up to the last closed transaction.
Replaying it comes to the same operations whatever follows, so transactions are written behind
it as behind one's own; and a transaction whose writing fails is cut off again.

## Main definitions

* `Replay.Closed`: A text that comes to the same operations whatever follows.
* `LogFile.Appends`: What is done to an open log.

## Theorems

* `Replay.closed_of_ofText`: What is kept of a text that is replayed.
* `LogFile.openAt_appends`: A log that was written on is opened again.
-/

namespace NestedColumns

open Json (Reader Takes Anything Apart)

/-! ### The readers of entries -/

theorem firm_tableRef : TableRef.reader.Firm Anything :=
  (Reader.firm_two _ _ (Reader.firm_natBelow _) (Reader.firm_natBelow _)).map _

theorem firm_chunkInfo : ChunkInfo.reader.Firm Anything :=
  (Reader.firm_three _ _ _ (Reader.firm_natBelow _) (Reader.firm_natBelow _)
    (Reader.firm_list (Reader.firm_natBelow _)).anyway).map _

theorem firm_dataType : DataType.reader.Firm Anything := by
  refine Reader.firm_tagged fun v hv => ?_
  rcases List.mem_map.mp hv with ⟨type, -, rfl⟩
  exact Reader.firm_bare type

theorem Schema.Node.firm_readerTo (depth : Nat) : (readerTo depth).Firm Anything := by
  induction depth with
  | zero => exact fun _ _ _ _ h => nomatch h
  | succ depth ih =>
      refine Reader.firm_tagged fun v hv => ?_
      rcases List.mem_cons.mp hv with rfl | hv
      · exact Reader.firm_holding (Reader.firm_two _ _ (Reader.firm_natBelow _)
          firm_dataType.anyway).anyway _
      · rcases List.mem_pair.mp hv with rfl | rfl
        · exact Reader.firm_holding (Reader.firm_list (Reader.firm_two _ _ Reader.firm_string.anyway
            ih.anyway).anyway).anyway _
        · exact Reader.firm_holding ih.anyway _

theorem Schema.firm_reader : Schema.reader.Firm Anything :=
  (Reader.firm_two _ _ (Reader.firm_list (Reader.firm_two _ _ Reader.firm_string.anyway
    (Node.firm_readerTo _).anyway).anyway).anyway (Reader.firm_natBelow _)).map _

theorem Operation.firm_variants : ∀ v ∈ Operation.variants, v.2.reader.Firm Apart := by
  have href : Reader.Firm Apart _ := firm_tableRef.anyway
  have hnat := Reader.firm_natBelow idBound
  have hstring : Reader.Firm Apart _ := Reader.firm_string.anyway
  intro v hv
  simp only [Operation.variants, List.mem_cons, List.not_mem_nil, or_false] at hv
  rcases hv with rfl | rfl | rfl | rfl | rfl | rfl
  · exact Reader.firm_holding (Reader.firm_two _ _ hnat hstring).anyway _
  · exact Reader.firm_holding (Reader.firm_one _ hnat).anyway _
  · exact Reader.firm_holding (Reader.firm_two _ _ href hstring).anyway _
  · exact Reader.firm_holding (Reader.firm_one _ href).anyway _
  · exact Reader.firm_holding (Reader.firm_two _ _ href Schema.firm_reader.anyway).anyway _
  · exact Reader.firm_holding (Reader.firm_two _ _ href firm_chunkInfo.anyway).anyway _

namespace LogEntry

/-- An entry is found before any other text. -/
theorem takes_next (e : LogEntry) :
    Takes 1 Anything fun cs rest => Reader.next LogEntry.reader cs = .ok (some (e, rest)) := by
  refine Reader.takes_next_tagged (fun v hv => ?_) e
  rcases List.mem_append.mp hv with hv | hv
  · rcases List.mem_map.mp hv with ⟨⟨tag, variant⟩, hin, rfl⟩
    have hfirm := Operation.firm_variants _ hin
    cases variant with
    | bare op => exact Reader.firm_bare _
    | holding reader => exact hfirm.map LogEntry.operation
  · rcases List.mem_pair.mp hv with rfl | rfl
    · exact Reader.firm_bare _
    · exact Reader.firm_bare _

end LogEntry

namespace Replay

open LogEntry (transaction transactions)

/-! ### Texts that are kept -/

/-- A text comes to these operations and leaves no transaction open, whatever follows that could
    be an entry. -/
def Closed (text : List Char) (ops : List Operation) : Prop :=
  ∃ entries ≤ text.length, ∀ fuel more, Apart more →
    run (fuel + entries) none [] (text ++ more) (text ++ more) = run fuel none ops more more

variable {text cs last : List Char} {ops : List Operation}

theorem closed_nil : Closed [] [] :=
  ⟨0, Nat.le_refl 0, fun _ _ _ => rfl⟩

theorem Closed.append (h : Closed text ops) {more : List Operation}
    (hread : ∀ op ∈ more, op.Readable) :
    Closed (text ++ transaction (more.map .operation)) (ops ++ more) := by
  rcases h with ⟨entries, hle, hrun⟩
  have hcount := entryCount_le [more]
  rw [entryCount, List.map_singleton, List.sum_singleton, transactions, List.flatMap_singleton]
    at hcount
  refine ⟨entries + (more.length + 2), ?_, fun fuel rest hrest => ?_⟩
  · rw [List.length_append]
    omega
  · have hfuel : fuel + (entries + (more.length + 2)) = fuel + more.length + 2 + entries := by omega
    rw [List.append_assoc, hfuel, hrun _ _ (LogEntry.apart_transaction _ _)]
    refine (run_transaction more fuel hrest).elim (fun hmore => hmore.2) fun hno => ?_
    exact absurd hread hno.1

/-- A text that was closed is replayed to its operations, and all of it is kept. -/
theorem Closed.ofText (h : Closed text ops) :
    Replay.ofText text = .ok ⟨ops, Utf8.byteLength text⟩ := by
  rcases h with ⟨entries, hle, hrun⟩
  have hall := hrun (text.length + 1 - entries) [] Json.apart_nil
  have hend : run (text.length + 1 - entries) none ops [] [] = .ok (ops, []) := by
    cases text.length + 1 - entries <;> rfl
  rw [List.append_nil, Nat.sub_add_cancel (Nat.le_succ_of_le hle), hend] at hall
  rw [Replay.ofText, hall]
  rfl

-- The induction is on the entries that are read. Before any other text they come to the same,
-- up to the last one that closes a transaction.
theorem run_split {fuel : Nat} {opened : Option (List Operation)} {done : List Operation}
    {tail : List Char} (h : run fuel opened done tail cs = .ok (ops, last)) :
    ops = done ∧ last = tail ∨
      ∃ text entries, cs = text ++ last ∧ entries ≤ text.length ∧ ∀ fuel more tail,
        run (fuel + entries) opened done tail (text ++ more) = run fuel none ops more more := by
  induction fuel generalizing opened done tail cs with
  | zero =>
      cases h
      exact Or.inl ⟨rfl, rfl⟩
  | succ fuel ih =>
      -- An entry that closes nothing is read, and the rest of the text is replayed.
      have hgo : ∀ {e : LogEntry} {rest : List Char} {opened' : Option (List Operation)},
          Reader.next LogEntry.reader cs = .ok (some (e, rest)) →
          (∀ {fuel tail cs rest}, Reader.next LogEntry.reader cs = .ok (some (e, rest)) →
            run (fuel + 1) opened done tail cs = run fuel opened' done tail rest) →
          run fuel opened' done tail rest = .ok (ops, last) →
          ops = done ∧ last = tail ∨
            ∃ text entries, cs = text ++ last ∧ entries ≤ text.length ∧ ∀ fuel more tail,
              run (fuel + entries) opened done tail (text ++ more) =
                run fuel none ops more more := by
        intro e rest opened' hnext hstep hrest
        rcases e.takes_next _ _ hnext with ⟨text, hlength, rfl, hmore⟩
        rcases ih hrest with hnone | ⟨text', entries, rfl, hle, hrun⟩
        · exact Or.inl hnone
        · refine Or.inr ⟨text ++ text', entries + 1, (List.append_assoc ..).symm, ?_, ?_⟩
          · rw [List.length_append]
            omega
          · intro fuel more tail
            rw [List.append_assoc, ← Nat.add_assoc, hstep (hmore (text' ++ more) trivial), hrun]
      have h' := h
      rw [run] at h'
      rcases hnext : Reader.next LogEntry.reader cs with fault | found
      · rw [hnext] at h'
        cases fault with
        | incomplete =>
            cases h'
            exact Or.inl ⟨rfl, rfl⟩
        | malformed => cases h'
      · rw [hnext] at h'
        rcases found with - | ⟨e, rest⟩
        · cases h'
          exact Or.inl ⟨rfl, rfl⟩
        · cases e with
          | opening => exact hgo hnext (fun hnext => by rw [run, hnext]) h'
          | operation op => exact hgo hnext (fun hnext => by rw [run, hnext]) h'
          | closing =>
              cases opened with
              | none => cases h'
              | some before =>
                  rcases LogEntry.closing.takes_next _ _ hnext with ⟨text, hlength, rfl, hmore⟩
                  have hstep : ∀ fuel more tail, run (fuel + 1) (some before) done tail
                      (text ++ more) = run fuel none (done ++ before) more more := by
                    intro fuel more tail
                    rw [run, hmore more trivial]
                  rcases ih h' with ⟨rfl, rfl⟩ | ⟨text', entries, rfl, hle, hrun⟩
                  · exact Or.inr ⟨text, 1, rfl, hlength, hstep⟩
                  · refine Or.inr ⟨text ++ text', entries + 1, (List.append_assoc ..).symm, ?_, ?_⟩
                    · rw [List.length_append]
                      omega
                    · intro fuel more tail
                      rw [List.append_assoc, ← Nat.add_assoc, hstep, hrun]

/-- Of a text that is replayed the part up to the last closed transaction is kept, and that part
    comes to the same operations. -/
theorem closed_of_ofText {committed : Nat} (h : Replay.ofText cs = .ok ⟨ops, committed⟩) :
    ∃ text last, cs = text ++ last ∧ committed = Utf8.byteLength text ∧ Closed text ops := by
  rw [Replay.ofText] at h
  rcases Outcome.map_eq_ok.mp h with ⟨⟨ops', last⟩, hrun, heq⟩
  cases heq
  rcases run_split hrun with ⟨rfl, rfl⟩ | ⟨text, entries, rfl, hle, hmore⟩
  · exact ⟨[], _, rfl, Nat.sub_self _, closed_nil⟩
  · refine ⟨text, last, rfl, ?_, entries, hle, fun fuel more _ => hmore fuel more _⟩
    rw [Utf8.byteLength, Utf8.byteLength, Utf8.byteLength, List.map_append, List.sum_append,
      Nat.add_sub_cancel]

end Replay

namespace LogFile

/-! ### Logs that are open -/

/-- What was written of a transaction was cut off again after its writing failed. -/
def RolledBack (log : LogFile) (d : Disk) (entries : List LogEntry) : Prop :=
  ((d.perform (.writeAt log.file log.path log.position
    (Utf8.encode (LogEntry.transaction entries)))).1.perform
      (.truncate log.file log.path log.committed)).2 = .ok ()

/-- What may come of a log on a disk: transactions are written, or their writing fails and is
    rolled back, and other files change in any way. The list has the transactions that were
    written. -/
inductive Appends (log : LogFile) (d : Disk) :
    List (List Operation) → LogFile → Disk → Prop where
  | start : Appends log d [] log d
  | written {txs : List (List Operation)} {ops : List Operation} {log' log'' : LogFile}
      {d' d'' : Disk} (before : Appends log d txs log' d')
      (call : log'.append d' (ops.map .operation) = (d'', .ok (), log'')) :
      Appends log d (txs ++ [ops]) log'' d''
  | undone {txs : List (List Operation)} {ops : List Operation} {log' log'' : LogFile}
      {d' d'' : Disk} {e : FileError} (before : Appends log d txs log' d')
      (call : log'.append d' (ops.map .operation) = (d'', .error e, log''))
      (back : log'.RolledBack d' (ops.map .operation)) :
      Appends log d txs log'' d''
  | elsewhere {txs : List (List Operation)} {log' : LogFile} {d' d'' : Disk}
      (before : Appends log d txs log' d')
      (there : d''.node? log'.path = d'.node? log'.path)
      (same : d''.contentsOf log'.file = d'.contentsOf log'.file) :
      Appends log d txs log' d''

/-- The file of an open log holds a text that comes to these operations, and the next
    transaction is written behind it. -/
structure Holds (log : LogFile) (d : Disk) (ops : List Operation) : Prop where
  there : d.node? log.path = some (.file log.file)
  position : log.position = (d.contentsOf log.file).length
  committed : log.committed = (d.contentsOf log.file).length
  closed : ∃ text, d.contentsOf log.file = Utf8.encode text ∧ Replay.Closed text ops

variable {log log' : LogFile} {d d' : Disk} {path : Path} {file : Nat}
  {ops more : List Operation}

theorem openFile_eq_ok (h : openFile d path = (d', .ok file)) :
    d'.node? path = some (.file file) := by
  rw [openFile] at h
  cases hnode : d.node? path with
  | none =>
      rw [hnode] at h
      simp only at h
      rcases hperform : d.perform (.createFile path []) with ⟨made, result⟩
      rw [hperform] at h
      cases result with
      | error e => cases h
      | ok _ =>
          simp only at h
          split at h
          · next number hfound =>
            cases h
            exact hfound
          · cases h
  | some node =>
      rw [hnode] at h
      cases node with
      | directory => cases h
      | file number =>
          cases h
          exact hnode

theorem truncate_eq_ok {length : Nat}
    (h : d.perform (.truncate file path length) = (d', .ok ())) :
    d'.entries = d.entries ∧ d'.contentsOf file = Disk.resize (d.contentsOf file) length := by
  rcases Disk.apply_of_perform_ok h with ⟨after, happly, rfl⟩
  cases happly
  exact ⟨rfl, Disk.contentsOf_setContents d.attempted file _⟩

-- A write behind all bytes leaves them, whatever part of it takes place.
theorem writeAt_end {bytes : List UInt8} {position : Nat} {result : Except FileError Unit}
    (hposition : position = (d.contentsOf file).length)
    (h : d.perform (.writeAt file path position bytes) = (d', result)) :
    d'.entries = d.entries ∧ ∃ part, d'.contentsOf file = d.contentsOf file ++ part ∧
      (result = .ok () → part = bytes) := by
  have hwritten : ∀ new after, d.attempted.apply (.writeAt file path position new) = .ok after →
      ∀ e, (after.noted e).entries = d.entries ∧
        (after.noted e).contentsOf file = d.contentsOf file ++ new := by
    intro new after happly e
    cases happly
    refine ⟨rfl, (Disk.contentsOf_setContents d.attempted file _).trans ?_⟩
    rw [hposition]
    exact Disk.overwrite_end _ _
  rcases Disk.perform_cases d (.writeAt file path position bytes) with
    ⟨fault, hfault⟩ | ⟨after, happly, hok⟩ | ⟨n, part, after, fault, htorn, happly, hfault⟩
  · rw [hfault] at h
    cases h
    exact ⟨rfl, [], (List.append_nil _).symm, fun h => nomatch h⟩
  · rw [hok] at h
    cases h
    have hall := hwritten bytes after happly (.writeAt file path position bytes)
    exact ⟨hall.1, bytes, hall.2, fun _ => rfl⟩
  · rw [hfault] at h
    cases h
    cases htorn
    exact ⟨(hwritten _ after happly _).1, _, (hwritten _ after happly _).2, fun h => nomatch h⟩

theorem node?_of_entries (h : d'.entries = d.entries) (path : Path) :
    d'.node? path = d.node? path := by
  rw [Disk.node?, Disk.node?, h]

/-- A log that was opened holds what it was opened with. -/
theorem holds_of_openAt (h : openAt d path = (d', .ok (log, ops))) :
    log.path = path ∧ Holds log d' ops := by
  rw [openAt] at h
  rcases hopen : openFile d path with ⟨d₁, result⟩
  rw [hopen] at h
  cases result with
  | error e => cases h
  | ok file =>
      have hthere := openFile_eq_ok hopen
      simp only [replay] at h
      cases hreplay : Replay.ofBytes (d₁.contentsOf file) with
      | error e =>
          rw [hreplay] at h
          cases h
      | ok r =>
          rw [hreplay] at h
          rw [Replay.ofBytes] at hreplay
          cases hread : Utf8.read? (d₁.contentsOf file) with
          | none =>
              rw [hread] at hreplay
              cases hreplay
          | some cs =>
              rw [hread] at hreplay
              rcases Replay.closed_of_ofText hreplay with ⟨text, last, rfl, hcommitted, hclosed⟩
              have hbytes : d₁.contentsOf file = Utf8.encode text ++ Utf8.encode last :=
                (Utf8.eq_encode_of_read? hread).trans List.flatMap_append
              have hlength : r.committed = (Utf8.encode text).length :=
                hcommitted.trans (Utf8.length_encode text).symm
              have hholds : ∀ d₂ : Disk, d₂.node? path = some (.file file) →
                  d₂.contentsOf file = Utf8.encode text →
                  Holds ⟨path, file, r.committed, r.committed⟩ d₂ r.operations := by
                intro d₂ hnode hcontents
                have hall : r.committed = (d₂.contentsOf file).length := by rw [hcontents, hlength]
                exact ⟨hnode, hall, hall, text, hcontents, hclosed⟩
              by_cases hless : r.committed < (d₁.contentsOf file).length
              · simp only [if_pos hless] at h
                rcases hperform : d₁.perform (.truncate file path r.committed) with ⟨d₂, result⟩
                rw [hperform] at h
                cases result with
                | error e => cases h
                | ok _ =>
                    cases h
                    rcases truncate_eq_ok hperform with ⟨hentries, hcontents⟩
                    rw [hbytes, hlength, Disk.resize_append] at hcontents
                    exact ⟨rfl, hholds _ ((node?_of_entries hentries path).trans hthere) hcontents⟩
              · simp only [if_neg hless] at h
                cases h
                rw [hbytes, List.length_append, hlength] at hless
                have hnil : Utf8.encode last = [] := List.length_eq_zero_iff.mp (by omega)
                rw [hnil, List.append_nil] at hbytes
                exact ⟨rfl, hholds _ hthere hbytes⟩

/-- Opening a log finds what its file holds, and changes nothing. -/
theorem Holds.openAt (h : Holds log d ops) :
    LogFile.openAt d log.path = (d, .ok (log, ops)) := by
  rcases h.closed with ⟨text, hcontents, hclosed⟩
  have hreplay : Replay.ofBytes (d.contentsOf log.file) =
      .ok ⟨ops, (d.contentsOf log.file).length⟩ := by
    rw [hcontents, Replay.ofBytes, Utf8.read?_encode, Utf8.length_encode]
    exact hclosed.ofText
  rw [LogFile.openAt, openFile, h.there]
  have hlog : log = ⟨log.path, log.file, (d.contentsOf log.file).length,
      (d.contentsOf log.file).length⟩ := by
    rw [LogFile.mk.injEq]
    exact ⟨rfl, rfl, h.position, h.committed⟩
  simp only [replay, hreplay, Nat.lt_irrefl, if_false]
  rw [← hlog]

theorem Holds.elsewhere (h : Holds log d ops) (there : d'.node? log.path = d.node? log.path)
    (same : d'.contentsOf log.file = d.contentsOf log.file) : Holds log d' ops where
  there := there.trans h.there
  position := by rw [same]; exact h.position
  committed := by rw [same]; exact h.committed
  closed := by rw [same]; exact h.closed

-- What a call does to the log, by the outcomes of its two changes of the file.
theorem append_cases {entries : List LogEntry} {result : Except FileError Unit}
    (h : log.append d entries = (d', result, log')) :
    (d.perform (.writeAt log.file log.path log.position
        (Utf8.encode (LogEntry.transaction entries))) = (d', .ok ()) ∧ result = .ok () ∧
      log' = ⟨log.path, log.file,
        log.position + (Utf8.encode (LogEntry.transaction entries)).length,
        log.committed + (Utf8.encode (LogEntry.transaction entries)).length⟩) ∨
    ∃ e d₁, d.perform (.writeAt log.file log.path log.position
        (Utf8.encode (LogEntry.transaction entries))) = (d₁, .error e) ∧ result = .error e ∧
      ∀ d₂, d₁.perform (.truncate log.file log.path log.committed) = (d₂, .ok ()) →
        d' = d₂ ∧ log' = ⟨log.path, log.file, log.committed, log.committed⟩ := by
  rw [append] at h
  simp only at h
  rcases hwrite : d.perform (.writeAt log.file log.path log.position
    (Utf8.encode (LogEntry.transaction entries))) with ⟨d₁, outcome⟩
  rw [hwrite] at h
  cases outcome with
  | ok _ =>
      cases h
      exact Or.inl ⟨rfl, rfl, rfl⟩
  | error e =>
      simp only at h
      refine Or.inr ⟨e, d₁, rfl, ?_, fun d₂ htruncate => ?_⟩
      · rcases htruncate : d₁.perform (.truncate log.file log.path log.committed) with ⟨d₂, last⟩
        rw [htruncate] at h
        cases last <;> cases h <;> rfl
      · rw [htruncate] at h
        cases h
        exact ⟨rfl, rfl⟩

/-- A transaction that is written stands behind what the log held. -/
theorem Holds.written (h : Holds log d ops) (hread : ∀ op ∈ more, op.Readable)
    (happend : log.append d (more.map .operation) = (d', .ok (), log')) :
    Holds log' d' (ops ++ more) := by
  rcases append_cases happend with ⟨hwrite, -, rfl⟩ | ⟨e, d₁, -, herror, -⟩
  · rcases writeAt_end h.position hwrite with ⟨hentries, part, hcontents, hpart⟩
    rcases h.closed with ⟨text, hbytes, hclosed⟩
    have hlength := congrArg List.length hcontents
    rw [hpart rfl, List.length_append] at hlength
    refine ⟨(node?_of_entries hentries log.path).trans h.there, ?_, ?_,
      text ++ LogEntry.transaction (more.map .operation), ?_, hclosed.append hread⟩
    · rw [h.position]
      exact hlength.symm
    · rw [h.committed]
      exact hlength.symm
    · rw [hcontents, hbytes, hpart rfl]
      exact List.flatMap_append.symm
  · cases herror

/-- Nothing is left of a transaction whose writing failed and was rolled back. -/
theorem Holds.undone {e : FileError} (h : Holds log d ops)
    (happend : log.append d (more.map .operation) = (d', .error e, log'))
    (hback : log.RolledBack d (more.map .operation)) : Holds log' d' ops := by
  rcases append_cases happend with ⟨-, hok, -⟩ | ⟨e', d₁, hwrite, -, hundo⟩
  · cases hok
  · rw [RolledBack, hwrite] at hback
    rcases htruncate : d₁.perform (.truncate log.file log.path log.committed) with ⟨d₂, last⟩
    rw [htruncate] at hback
    rw [show last = .ok () from hback] at htruncate
    rcases hundo d₂ htruncate with ⟨rfl, rfl⟩
    rcases writeAt_end h.position hwrite with ⟨hentries, part, hcontents, -⟩
    rcases truncate_eq_ok htruncate with ⟨hentries', hcontents'⟩
    rw [hcontents, h.committed, Disk.resize_append] at hcontents'
    refine ⟨(node?_of_entries (hentries'.trans hentries) log.path).trans h.there, ?_, ?_, ?_⟩
    · rw [hcontents']
      exact h.committed
    · rw [hcontents']
      exact h.committed
    · rw [hcontents']
      exact h.closed

theorem append_path {entries : List LogEntry} {result : Except FileError Unit}
    (h : log.append d entries = (d', result, log')) : log'.path = log.path := by
  rw [append] at h
  simp only at h
  split at h
  · cases h
    rfl
  · split at h
    · cases h
      rfl
    · cases h
      rfl

theorem Holds.appends {txs : List (List Operation)} (h : Holds log d ops)
    (hcalls : Appends log d txs log' d') (hread : ∀ op ∈ txs.flatten, op.Readable) :
    log'.path = log.path ∧ Holds log' d' (ops ++ txs.flatten) := by
  induction hcalls with
  | start =>
      rw [List.flatten_nil, List.append_nil]
      exact ⟨rfl, h⟩
  | written before call ih =>
      rw [List.flatten_append, List.flatten_singleton, List.forall_mem_append] at hread
      rcases ih hread.1 with ⟨hpath, hholds⟩
      rw [List.flatten_append, List.flatten_singleton, ← List.append_assoc]
      exact ⟨(append_path call).trans hpath, hholds.written hread.2 call⟩
  | undone before call back ih =>
      rcases ih hread with ⟨hpath, hholds⟩
      exact ⟨(append_path call).trans hpath, hholds.undone call back⟩
  | elsewhere before there same ih =>
      rcases ih hread with ⟨hpath, hholds⟩
      exact ⟨hpath, hholds.elsewhere there same⟩

/-- A log that was opened, whatever its file held, and written on is opened again with the
    operations it had at first and those of the transactions that were written since, and with
    nothing of those that failed. Opening it again changes nothing on the disk, so the next
    opening finds the same. -/
theorem openAt_appends {txs : List (List Operation)} {before after : Disk}
    (hopen : openAt before path = (d, .ok (log, ops))) (hcalls : Appends log d txs log' after)
    (hread : ∀ op ∈ txs.flatten, op.Readable) :
    openAt after path = (after, .ok (log', ops ++ txs.flatten)) := by
  rcases holds_of_openAt hopen with ⟨hpath, hholds⟩
  rcases hholds.appends hcalls hread with ⟨hpath', hlast⟩
  rw [← hpath, ← hpath']
  exact hlast.openAt

/-- A log with an operation outside of transactions, a transaction opened inside of another,
    blanks between entries, and an entry that was cut off. -/
def foreignText : List Char :=
  "\x7b\"DropDatabase\":\x7b\"database_id\":7\x7d\x7d \"Begin\"".toList ++
    "\x7b\"DropDatabase\":\x7b\"database_id\":7\x7d\x7d\n\"Begin\" ".toList ++
    "\x7b\"CreateDatabase\":\x7b\"name\":\"d\" , \"database_id\":0\x7d\x7d\t\"End\"\"Beg".toList

/-- A disk with that log, whose second change fails after three bytes. -/
def foreignDisk : Disk :=
  Disk.setContents ⟨[(["log"], .file 0)], .empty, 1, 0,
    fun attempt => if attempt = 1 then some 3 else none, []⟩ 0 (Utf8.encode foreignText)

theorem openAt_foreignDisk : openAt foreignDisk ["log"] =
    ((foreignDisk.attempted.setContents 0
        (Disk.resize (foreignDisk.attempted.contentsOf 0) 140)).noted (.truncate 0 ["log"] 140),
      .ok (⟨["log"], 0, 140, 140⟩, [.createDatabase 0 "d"])) := by
  have htext : Replay.ofText foreignText = .ok ⟨[.createDatabase 0 "d"], 140⟩ := by
    set_option maxRecDepth 20000 in rfl
  have hlength : Utf8.byteLength foreignText = 144 := by decide +kernel
  have hcontents : foreignDisk.contentsOf 0 = Utf8.encode foreignText :=
    Disk.contentsOf_setContents _ 0 _
  have hreplay : Replay.ofBytes (foreignDisk.contentsOf 0) =
      .ok ⟨[.createDatabase 0 "d"], 140⟩ := by
    rw [hcontents, Replay.ofBytes, Utf8.read?_encode]
    exact htext
  have hlonger : 140 < (foreignDisk.contentsOf 0).length := by
    rw [hcontents, Utf8.length_encode, hlength]
    decide
  have hopen : openAt foreignDisk ["log"] = replay foreignDisk ["log"] 0 := rfl
  rw [hopen, replay]
  simp only [hreplay, if_pos hlonger]
  rfl

-- The writing of one transaction fails and is rolled back, and another one is written.
theorem openAt_appends_foreign : ∃ d log, ∃ failed written : Disk × Except FileError Unit × LogFile,
    openAt foreignDisk ["log"] = (d, .ok (log, [.createDatabase 0 "d"])) ∧
    log.append d [.operation (.createDatabase 1 "e")] = failed ∧ failed.2.1 = .error .device ∧
    failed.2.2.append failed.1 [.operation (.dropDatabase 0)] = written ∧ written.2.1 = .ok () ∧
    openAt written.1 ["log"] =
      (written.1, .ok (written.2.2, [.createDatabase 0 "d", .dropDatabase 0])) := by
  refine ⟨_, _, _, _, openAt_foreignDisk, rfl, rfl, rfl, rfl, ?_⟩
  refine openAt_appends openAt_foreignDisk (.written (.undone .start
    (rfl : append _ _ ([Operation.createDatabase 1 "e"].map .operation) = _) ?_)
      (rfl : append _ _ ([Operation.dropDatabase 0].map .operation) = _)) ?_
  · unfold RolledBack
    rfl
  · intro op hop
    rw [List.mem_singleton.mp hop]
    exact ⟨by decide, (by decide : 0 < idBound)⟩

end LogFile

end NestedColumns
