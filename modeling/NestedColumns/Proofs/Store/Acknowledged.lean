import NestedColumns.Proofs.Store.Faultless
import NestedColumns.Proofs.Store.Opening
import NestedColumns.Proofs.Store.Runs
import Mathlib.Data.List.Infix

/-!
# Which documents a session commits

A caller adds documents to a session one after another, whatever is answered to each, and
then closes it. Every time the session writes to the disk this may fail. A document is
refused if it does not fit, and then nothing has changed. Any other document is in the
session, also if the answer was that it could not be written: it is written with those that
follow, and committed when the session closes.

So the documents that are committed are those that were not refused, each once and in
order. They are those that were acknowledged only if no writing failed.

## Main definitions

* `Session.insertEach`: Adding documents, whatever is answered.
* `Session.taken`, `Session.acknowledged`: The documents with certain answers.
* `Session.Underway`: A session in use, on a disk with faults.

## Theorems

* `Session.insert_cases`: What became of a document.
* `Session.Underway.insert`, `Session.Underway.insertEach`: What a session holds on.
* `Session.Underway.close`: What is committed.
* `Session.close_insertEach`: A run of a session from opening to closing.
-/

namespace NestedColumns

open Store (Follows Outside TableHolds SessionHolds)

namespace Session

/-- Add documents one after another, whatever becomes of each, with what was answered. -/
def insertEach (session : Session) (s : Store) :
    List Json → Store × Session × List (Json × Except StoreError Unit)
  | [] => (s, session, [])
  | document :: rest =>
    let (s, session, answer) := session.insert s document
    let (s, session, answers) := insertEach session s rest
    (s, session, (document, answer) :: answers)

/-- The answer that a document does not fit. -/
def isRefusal : Except StoreError Unit → Bool
  | .error (.schema _) => true
  | _ => false

/-- The documents that were not refused. -/
def taken (answers : List (Json × Except StoreError Unit)) : List Json :=
  (answers.filter fun answered => !isRefusal answered.2).map (·.1)

/-- The documents that were added without an error. -/
def acknowledged (answers : List (Json × Except StoreError Unit)) : List Json :=
  (answers.filter fun answered => answered.2.isOk).map (·.1)

/-- A session in use. Faults of the disk are still to come, and do not matter for what its
    table and the session itself hold. -/
structure Underway (s : Store) (bodies : PageKey → Option (List UInt8)) (t : Table)
    (session : Session) (kept documents : List Taken) : Prop where
  store : s.faultless.Sound bodies
  table : s.catalog.table? t.ref = some t
  kept : s.TableHolds bodies t kept
  held : s.SessionHolds bodies t session documents

variable {s s' : Store} {session session' : Session} {bodies : PageKey → Option (List UInt8)}
  {t : Table} {kept documents : List Taken} {document : Json}

-- Writing is tried with the document in the session.
theorem insert_cases (session : Session) (s : Store) (document : Json) :
    (∃ e, session.insert s document = (s, session, .error (.schema e))) ∨
      ∃ accepted s' session' answer,
        session.accept s.options.mergeOptions document = .ok accepted ∧
        session.insert s document = (s', session', answer) ∧ isRefusal answer = false ∧
        ((s', session', answer) = (s, accepted, .ok ()) ∨
          accepted.flush s = (s', session', answer)) := by
  rw [insert]
  cases haccept : session.accept s.options.mergeOptions document with
  | error e => exact Or.inl ⟨e, rfl⟩
  | ok accepted =>
      simp only
      by_cases hfull : s.options.targetChunkSize ≤ accepted.buffer.estimatedSize
      · rw [if_pos hfull]
        rcases hflush : accepted.flush s with ⟨s', session', answer⟩
        refine Or.inr ⟨accepted, s', session', answer, rfl, rfl, ?_, Or.inr hflush⟩
        cases answer with
        | ok _ => rfl
        | error e =>
            cases e with
            | schema fault => exact absurd rfl ((flush_eq_error hflush).2 fault)
            | _ => rfl
      · rw [if_neg hfull]
        exact Or.inr ⟨accepted, s, accepted, .ok (), rfl, rfl, rfl, Or.inl rfl⟩

theorem Underway.flush {result : Except StoreError Unit}
    (h : Underway s bodies t session kept documents)
    (hflush : session.flush s = (s', session', result)) :
    ∃ bodies', Underway s' bodies' t session' kept documents := by
  rcases flush_kept h.store h.held h.kept.begun hflush with
    ⟨bodies', hfollows, hcatalog, hsound, hbodies, hheld⟩
  refine ⟨bodies', hsound, ?_, ?_, hheld⟩
  · rw [hcatalog]
    exact h.table
  · exact h.kept.follows hfollows (spares_lower h.kept.begun) hbodies

theorem Underway.insert (h : Underway s bodies t session kept documents) (document : Json) :
    ∃ bodies' more, Underway (session.insert s document).1 bodies' t
        (session.insert s document).2.1 kept (documents ++ more) ∧
      more.map (·.document) = taken [(document, (session.insert s document).2.2)] := by
  rcases insert_cases session s document with
    ⟨e, hinsert⟩ | ⟨accepted, s', session', answer, haccept, hinsert, hanswer, hcases⟩
  · rw [hinsert]
    exact ⟨bodies, [], by rw [List.append_nil]; exact h, rfl⟩
  · rcases accept_holds h.held haccept with ⟨hheld, -⟩
    have haccepted : Underway s bodies t accepted kept
        (documents ++ [⟨accepted.schema, document⟩]) := ⟨h.store, h.table, h.kept, hheld⟩
    have htaken : taken [(document, answer)] = [document] := by
      rw [taken, List.filter_cons_of_pos (by rw [hanswer]; rfl)]
      rfl
    rw [hinsert, htaken]
    rcases hcases with hsame | hflush
    · rw [Prod.mk.injEq, Prod.mk.injEq] at hsame
      rcases hsame with ⟨rfl, rfl, -⟩
      exact ⟨bodies, _, haccepted, rfl⟩
    · rcases haccepted.flush hflush with ⟨bodies', hflushed⟩
      exact ⟨bodies', _, hflushed, rfl⟩

-- The induction is on the documents that are still to be added.
theorem Underway.insertEach (h : Underway s bodies t session kept documents)
    (added : List Json) :
    ∃ bodies' more, Underway (session.insertEach s added).1 bodies' t
        (session.insertEach s added).2.1 kept (documents ++ more) ∧
      more.map (·.document) = taken (session.insertEach s added).2.2 := by
  induction added generalizing s session bodies documents with
  | nil => exact ⟨bodies, [], by rw [List.append_nil]; exact h, rfl⟩
  | cons document rest ih =>
      rcases h.insert document with ⟨bodies₁, one, hone, htaken⟩
      rw [Session.insertEach]
      rcases hinsert : session.insert s document with ⟨s₁, session₁, answer⟩
      rw [hinsert] at hone htaken
      rcases ih hone with ⟨bodies₂, more, hmore, hrest⟩
      rw [List.append_assoc] at hmore
      refine ⟨bodies₂, one ++ more, hmore, ?_⟩
      have hsplit : taken ((document, answer) :: (session₁.insertEach s₁ rest).2.2) =
          taken [(document, answer)] ++ taken (session₁.insertEach s₁ rest).2.2 := by
        rw [taken, ← List.singleton_append, List.filter_append, List.map_append]
        rfl
      rw [List.map_append, htaken, hrest]
      exact hsplit.symm

-- What a session holds when it closes is the table's.
theorem Underway.close (h : Underway s bodies t session kept documents)
    (hclose : session.close s = (s', .ok ())) :
    ∃ bodies' t', s'.catalog.table? t.ref = some t' ∧
      s'.TableHolds bodies' t' (kept ++ documents) := by
  rw [Session.close] at hclose
  rcases hflush : session.flush s with ⟨s₁, flushed, result⟩
  rw [hflush] at hclose
  cases result with
  | error e => cases hclose
  | ok _ =>
      simp only at hclose
      rcases hcommit : flushed.commit s₁ with ⟨s₂, outcome⟩
      rw [hcommit] at hclose
      cases outcome with
      | error e => cases hclose
      | ok _ =>
          rw [Prod.mk.injEq] at hclose
          have hbegun : ∀ c ∈ t.chunks, c.chunk < s.faultless.registry.nextChunk := h.kept.begun
          rcases flush_holds h.store (SessionHolds.faultless_iff.mpr h.held) hbegun with
            ⟨after, last, bodies', hsame, -, -, -, hsound, hbodies, hheld, hempty, -⟩
          rw [flush_faultless hflush, Prod.mk.injEq, Prod.mk.injEq] at hsame
          rcases hsame with ⟨rfl, rfl, -⟩
          rcases flush_follows session s with ⟨hfollows, -, hcatalog, -⟩
          rw [hflush] at hfollows hcatalog
          have htable : s₁.faultless.catalog.table? t.ref = some t :=
            (congrArg (Catalog.table? · t.ref) hcatalog).trans h.table
          have hkept : s₁.faultless.TableHolds bodies' t kept :=
            TableHolds.faultless_iff.mpr
              (h.kept.follows hfollows (spares_lower h.kept.begun) hbodies)
          rcases commit_holds hsound hheld htable hkept hempty with
            ⟨committed, t', hsame, -, -, -, ht', -, hholds⟩
          rw [commit_faultless hcommit, Prod.mk.injEq] at hsame
          rw [← hsame.1] at ht' hholds
          have hfree := Store.setWriters_follows (fun _ => True) s₂
            (s₂.writers.filter (· ≠ flushed.ref))
          rw [← hclose.1]
          exact ⟨bodies', t', ht', (TableHolds.faultless_iff.mp hholds).follows hfree
            (fun _ _ _ _ => trivial) fun _ _ => rfl⟩

/-! ### Answers -/

theorem insert_refused_iff {e : StoreError}
    (h : session.insert s document = (s', session', .error e)) :
    (s' = s ∧ session' = session) ↔ ∃ fault, e = .schema fault := by
  rcases insert_cases session s document with
    ⟨fault, hinsert⟩ | ⟨accepted, after, later, answer, haccept, hinsert, hanswer, hcases⟩
  · rw [h, Prod.mk.injEq, Prod.mk.injEq, Except.error.injEq] at hinsert
    exact ⟨fun _ => ⟨fault, hinsert.2.2⟩, fun _ => ⟨hinsert.1, hinsert.2.1⟩⟩
  · rw [h, Prod.mk.injEq, Prod.mk.injEq] at hinsert
    rcases hinsert with ⟨rfl, rfl, rfl⟩
    constructor
    · rintro ⟨-, hsame⟩
      rcases hcases with hok | hflush
      · rw [Prod.mk.injEq, Prod.mk.injEq] at hok
        cases hok.2.2
      · -- The session counts the document.
        have hleft := (flush_eq_error hflush).1
        rcases Outcome.bind_eq_ok.mp haccept with ⟨merged, -, hrest⟩
        rcases Outcome.bind_eq_ok.mp hrest with ⟨streams, -, haccepted⟩
        simp only [pure, Except.pure, Except.ok.injEq] at haccepted
        have hcount := congrArg Session.inserted haccepted
        rw [← hleft, hsame] at hcount
        exact absurd hcount (Nat.succ_ne_self _)
    · rintro ⟨fault, rfl⟩
      cases hanswer

theorem acknowledged_eq_taken_iff (answers : List (Json × Except StoreError Unit)) :
    acknowledged answers = taken answers ↔
      ∀ answered ∈ answers, ∀ e, answered.2 = .error e → ∃ fault, e = .schema fault := by
  have hle : ∀ answers, (acknowledged answers).length ≤ (taken answers).length := by
    intro answers
    rw [acknowledged, taken, List.length_map, List.length_map, ← List.countP_eq_length_filter,
      ← List.countP_eq_length_filter]
    refine List.countP_mono_left fun answered _ hok => ?_
    rcases answered with ⟨document, e | _⟩
    · cases hok
    · rfl
  induction answers with
  | nil => exact ⟨fun _ _ hin => absurd hin List.not_mem_nil, fun _ => rfl⟩
  | cons answered rest ih =>
      rw [List.forall_mem_cons]
      refine Iff.trans ?_ (and_congr_right fun _ => ih)
      rcases answered with ⟨document, e | _⟩
      · have hskip : acknowledged ((document, .error e) :: rest) = acknowledged rest := rfl
        rw [hskip]
        cases hrefusal : isRefusal (.error e) with
        | true =>
            have hskip' : taken ((document, .error e) :: rest) = taken rest := by
              rw [taken, List.filter_cons_of_neg (by rw [hrefusal]; decide)]
              rfl
            rw [hskip']
            refine ⟨fun hsame => ⟨fun e' he' => ?_, hsame⟩, fun hboth => hboth.2⟩
            rw [← Except.error.inj he']
            cases e with
            | schema fault => exact ⟨fault, rfl⟩
            | _ => cases hrefusal
        | false =>
            have hcons : taken ((document, .error e) :: rest) = document :: taken rest := by
              rw [taken, List.filter_cons_of_pos (by rw [hrefusal]; rfl)]
              rfl
            rw [hcons]
            refine ⟨fun hsame => ?_, fun hboth => ?_⟩
            · have hlength := congrArg List.length hsame
              have := hle rest
              rw [List.length_cons] at hlength
              omega
            · rcases hboth.1 e rfl with ⟨fault, rfl⟩
              cases hrefusal
      · have hcons : acknowledged ((document, .ok ()) :: rest) = document :: acknowledged rest := rfl
        have hcons' : taken ((document, .ok ()) :: rest) = document :: taken rest := rfl
        rw [hcons, hcons', List.cons.injEq]
        exact ⟨fun hsame => ⟨(fun _ he => by cases he), hsame.2⟩, fun hboth => ⟨rfl, hboth.2⟩⟩

/-! ### A run of a session -/

variable {options : StoreOptions} {d : Disk} {s s₁ s₂ s₃ : Store} {calls : List Call}
  {database name : String} {faults : Nat → Option Nat} {added : List Json}
  {answers : List (Json × Except StoreError Unit)}

-- The disk may fail at any attempt from the opening of the session on. An error means that
-- the document left no trace only if it was refused, and the documents that are committed are
-- those that were acknowledged only if all others were refused.
theorem close_insertEach (hmade : Store.Made options d s)
    (hsmall : ∀ before, before <+: calls → ((Usage.ofStore s).run before).Small)
    (hopen : (((Usage.ofStore s).run calls).store.setFaults faults).openSession database name =
      (s₁, .ok session))
    (hinsert : session.insertEach s₁ added = (s₂, session', answers))
    (hclose : session'.close s₂ = (s₃, .ok ())) :
    (∃ bodies t more, s₃.catalog.table? session.ref = some t ∧
      s₃.TableHolds bodies t (((Usage.ofStore s).run calls).kept session.ref ++ more) ∧
        more.map (·.document) = taken answers) ∧
    (acknowledged answers = taken answers ↔
      ∀ answered ∈ answers, ∀ e, answered.2 = .error e → ∃ fault, e = .schema fault) ∧
    ∀ (before after : Store) (old new : Session) (document : Json) (e : StoreError),
      old.insert before document = (after, new, .error e) →
        ((after = before ∧ new = old) ↔ ∃ fault, e = .schema fault) := by
  refine ⟨?_, acknowledged_eq_taken_iff answers,
    fun _ _ _ _ _ _ h => insert_refused_iff h⟩
  rcases (Usage.sound_ofStore hmade).run hsmall with ⟨bodies, hsound⟩
  generalize (Usage.ofStore s).run calls = u at hopen hsound ⊢
  have hback := Store.faultless_setFaults hsound.store.reliable faults
  rw [Store.openSession_eq] at hopen
  cases ht : (u.store.setFaults faults).tableNamed database name with
  | error e =>
      rw [ht] at hopen
      cases hopen
  | ok t =>
      rw [ht] at hopen
      by_cases hwritten : (u.store.setFaults faults).isWritten t.ref = true
      · simp only [if_pos hwritten] at hopen
        cases hopen
      · simp only [if_neg hwritten, Prod.mk.injEq, Except.ok.injEq] at hopen
        rcases hopen with ⟨rfl, rfl⟩
        have htable : u.store.catalog.table? t.ref = some t :=
          Store.table?_of_tableNamed hsound.store.catalog ht
        have hf := Store.setWriters_follows (fun _ => True) (u.store.setFaults faults)
          (t.ref :: (u.store.setFaults faults).writers)
        have hkept : (u.store.setFaults faults).TableHolds bodies t (u.kept t.ref) := by
          rw [← TableHolds.faultless_iff, hback]
          exact hsound.tables t.ref t htable
        have hbegun := hkept.follows hf (fun _ _ _ _ => trivial) fun _ _ => rfl
        have hstore : ((u.store.setFaults faults).setWriters
            (t.ref :: (u.store.setFaults faults).writers)).faultless.Sound bodies := by
          have hplain : (u.store.setFaults faults).faultless.Sound bodies := by
            rw [hback]
            exact hsound.store
          exact hplain.follows hf.faultless (fun _ _ => trivial) hplain.catalog
        have hunderway : Underway _ bodies t _ (u.kept t.ref) [] :=
          ⟨hstore, htable, hbegun, Usage.sessionHolds_new hbegun⟩
        rcases hunderway.insertEach added with ⟨bodies', more, hmore, htaken⟩
        rw [hinsert] at hmore htaken
        rw [List.nil_append] at hmore
        rcases hmore.close hclose with ⟨bodies'', t', ht', hholds⟩
        exact ⟨bodies'', t', more, ht', hholds, htaken⟩

/-- The calls before a session on a new table. -/
def sampleBefore : List Call :=
  [.createDatabase "d", .createTable "d" "t"]

/-- A session on a new table, which fails to make the directory of its first chunk. -/
def sampleOpened : Store × Except StoreError Session :=
  (((Usage.ofStore .sample).run sampleBefore).store.setFaults fun attempt =>
    if attempt = 4 then some 0 else none).openSession "d" "t"

/-- The session after three documents, the second of which does not fit. -/
def sampleInserted : Store × Session × List (Json × Except StoreError Unit) :=
  insertEach ⟨⟨0, 0⟩, "t", .empty, false, .empty, [], 0⟩ sampleOpened.1
    [.object [("a", .number (.whole 1))], .object [("a", .bool true)],
      .object [("a", .number (.whole 2))]]

theorem small_sampleBefore : ∀ before, before <+: sampleBefore →
    ((Usage.ofStore .sample).run before).Small := by
  have hall : ∀ before ∈ sampleBefore.inits, ((Usage.ofStore .sample).run before).Small := by
    decide +kernel
  exact fun before hbefore => hall before ((List.mem_inits _ _).mpr hbefore)

-- The first document could not be written when it was added, and is committed.
theorem close_insertEach_failed : ∃ bodies t more,
    (sampleInserted.2.1.close sampleInserted.1).1.catalog.table? ⟨0, 0⟩ = some t ∧
      (sampleInserted.2.1.close sampleInserted.1).1.TableHolds bodies t more ∧
        more.map (·.document) =
          [.object [("a", .number (.whole 1))], .object [("a", .number (.whole 2))]] := by
  have hopen : sampleOpened = (sampleOpened.1, .ok ⟨⟨0, 0⟩, "t", .empty, false, .empty, [], 0⟩) := rfl
  have hclose : sampleInserted.2.1.close sampleInserted.1 =
      ((sampleInserted.2.1.close sampleInserted.1).1, .ok ()) := rfl
  rcases (close_insertEach Store.made_sample small_sampleBefore hopen rfl hclose).1 with
    ⟨bodies, t, more, ht, hholds, htaken⟩
  exact ⟨bodies, t, more, ht, hholds, htaken.trans rfl⟩

-- Two documents are committed, but only one was acknowledged.
theorem not_acknowledged_of_failed :
    sampleInserted.2.1.close sampleInserted.1 =
        ((sampleInserted.2.1.close sampleInserted.1).1, .ok ()) ∧
      ¬ ∃ bodies t more,
        (sampleInserted.2.1.close sampleInserted.1).1.catalog.table? ⟨0, 0⟩ = some t ∧
          (sampleInserted.2.1.close sampleInserted.1).1.TableHolds bodies t more ∧
            more.map (·.document) = acknowledged sampleInserted.2.2 := by
  refine ⟨rfl, ?_⟩
  rintro ⟨bodies, t, more, ht, hholds, hmore⟩
  have hcount : ((sampleInserted.2.1.close sampleInserted.1).1.catalog.table? ⟨0, 0⟩).map
      Table.recordCount = some 2 := rfl
  have hlength := congrArg List.length hmore
  have hone : (acknowledged sampleInserted.2.2).length = 1 := rfl
  rw [ht, Option.map_some, Option.some.injEq, Store.recordCount_eq hholds] at hcount
  rw [List.length_map, hcount, hone] at hlength
  cases hlength

end Session

end NestedColumns
