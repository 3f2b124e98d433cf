import NestedColumns.Proofs.Column.Findings
import NestedColumns.Proofs.Projection.Links
import NestedColumns.RecordReader

/-!
# Cursors that go astray

Cursors are asked one after another, and the first that fails ends the step: those before it have
moved on, and one that fails to open a chunk has passed over all of it. So what a cursor comes upon
is compared with the documents that were stored, of which it has reached some place. As long as all
cursors give a document they go on together. Otherwise one of them is ahead for good, or gives
nothing any more.

## Main definitions

* `Finding.answers`: What several cursors answer.
* `Finding.StandFor`: What is found stands for documents that were stored.
* `Finding.AllAt`: The places that cursors have reached.
* `Finding.Astray`: A cursor has passed over a document, or gives nothing any more.
* `Finding.Turn`: What a step comes to.

## Theorems

* `Finding.StandFor.answer`: The next answer of one cursor.
* `Finding.AllAt.turn`: The next answers of all cursors.
-/

namespace NestedColumns

/-! ### One cursor -/

namespace Finding

/-- Findings stand for the documents that were stored: a document for itself, a bad page for those
    it had, and a bad chunk for at least one. -/
inductive StandFor : List Finding → List (List Triple) → Prop where
  | nil : StandFor [] []
  | document (triples : List Triple) {rest : List Finding} {documents : List (List Triple)}
      (h : StandFor rest documents) : StandFor (.document triples :: rest) (triples :: documents)
  | badPage (e : StoreError) (page : Page) {rest : List Finding} {documents : List (List Triple)}
      (h : StandFor rest documents) : StandFor (.badPage e :: rest) (page ++ documents)
  | badChunk (halt : Halt StoreError) {part : List (List Triple)} {rest : List Finding}
      {documents : List (List Triple)} (some : part ≠ []) (h : StandFor rest documents) :
      StandFor (.badChunk halt :: rest) (part ++ documents)

theorem StandFor.append {xs ys : List Finding} {documents others : List (List Triple)}
    (h : StandFor xs documents) (hy : StandFor ys others) :
    StandFor (xs ++ ys) (documents ++ others) := by
  induction h with
  | nil => exact hy
  | document triples _ ih => exact .document triples ih
  | badPage e page _ ih =>
      rw [List.append_assoc]
      exact .badPage e page ih
  | badChunk halt some _ ih =>
      rw [List.append_assoc]
      exact .badChunk halt some ih

theorem StandFor.flatMap {α : Type} {f : α → List Finding} {g : α → List (List Triple)}
    {xs : List α} (h : ∀ x ∈ xs, StandFor (f x) (g x)) :
    StandFor (xs.flatMap f) (xs.flatMap g) := by
  induction xs with
  | nil => exact .nil
  | cons x xs ih =>
      rw [List.flatMap_cons, List.flatMap_cons]
      exact (h x List.mem_cons_self).append (ih fun y hy => h y (List.mem_cons_of_mem _ hy))

/-- No document is given any more: there is nothing left, or a page that stays bad. -/
def Blocked : List Finding → Prop
  | [] => True
  | .badPage _ :: _ => True
  | _ => False

-- A cursor gives the document at its place and goes on to the next place. Otherwise it stays where
-- it is and gives nothing any more, or passes over a document.
theorem StandFor.answer {findings : List Finding} {documents : List (List Triple)} {p : Nat}
    (h : StandFor findings (documents.drop p)) :
    (∃ triples, documents[p]? = some triples ∧ (answer findings).1 = .ok (some triples) ∧
      ¬ Blocked findings ∧ StandFor (answer findings).2 (documents.drop (p + 1))) ∨
    (∀ triples, (Finding.answer findings).1 ≠ .ok (some triples)) ∧
      ∃ q, p ≤ q ∧ StandFor (Finding.answer findings).2 (documents.drop q) ∧
        (p < q ∨ Blocked (Finding.answer findings).2) := by
  generalize hdocuments : documents.drop p = ahead at h
  cases h with
  | nil => exact Or.inr ⟨fun _ hne => (nomatch hne), p, Nat.le_refl p, hdocuments ▸ .nil,
      Or.inr trivial⟩
  | document triples hrest =>
      refine Or.inl ⟨triples, ?_, rfl, id, ?_⟩
      · rw [← List.head?_drop, hdocuments, List.head?_cons]
      · rw [← List.tail_drop, hdocuments]
        exact hrest
  | badPage e page hrest =>
      exact Or.inr ⟨fun _ hne => (nomatch hne), p, Nat.le_refl p,
        hdocuments ▸ .badPage e page hrest, Or.inr trivial⟩
  | @badChunk halt part _ _ hpart hrest =>
      have hlength := List.length_pos_of_ne_nil hpart
      refine Or.inr ⟨fun _ hne => (nomatch hne), p + part.length, by omega, ?_,
        Or.inl (by omega)⟩
      rw [← List.drop_drop, hdocuments, List.drop_left]
      exact hrest

/-! ### All cursors -/

/-- The answers of cursors that come upon some findings, and what is left: the first that gives no
    answer ends the step. -/
def answers : List (List Finding) →
    Except (Halt StoreError) (List (Option (List Triple))) × List (List Finding)
  | [] => (.ok [], [])
  | findings :: rest =>
    match answer findings with
    | (.error halt, left) => (.error halt, left :: rest)
    | (.ok triples, left) =>
      match answers rest with
      | (.error halt, rest) => (.error halt, left :: rest)
      | (.ok others, rest) => (.ok (triples :: others), left :: rest)

variable {α : Type} {stored : α → Nat → List Triple} {documents : List α}

/-- What cursors come upon stands for the documents from some places on, each in its column. -/
inductive AllAt (stored : α → Nat → List Triple) (documents : List α) :
    List ProjectedColumn → List (List Finding) → List Nat → Prop where
  | nil : AllAt stored documents [] [] []
  | cons {column : ProjectedColumn} {findings : List Finding} {p : Nat}
      {columns : List ProjectedColumn} {others : List (List Finding)} {places : List Nat}
      (h : StandFor findings ((documents.map fun x => stored x column.column).drop p))
      (rest : AllAt stored documents columns others places) :
      AllAt stored documents (column :: columns) (findings :: others) (p :: places)

/-- The documents at some places. -/
structure Chosen (documents : List α) (places : List Nat) (chosen : List (Nat × α)) : Prop where
  places : chosen.map (·.1) = places
  documents : ∀ q ∈ chosen, documents[q.1]? = some q.2

/-- The entries of columns, each from a document of its own. -/
def entriesOf (stored : α → Nat → List Triple) (columns : List ProjectedColumn)
    (chosen : List (Nat × α)) : List (List Triple) :=
  List.zipWith (fun column q => stored q.2 column.column) columns chosen

/-- Of the cursors one has passed over a document, or gives nothing any more. -/
def Astray (places after : List Nat) (left : List (List Finding)) : Prop :=
  (∃ q ∈ places.zip after, q.1 < q.2) ∨ ∃ findings ∈ left, Blocked findings

theorem Astray.here {p q : Nat} {findings : List Finding} (h : p < q ∨ Blocked findings)
    (places after : List Nat) (left : List (List Finding)) :
    Astray (p :: places) (q :: after) (findings :: left) := by
  rcases h with hlt | hblocked
  · exact Or.inl ⟨(p, q), List.mem_cons_self, hlt⟩
  · exact Or.inr ⟨findings, List.mem_cons_self, hblocked⟩

theorem Astray.cons {places after : List Nat} {left : List (List Finding)}
    (h : Astray places after left) (p q : Nat) (findings : List Finding) :
    Astray (p :: places) (q :: after) (findings :: left) := by
  rcases h with ⟨pair, hin, hlt⟩ | ⟨others, hin, hblocked⟩
  · exact Or.inl ⟨pair, List.mem_cons_of_mem _ hin, hlt⟩
  · exact Or.inr ⟨others, List.mem_cons_of_mem _ hin, hblocked⟩

/-- What a step of all cursors comes to, and the places after it: all give the documents at their
    places and go on to the next ones, or there is not a document for each column and a cursor goes
    astray. -/
inductive Turn (stored : α → Nat → List Triple) (documents : List α)
    (columns : List ProjectedColumn) (findings : List (List Finding)) (places : List Nat) :
    Except (Halt StoreError) (List (Option (List Triple))) × List (List Finding) →
      List Nat → Prop where
  | given {found : List (Option (List Triple))} {chosen : List (Nat × α)}
      {left : List (List Finding)} {after : List Nat}
      (stand : AllAt stored documents columns left after) (next : after = places.map (· + 1))
      (choice : Chosen documents places chosen)
      (taken : ∀ emitted total, RecordReader.requireAll emitted total (columns.zip found) =
        .ok (entriesOf stored columns chosen))
      (free : ∀ f ∈ findings, ¬ Blocked f) :
      Turn stored documents columns findings places (.ok found, left) after
  | refused {answer : Except (Halt StoreError) (List (Option (List Triple)))}
      {left : List (List Finding)} {after : List Nat}
      (stand : AllAt stored documents columns left after)
      (later : List.Forall₂ (· ≤ ·) places after)
      (missing : ∀ found, answer = .ok found → ∀ emitted total, ∃ e,
        RecordReader.requireAll emitted total (columns.zip found) = .error e)
      (astray : Astray places after left) :
      Turn stored documents columns findings places (answer, left) after

variable {column : ProjectedColumn} {columns : List ProjectedColumn} {first : List Finding}
  {others : List (List Finding)} {p : Nat} {places after : List Nat}

theorem Turn.stands
    {step : Except (Halt StoreError) (List (Option (List Triple))) × List (List Finding)}
    (h : Turn stored documents columns others places step after) :
    AllAt stored documents columns step.2 after ∧ List.Forall₂ (· ≤ ·) places after := by
  cases h with
  | given stand next =>
      refine ⟨stand, ?_⟩
      rw [next, List.forall₂_map_right_iff]
      exact List.forall₂_same.mpr fun p _ => Nat.le_succ p
  | refused stand later => exact ⟨stand, later⟩

-- A cursor that gives a document leaves it to the others what comes of the step.
theorem Turn.document {x : α} {left : List Finding}
    (hfirst : answer first = (.ok (some (stored x column.column)), left))
    (hx : documents[p]? = some x) (hfree : ¬ Blocked first)
    (hleft : StandFor left ((documents.map fun x => stored x column.column).drop (p + 1)))
    (h : Turn stored documents columns others places (answers others) after) :
    Turn stored documents (column :: columns) (first :: others) (p :: places)
      (answers (first :: others)) ((p + 1) :: after) := by
  rw [answers, hfirst]
  generalize answers others = step at h
  cases h with
  | @given found chosen _ _ stand next choice taken free =>
      have hchoice : Chosen documents (p :: places) ((p, x) :: chosen) :=
        ⟨by rw [List.map_cons, choice.places], List.forall_mem_cons.mpr ⟨hx, choice.documents⟩⟩
      refine .given (.cons hleft stand) (by rw [List.map_cons, next]) hchoice
        (fun emitted total => ?_) (List.forall_mem_cons.mpr ⟨hfree, free⟩)
      · rw [List.zip_cons_cons, RecordReader.requireAll, taken]
        rfl
  | @refused answer _ _ stand later missing astray =>
      have hlater := List.Forall₂.cons (Nat.le_succ p) later
      cases answer with
      | error e =>
          exact .refused (.cons hleft stand) hlater (fun _ hfound => (nomatch hfound))
            (astray.cons p (p + 1) _)
      | ok found =>
          refine .refused (.cons hleft stand) hlater (fun all hall emitted total => ?_)
            (astray.cons p (p + 1) _)
          rcases missing found rfl emitted total with ⟨e, he⟩
          rw [Except.ok.injEq] at hall
          rw [← hall, List.zip_cons_cons, RecordReader.requireAll, he]
          exact ⟨e, rfl⟩

-- A cursor that gives no document goes astray, whether the step ends with it or not.
theorem Turn.other {q : Nat} (hnone : ∀ triples, (answer first).1 ≠ .ok (some triples))
    (hq : p ≤ q) (hastray : p < q ∨ Blocked (answer first).2)
    (hfirst : StandFor (answer first).2 ((documents.map fun x => stored x column.column).drop q))
    (hrest : AllAt stored documents columns others places)
    (h : Turn stored documents columns others places (answers others) after) :
    ∃ after', Turn stored documents (column :: columns) (first :: others) (p :: places)
      (answers (first :: others)) after' := by
  rw [answers]
  generalize answer first = step at hnone hastray hfirst
  rcases step with ⟨answer, left⟩
  cases answer with
  | error e =>
      exact ⟨_, .refused (.cons hfirst hrest)
        (.cons hq (List.forall₂_same.mpr fun p _ => Nat.le_refl p))
        (fun _ hfound => (nomatch hfound)) (.here hastray _ _ _)⟩
  | ok found =>
      cases found with
      | some triples => exact absurd rfl (hnone triples)
      | none =>
          rcases h.stands with ⟨hleft, hlater⟩
          generalize answers others = steps at hleft
          rcases steps with ⟨answer, lefts⟩
          cases answer with
          | error e =>
              exact ⟨_, .refused (.cons hfirst hleft) (.cons hq hlater)
                (fun _ hfound => (nomatch hfound)) (.here hastray _ _ _)⟩
          | ok found =>
              refine ⟨_, .refused (.cons hfirst hleft) (.cons hq hlater)
                (fun all hall emitted total => ?_) (.here hastray _ _ _)⟩
              rw [Except.ok.injEq] at hall
              rw [← hall]
              exact ⟨_, rfl⟩

/-- Whatever cursors come upon, a step comes to one of the two. -/
theorem AllAt.turn {findings : List (List Finding)}
    (h : AllAt stored documents columns findings places) :
    ∃ after, Turn stored documents columns findings places (answers findings) after := by
  induction h with
  | nil =>
      exact ⟨[], .given .nil rfl ⟨rfl, fun _ hin => absurd hin List.not_mem_nil⟩ (fun _ _ => rfl)
        fun _ hin => absurd hin List.not_mem_nil⟩
  | @cons column first p columns others places h rest ih =>
      rcases ih with ⟨after, hstep⟩
      rcases h.answer with ⟨triples, htriples, hanswer, hfree, hnext⟩ |
        ⟨hnone, q, hq, hnext, hastray⟩
      · rw [List.getElem?_map, Option.map_eq_some_iff] at htriples
        rcases htriples with ⟨x, hx, rfl⟩
        exact ⟨_, .document (Prod.ext hanswer rfl) hx hfree hnext hstep⟩
      · exact Turn.other hnone hq hastray hnext rest hstep

theorem AllAt.length {findings : List (List Finding)}
    (h : AllAt stored documents columns findings places) : places.length = columns.length := by
  induction h with
  | nil => rfl
  | cons _ _ ih => rw [List.length_cons, List.length_cons, ih]

-- What is chosen from one document are its entries.
theorem entriesOf_same {x : α} {chosen : List (Nat × α)} (hlength : chosen.length = columns.length)
    (h : ∀ q ∈ chosen, q.2 = x) :
    entriesOf stored columns chosen = Projection.streamsOf (stored x) columns := by
  induction columns generalizing chosen with
  | nil => rw [List.length_eq_zero_iff.mp hlength]; rfl
  | cons column columns ih =>
      cases chosen with
      | nil => cases hlength
      | cons q chosen =>
          have hrest := ih (Nat.succ.inj hlength) fun q hin => h q (List.mem_cons_of_mem _ hin)
          have hfirst := h q List.mem_cons_self
          have hcons : entriesOf stored (column :: columns) (q :: chosen) =
              stored q.2 column.column :: entriesOf stored columns chosen := rfl
          rw [hcons, hrest, hfirst]
          rfl

end Finding

end NestedColumns
