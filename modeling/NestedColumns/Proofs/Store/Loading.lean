import NestedColumns.Proofs.Json.Sequences
import NestedColumns.Proofs.Store.Acknowledged
import NestedColumns.Store.Load

/-!
# Files of documents

A text holds documents if it is one array of them, or if they stand in it one after another. Which
of both it is can only be told at its first value. But a session takes nothing else than objects, so
what it takes of a file is all that the file holds if it takes anything at all.

A file is loaded in a session of its own. If the file holds documents and the session takes all of
them, the session is closed, and otherwise it is given up.

## Main definitions

* `DocumentFile.Holds`: The documents of a text.
* `Store.Accepts`: A session takes documents one after another.
* `Store.Inserts`: What is there when it was closed.

## Theorems

* `DocumentFile.documents_eq_ok`: The documents of a file without a fault.
* `Store.load_whole`, `Store.load_given_up`: How a file is loaded.
-/

namespace NestedColumns

open Json (maxNesting)

/-! ### The documents of a file -/

namespace DocumentFile

variable {room : Nat} {bytes : List UInt8} {documents : List Json}

/-- A text holds documents: it is one array of them, or they stand in it one after another. It opens
    no more than so many brackets at once. -/
def Holds (room : Nat) (text : List Char) (documents : List Json) : Prop :=
  Json.Spells room text (.array documents) ∨ Json.Sequence room text documents

/-- Objects are read from a file, and nothing else, exactly if its text holds them. -/
theorem documents_eq_ok (hobjects : ∀ v ∈ documents, ∃ members, v = .object members) :
    DocumentFile.documents bytes = (documents, none) ↔
      Holds maxNesting (Utf8.readWith '\x00' bytes) documents := by
  have hbracketed : ∀ v ∈ documents, v.isBracketed = true := by
    intro v hin
    rcases hobjects v hin with ⟨members, rfl⟩
    rfl
  have harray : ∀ v ∈ [Json.array documents], v.isBracketed = true := by
    intro v hin
    rw [List.mem_singleton.mp hin]
    rfl
  rw [DocumentFile.documents]
  constructor
  · intro h
    rcases hvalues : Json.Reader.values Json.document (Utf8.readWith '\x00' bytes) with ⟨vs, fault⟩
    rw [hvalues] at h
    unfold ofValues at h
    split at h
    · next inside heq =>
      rw [Prod.mk.injEq] at h heq
      rw [heq.1, heq.2, h.1, Json.values_eq_ok harray] at hvalues
      exact Or.inl ((Json.sequence_singleton rfl).mp hvalues)
    · cases h
    · next heq =>
      rw [Prod.mk.injEq] at heq
      rw [Prod.mk.injEq, Option.map_eq_none_iff, ← heq.1, ← heq.2] at h
      rw [h.1, h.2, Json.values_eq_ok hbracketed] at hvalues
      exact Or.inr hvalues
  · rintro (hspells | hsequence)
    · rw [(Json.values_eq_ok harray).mpr ((Json.sequence_singleton rfl).mpr hspells)]
      rfl
    · rw [(Json.values_eq_ok hbracketed).mpr hsequence]
      cases documents with
      | nil => rfl
      | cons v rest =>
          rcases hobjects v List.mem_cons_self with ⟨members, rfl⟩
          rfl

end DocumentFile

/-! ### What a session takes -/

namespace Session

variable {s s' : Store} {session session' : Session} {options : MergeOptions} {document : Json}
  {documents : List Json}

theorem accept_object (h : session.accept options document = .ok session') :
    ∃ members, document = .object members := by
  rcases Outcome.bind_eq_ok.mp h with ⟨merged, hmerge, -⟩
  unfold Schema.merge at hmerge
  split at hmerge
  · exact ⟨_, rfl⟩
  · cases hmerge

theorem accept_inserted (h : session.accept options document = .ok session') :
    session'.inserted = session.inserted + 1 := by
  rcases Outcome.bind_eq_ok.mp h with ⟨merged, -, hrest⟩
  rcases Outcome.bind_eq_ok.mp hrest with ⟨streams, -, hsession⟩
  simp only [pure, Except.pure, Except.ok.injEq] at hsession
  rw [← hsession]

theorem flush_inserted (session : Session) (s : Store) :
    (session.flush s).2.1.inserted = session.inserted := by
  have hflushes := session.flush_spec s
  generalize session.flush s = answer at hflushes ⊢
  cases hflushes <;> rfl

theorem insert_taken (h : session.insert s document = (s', session', .ok ())) :
    (∃ members, document = .object members) ∧ session'.inserted = session.inserted + 1 := by
  rcases insert_cases session s document with
    ⟨e, hrefused⟩ | ⟨accepted, after, later, answer, haccept, hinsert, -, hcases⟩
  · rw [h] at hrefused
    cases hrefused
  · refine ⟨accept_object haccept, ?_⟩
    rw [h, Prod.mk.injEq, Prod.mk.injEq] at hinsert
    rcases hinsert with ⟨rfl, rfl, rfl⟩
    rw [← accept_inserted haccept]
    rcases hcases with hsame | hflush
    · rw [Prod.mk.injEq, Prod.mk.injEq] at hsame
      rw [hsame.2.1]
    · have hcount := accepted.flush_inserted s
      rwa [hflush] at hcount

-- The induction is on the documents, up to the first that is refused.
theorem insertAll_taken (h : session.insertAll s documents = (s', session', .ok ())) :
    (∀ v ∈ documents, ∃ members, v = .object members) ∧
      session'.inserted = session.inserted + documents.length := by
  induction documents generalizing s session with
  | nil =>
      rw [insertAll, Prod.mk.injEq, Prod.mk.injEq] at h
      rw [h.2.1]
      exact ⟨fun _ hin => absurd hin List.not_mem_nil, rfl⟩
  | cons document rest ih =>
      rw [insertAll] at h
      rcases hinsert : session.insert s document with ⟨s₁, session₁, e | _⟩
      · rw [hinsert] at h
        cases h
      · rw [hinsert] at h
        rcases insert_taken hinsert with ⟨hobject, hcount⟩
        rcases ih h with ⟨hobjects, hmore⟩
        refine ⟨List.forall_mem_cons.mpr ⟨hobject, hobjects⟩, ?_⟩
        rw [hmore, hcount, List.length_cons]
        omega

end Session

/-! ### How a file is loaded -/

namespace Store

variable {s s₁ s₂ s₃ : Store} {session session' : Session} {database table : String}
  {bytes : List UInt8} {documents : List Json}

/-- A session on a table takes documents one after another. -/
def Accepts (s : Store) (database table : String) (documents : List Json) : Prop :=
  ∃ s₁ session s₂ session', s.openSession database table = (s₁, .ok session) ∧
    session.insertAll s₁ documents = (s₂, session', .ok ())

instance (s : Store) (database table : String) (documents : List Json) :
    Decidable (s.Accepts database table documents) :=
  match hopen : s.openSession database table with
  | (_, .error _) => .isFalse fun ⟨_, _, _, _, h, _⟩ => by
      rw [hopen] at h
      cases h
  | (s₁, .ok session) =>
    match hinsert : session.insertAll s₁ documents with
    | (s₂, session', .ok _) => .isTrue ⟨s₁, session, s₂, session', hopen, hinsert⟩
    | (_, _, .error _) => .isFalse fun ⟨_, _, _, _, h, h'⟩ => by
        rw [hopen, Prod.mk.injEq, Except.ok.injEq] at h
        rw [← h.1, ← h.2, hinsert] at h'
        cases h'

/-- A store after a session on a table has taken documents one after another and was closed. -/
def Inserts (s : Store) (database table : String) (documents : List Json) (s' : Store) : Prop :=
  ∃ s₁ session s₂ session', s.openSession database table = (s₁, .ok session) ∧
    session.insertAll s₁ documents = (s₂, session', .ok ()) ∧ session'.close s₂ = (s', .ok ())

theorem load_whole (hopen : s.openSession database table = (s₁, .ok session))
    (hinsert : session.insertAll s₁ documents = (s₂, session', .ok ()))
    (hclose : session'.close s₂ = (s₃, .ok ()))
    (hholds : DocumentFile.Holds maxNesting (Utf8.readWith '\x00' bytes) documents) :
    s.load database table bytes = (s₃, .ok session'.inserted) := by
  have hread := (DocumentFile.documents_eq_ok (Session.insertAll_taken hinsert).1).mpr hholds
  rw [load, hopen]
  simp only [Session.insertFile, hread, hinsert, hclose]

-- What the session has done until then is all that there is to give up.
theorem load_given_up (hopen : s.openSession database table = (s₁, .ok session))
    (hnone : ¬ ∃ documents, DocumentFile.Holds maxNesting (Utf8.readWith '\x00' bytes) documents ∧
      s.Accepts database table documents) :
    ∃ documents e, s.load database table bytes =
      (((session.insertAll s₁ documents).2.1.abort (session.insertAll s₁ documents).1).1,
        .error e) := by
  rcases hread : DocumentFile.documents bytes with ⟨documents, fault⟩
  refine ⟨documents, ?_⟩
  rw [load, hopen]
  simp only [Session.insertFile, hread]
  rcases hinsert : session.insertAll s₁ documents with ⟨s₂, session', e | _⟩
  · exact ⟨e, rfl⟩
  · cases fault with
    | some e => exact ⟨e, rfl⟩
    | none =>
        refine absurd ⟨documents, ?_, s₁, session, s₂, session', hopen, hinsert⟩ hnone
        exact (DocumentFile.documents_eq_ok (Session.insertAll_taken hinsert).1).mp hread

end Store

end NestedColumns
