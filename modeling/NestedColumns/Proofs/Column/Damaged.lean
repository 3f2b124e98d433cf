import NestedColumns.Proofs.Column.Astray

/-!
# Reading damaged files

A reader may be called again after a call has failed, or has panicked where that was caught. Its
cursors have not moved on together then, and a record that is given later is put together from what
each of them has reached.

The files may be missing or damaged, as long as what can be read of them is what was stored. Until a
call fails, each record is that of the next document. From then on none is. A page that cannot be
read is tried again by every call, so that no record is given any more. Whatever else has failed
leaves a column ahead for good, and a record that is still given takes its entries from a later
document. Which of the other cursors have moved on by the failure does not matter for that.

## Main definitions

* `RecordReader.Calls`: A reader after some calls.
* `RecordReader.Course`: Where its cursors are by then.
* `RecordReader.Damaged`: Files of which something may be missing.

## Theorems

* `RecordReader.Stands.next`: What a call comes to.
* `RecordReader.Course.next`, `RecordReader.Course.calls`: Where the cursors are after one call, and
  after any number of them.
* `RecordReader.Calls.next_record`: What a record is put together from.
-/

namespace NestedColumns

namespace RecordReader

open Finding

/-! ### Calls of a reader -/

/-- What the cursors of a reader come upon. -/
def findings (u : Volume) (r : RecordReader) : List (List Finding) :=
  r.cursors.map (Cursor.findings u)

-- The induction is on the cursors; those before one that fails have moved on.
theorem stepCursors_bare (u : Volume) (cursors : List Cursor) :
    ∃ after, stepCursors u.bare cursors =
        (u.bare, (answers (cursors.map (Cursor.findings u))).1, after) ∧
      after.map (Cursor.findings u) =
        (answers (cursors.map (Cursor.findings u))).2 := by
  induction cursors with
  | nil => exact ⟨[], rfl, rfl⟩
  | cons cursor rest ih =>
      rcases Cursor.next_bare u cursor with ⟨cursor', hnext, hleft⟩
      rcases ih with ⟨after, hstep, hafter⟩
      rw [List.map_cons, stepCursors, hnext, answers]
      rcases hfound : answer (cursor.findings u) with ⟨answer, left⟩
      rw [hfound] at hleft
      cases answer with
      | error e => exact ⟨_, rfl, by rw [List.map_cons, hleft]⟩
      | ok triples =>
          simp only [hstep]
          rcases hothers : answers (rest.map (Cursor.findings u)) with ⟨others, lefts⟩
          rw [hothers] at hafter
          cases others with
          | error e => exact ⟨_, rfl, by rw [List.map_cons, hleft, hafter]⟩
          | ok others => exact ⟨_, rfl, by rw [List.map_cons, hleft, hafter]⟩

variable {src : Sources} {chunks : DiskChunk → Prop} {u v : Volume}

theorem stepCursors_finds {r : RecordReader} (hv : v.Mirrors src chunks u)
    (hr : r.From src chunks v.disk) :
    ∃ v' after, stepCursors v r.cursors = (v', (answers (r.findings u)).1, after) ∧
      after.map (Cursor.findings u) = (answers (r.findings u)).2 ∧
      v'.Mirrors src chunks u ∧ ∀ c ∈ after, c.From src chunks v'.disk := by
  rcases stepCursors_mirrors hv hr with ⟨v', answer, after, hstep, hbare, -, hmirrors, hfrom⟩
  rcases stepCursors_bare u r.cursors with ⟨after', hbare', hleft⟩
  rw [hbare', Prod.mk.injEq, Prod.mk.injEq] at hbare
  exact ⟨v', after, by rw [hstep, ← hbare.2.1]; rfl, hbare.2.2 ▸ hleft, hmirrors, hfrom⟩

variable {α : Type} {stored : α → Nat → List Triple} {documents : List α}

/-- A reader whose cursors stand before the documents at some places. -/
structure Stands (src : Sources) (chunks : DiskChunk → Prop) (u : Volume)
    (stored : α → Nat → List Triple) (documents : List α) (v : Volume) (r : RecordReader)
    (places : List Nat) : Prop where
  mirrors : v.Mirrors src chunks u
  files : r.From src chunks v.disk
  places : AllAt stored documents r.projection.reads (r.findings u) places

/-- What a call comes to: the reader and its places after it. -/
inductive Call (u : Volume) (stored : α → Nat → List Triple) (documents : List α)
    (r : RecordReader) (places : List Nat) :
    Except (Halt StoreError) (Option Record) → RecordReader → List Nat → Prop where
  | ended : Call u stored documents r places (.ok none) r places
  | record {record : Record} {chosen : List (Nat × α)} {cursors : List Cursor} {after : List Nat}
      (more : r.emitted < r.total) (next : after = places.map (· + 1))
      (choice : Chosen documents places chosen)
      (assembled : Assembly.assemble r.projection (entriesOf stored r.projection.reads chosen) =
        .ok record)
      (free : ∀ f ∈ r.findings u, ¬ Blocked f) :
      Call u stored documents r places (.ok (some record))
        ⟨r.projection, cursors, r.total, r.emitted + 1⟩ after
  | failed {halt : Halt StoreError} {cursors : List Cursor} {after : List Nat}
      (later : List.Forall₂ (· ≤ ·) places after)
      (astray : Astray places after (cursors.map (Cursor.findings u))) :
      Call u stored documents r places (.error halt) ⟨r.projection, cursors, r.total, r.emitted⟩
        after

-- Without columns there is nothing that could not be put together. Of the cursors that have gone on
-- to their next places all the same, the first has passed over a document.
theorem astray_of_not_assembled {p : Projection} {places : List Nat} {chosen : List (Nat × α)}
    {e : AssemblyError} (hlength : places.length = p.reads.length)
    (h : Assembly.assemble p (entriesOf stored p.reads chosen) = .error e)
    (left : List (List Finding)) : Astray places (places.map (· + 1)) left := by
  cases places with
  | nil =>
      rw [List.length_eq_zero_iff.mp hlength.symm, entriesOf, List.zipWith_nil_left,
        Assembly.assemble, List.zip_nil_right] at h
      cases h
  | cons q places => exact Or.inl ⟨(q, q + 1), List.mem_cons_self, Nat.lt_succ_self q⟩

theorem Stands.next {r : RecordReader} {places : List Nat}
    (h : r.Stands src chunks u stored documents v places) :
    ∃ v' answer r' after, r.next v = (v', answer, r') ∧
      r'.Stands src chunks u stored documents v' after ∧
      Call u stored documents r places answer r' after := by
  rw [RecordReader.next]
  by_cases hend : r.total ≤ r.emitted
  · rw [if_pos hend]
    exact ⟨v, _, r, places, rfl, h, .ended⟩
  · rw [if_neg hend]
    rcases stepCursors_finds h.mirrors h.files with ⟨v', cursors, hcursors, hleft, hmirrors, hfiles⟩
    rcases h.places.turn with ⟨after, hstep⟩
    have hafter := hstep.stands
    rw [hcursors]
    rw [← hleft] at hafter
    generalize answers (r.findings u) = step at hstep hleft
    cases hstep with
    | @given found chosen _ _ stand next choice taken free =>
        simp only [taken, bind, Except.bind]
        cases hassemble : Assembly.assemble r.projection
            (entriesOf stored r.projection.reads chosen) with
        | ok record =>
            exact ⟨v', _, _, after, rfl, ⟨hmirrors, hfiles, hafter.1⟩,
              .record (by omega) next choice hassemble free⟩
        | error e =>
            have hastray := astray_of_not_assembled h.places.length hassemble
            rw [← next] at hastray
            exact ⟨v', _, _, after, rfl, ⟨hmirrors, hfiles, hafter.1⟩, .failed hafter.2 (hastray _)⟩
    | @refused answer _ _ stand later missing astray =>
        cases answer with
        | error e =>
            exact ⟨v', _, _, after, rfl, ⟨hmirrors, hfiles, hafter.1⟩,
              .failed later (hleft ▸ astray)⟩
        | ok found =>
            rcases missing found rfl r.emitted r.total with ⟨e, he⟩
            simp only [he, bind, Except.bind]
            exact ⟨v', _, _, after, rfl, ⟨hmirrors, hfiles, hafter.1⟩,
              .failed later (hleft ▸ astray)⟩

/-! ### Runs of calls -/

/-- How many records an answer has. -/
def given : Except (Halt StoreError) (Option Record) → Nat
  | .ok (some _) => 1
  | _ => 0

/-- A reader after some calls, whatever they answered: how many records were given by then, and
    whether one of the calls has failed. -/
inductive Calls (r : RecordReader) (v : Volume) : Nat → Bool → RecordReader → Volume → Prop where
  | start : Calls r v 0 false r v
  | call {n : Nat} {failed : Bool} {r' r'' : RecordReader} {v' v'' : Volume}
      {answer : Except (Halt StoreError) (Option Record)} (before : Calls r v n failed r' v')
      (next : r'.next v' = (v'', answer, r'')) :
      Calls r v (n + given answer) (failed || !answer.isOk) r'' v''

/-- A reader after some calls: no cursor is behind the records that were given, all are abreast of
    them until a call fails, and from then on one is ahead or gives nothing any more. -/
structure Course (src : Sources) (chunks : DiskChunk → Prop) (u : Volume)
    (stored : α → Nat → List Triple) (documents : List α) (p : Projection) (n : Nat)
    (failed : Bool) (r : RecordReader) (v : Volume) (places : List Nat) : Prop where
  projection : r.projection = p
  total : r.total = documents.length
  emitted : r.emitted = n
  stands : r.Stands src chunks u stored documents v places
  behind : ∀ p ∈ places, n ≤ p
  abreast : failed = false → ∀ p ∈ places, p = n
  ahead : failed = true → (∃ p ∈ places, n < p) ∨ ∃ f ∈ r.findings u, Blocked f

section

variable {p : Projection} {n : Nat} {failed : Bool} {r : RecordReader} {places : List Nat}

-- A cursor that was not behind is not behind when it has moved on.
theorem later_behind {after : List Nat} (h : ∀ p ∈ places, n ≤ p)
    (hlater : List.Forall₂ (· ≤ ·) places after) : ∀ p ∈ after, n ≤ p := by
  induction hlater with
  | nil => exact h
  | cons hle _ ih =>
      rcases List.forall_mem_cons.mp h with ⟨hfirst, hrest⟩
      exact List.forall_mem_cons.mpr ⟨Nat.le_trans hfirst hle, ih hrest⟩

theorem Course.next (h : Course src chunks u stored documents p n failed r v places) :
    ∃ v' answer r' after, r.next v = (v', answer, r') ∧
      Call u stored documents r places answer r' after ∧
      Course src chunks u stored documents p (n + given answer) (failed || !answer.isOk) r' v'
        after := by
  rcases h.stands.next with ⟨v', answer, r', after, hnext, hstands, hcall⟩
  refine ⟨v', answer, r', after, hnext, hcall, ?_⟩
  cases hcall with
  | ended =>
      rw [show (failed || !(Except.ok none : Except (Halt StoreError) (Option Record)).isOk) = failed from
        Bool.or_false failed]
      exact ⟨h.projection, h.total, h.emitted, hstands, h.behind, h.abreast, h.ahead⟩
  | @record record _ _ _ more next choice assembled free =>
      rw [show (failed || !(Except.ok (some record) : Except (Halt StoreError) _).isOk) = failed from
        Bool.or_false failed]
      refine ⟨h.projection, h.total, congrArg (· + 1) h.emitted, hstands, ?_, ?_, ?_⟩
      · rw [next, List.forall_mem_map]
        exact fun p hp => Nat.succ_le_succ (h.behind p hp)
      · rw [next, List.forall_mem_map]
        exact fun hfailed p hp => congrArg (· + 1) (h.abreast hfailed p hp)
      · intro hfailed
        rcases h.ahead hfailed with ⟨p, hp, hlt⟩ | ⟨f, hf, hblocked⟩
        · rw [next]
          exact Or.inl ⟨p + 1, List.mem_map_of_mem hp, Nat.succ_lt_succ hlt⟩
        · exact absurd hblocked (free f hf)
  | @failed halt _ _ later astray =>
      rw [show (failed || !(Except.error halt : Except _ (Option Record)).isOk) = true from
        Bool.or_true failed]
      refine ⟨h.projection, h.total, h.emitted, hstands, later_behind h.behind later,
        fun hfailed => (nomatch hfailed), fun _ => ?_⟩
      rcases astray with ⟨⟨q, q'⟩, hin, hlt⟩ | hblocked
      · rcases List.of_mem_zip hin with ⟨hq, hq'⟩
        exact Or.inl ⟨q', hq', Nat.lt_of_le_of_lt (h.behind q hq) hlt⟩
      · exact Or.inr hblocked

-- The induction is on the calls.
theorem Course.calls {r' : RecordReader} {v' : Volume}
    (h : Course src chunks u stored documents p 0 false r v places)
    (hcalls : Calls r v n failed r' v') :
    ∃ places, Course src chunks u stored documents p n failed r' v' places := by
  induction hcalls with
  | start => exact ⟨places, h⟩
  | call _ next ih =>
      rcases ih with ⟨places, hcourse⟩
      rcases hcourse.next with ⟨v₁, answer, r₁, after, hnext, -, hafter⟩
      rw [hnext, Prod.mk.injEq, Prod.mk.injEq] at next
      rcases next with ⟨rfl, rfl, rfl⟩
      exact ⟨after, hafter⟩

end

/-! ### Damaged files -/

/-- A reader of a projection over some chunks, before the first record. -/
def ofChunks (p : Projection) (chunks : List DiskChunk) (total : Nat) : RecordReader :=
  ⟨p, p.reads.map fun column =>
    Cursor.ofChunks column.column ⟨column.maxRep, column.maxDef⟩ chunks, total, 0⟩

/-- What is found in the files of some chunks is what was stored in them: where a page can be read
    it holds the documents it held, and the columns that cannot be opened are those of chunks with
    documents. -/
def Damaged (v : Volume) (stored : α → Nat → List Triple) (held : DiskChunk → List α)
    (p : Projection) (chunks : List DiskChunk) : Prop :=
  ∀ column ∈ p.reads, ∀ chunk ∈ chunks,
    StandFor (v.chunkFindings column.column ⟨column.maxRep, column.maxDef⟩ chunk)
      ((held chunk).map fun x => stored x column.column)

variable {held : DiskChunk → List α} {p : Projection} {d : Disk} {backend : ReadBackend}
  {capacity : Nat} {parts : List DiskChunk}

-- Before the first call all cursors stand before the first document.
theorem Damaged.course (h : DiskChunk.Apart d parts)
    (hdamaged : Damaged (.ofDisk d backend capacity) stored held p parts) :
    Course (.ofChunks d parts) (· ∈ parts) (.ofDisk d backend capacity) stored
      (parts.flatMap held) p 0 false (ofChunks p parts (parts.flatMap held).length)
      (.ofDisk d backend capacity) (List.replicate p.reads.length 0) := by
  have hplaces : ∀ {columns : List ProjectedColumn}, (∀ column ∈ columns, ∀ chunk ∈ parts,
      StandFor ((Volume.ofDisk d backend capacity).chunkFindings column.column
        ⟨column.maxRep, column.maxDef⟩ chunk) ((held chunk).map fun x => stored x column.column)) →
      AllAt stored (parts.flatMap held) columns ((columns.map fun column =>
        Cursor.ofChunks column.column ⟨column.maxRep, column.maxDef⟩ parts).map
          (Cursor.findings (.ofDisk d backend capacity))) (List.replicate columns.length 0) := by
    intro columns hcolumns
    induction columns with
    | nil => exact .nil
    | cons column columns ih =>
        rcases List.forall_mem_cons.mp hcolumns with ⟨hfirst, hrest⟩
        refine .cons ?_ (ih hrest)
        rw [List.drop_zero, List.map_flatMap, Cursor.findings_ofChunks]
        exact .flatMap hfirst
  refine ⟨rfl, rfl, rfl, ⟨Volume.mirrors_ofDisk h backend capacity, ?_, hplaces hdamaged⟩,
    fun _ _ => Nat.zero_le _, fun _ q hq => List.eq_of_mem_replicate hq, fun hfailed => ?_⟩
  · intro c hin
    rcases List.mem_map.mp hin with ⟨column, -, rfl⟩
    exact Cursor.from_ofChunks _ _ _
  · cases hfailed

/-- A reader of files that may be missing or damaged, called again and again. Until a call fails,
    each record is that of the document whose number is the number of records given before. From
    then on a record may still be given, but it takes the entries of at least one column from a
    later document, and none from an earlier one. -/
theorem Calls.next_record {n : Nat} {failed : Bool} {r r' : RecordReader} {v' : Volume}
    {record : Record} (h : DiskChunk.Apart d parts)
    (hdamaged : Damaged (.ofDisk d backend capacity) stored held p parts)
    (hcalls : Calls (ofChunks p parts (parts.flatMap held).length) (.ofDisk d backend capacity) n
      failed r v)
    (hnext : r.next v = (v', .ok (some record), r')) :
    (failed = false → ∃ x, (parts.flatMap held)[n]? = some x ∧
      Assembly.assemble p (Projection.streamsOf (stored x) p.reads) = .ok record) ∧
    (failed = true → ∃ chosen : List (Nat × α), chosen.length = p.reads.length ∧
      (∀ q ∈ chosen, (parts.flatMap held)[q.1]? = some q.2 ∧ n ≤ q.1) ∧
      (∃ q ∈ chosen, n < q.1) ∧
      Assembly.assemble p (entriesOf stored p.reads chosen) = .ok record) := by
  rcases (hdamaged.course h).calls hcalls with ⟨places, hcourse⟩
  rcases hcourse.next with ⟨v₁, answer, r₁, after, hnext₁, hcall, -⟩
  rw [hnext, Prod.mk.injEq, Prod.mk.injEq] at hnext₁
  rcases hnext₁ with ⟨rfl, rfl, rfl⟩
  have hprojection := hcourse.projection
  have hlength := hcourse.stands.places.length
  cases hcall with
  | @record record chosen _ _ more next choice assembled free =>
      rw [hprojection] at assembled hlength
      rw [hcourse.total, hcourse.emitted] at more
      have hchosen : chosen.length = p.reads.length := by
        rw [← hlength, ← choice.places, List.length_map]
      have hplace : ∀ q ∈ chosen, q.1 ∈ places := fun q hq =>
        choice.places ▸ List.mem_map_of_mem hq
      constructor
      · intro hfailed
        have hsame : ∀ q ∈ chosen, q.2 = (parts.flatMap held)[n] := fun q hq => by
          have hq' := choice.documents q hq
          rw [hcourse.abreast hfailed q.1 (hplace q hq), List.getElem?_eq_getElem more,
            Option.some.injEq] at hq'
          exact hq'.symm
        refine ⟨_, List.getElem?_eq_getElem more, ?_⟩
        rw [← entriesOf_same hchosen hsame]
        exact assembled
      · intro hfailed
        refine ⟨chosen, hchosen, fun q hq => ⟨choice.documents q hq, ?_⟩, ?_, assembled⟩
        · exact hcourse.behind _ (hplace q hq)
        rcases hcourse.ahead hfailed with ⟨p, hp, hlt⟩ | ⟨f, hf, hblocked⟩
        · rw [← choice.places] at hp
          rcases List.mem_map.mp hp with ⟨q, hq, rfl⟩
          exact ⟨q, hq, hlt⟩
        · exact absurd hblocked (free f hf)

/-! ### A record of two documents -/

/-- The entries of three documents in two columns: the third has a value in the first column, and
    all have one in the second. -/
def strayStored (x column : Nat) : List Triple :=
  match x, column with
  | 2, 0 => [⟨some (.int 3), 0, 1⟩]
  | x, 1 => [⟨some (.int (Int64.ofNat (x + 1))), 0, 1⟩]
  | _, _ => []

/-- A chunk of two documents and one of the third. -/
def strayChunks : List DiskChunk :=
  [⟨["1"], 1, 2, [1]⟩, ⟨["2"], 2, 1, [0, 1]⟩]

/-- The documents of the chunks. -/
def strayHeld (chunk : DiskChunk) : List Nat :=
  if chunk.info.chunk = 1 then [0, 1] else [2]

/-- Of the files only those of the second column in the second chunk are there. -/
def strayDisk : Disk :=
  let file := Column.encode ⟨0, 1⟩ ⟨1024, .none⟩ [strayStored 2 1]
  (Disk.empty.addFile ["2", "1.col"] file.data).addFile ["2", "1.idx"] file.index

/-- A projection of both columns. -/
def strayProjection : Projection :=
  ⟨⟨[("a", .leaf 0 .integer), ("b", .leaf 1 .integer)], 2⟩,
    [⟨0, "a", .integer, [.member 0], []⟩, ⟨1, "b", .integer, [.member 1], []⟩], []⟩

/-- A record with a value in the second column only. -/
def strayRecord : Record :=
  ⟨strayProjection.schema.fields, .object [.absent, .value (.int 3)]⟩

/-- The disk without pages. -/
def strayVolume : Volume :=
  .ofDisk strayDisk .positioned 0

theorem apart_stray : DiskChunk.Apart strayDisk strayChunks where
  numbers := by
    intro chunk hin other hother hsame
    simp only [strayChunks, List.mem_cons, List.not_mem_nil, or_false] at hin hother
    rcases hin with rfl | rfl <;> rcases hother with rfl | rfl
    · rfl
    · exact absurd hsame (by decide)
    · exact absurd hsame (by decide)
    · rfl
  files := by decide +kernel

theorem damaged_stray :
    Damaged strayVolume strayStored strayHeld strayProjection strayChunks := by
  have hbad : ∀ halt part, part ≠ [] → StandFor [.badChunk halt] part := fun halt part hpart => by
    have hstand := StandFor.badChunk halt hpart .nil
    rwa [List.append_nil] at hstand
  have hmissing : strayVolume.chunkFindings 0 ⟨0, 1⟩ ⟨["1"], 1, 2, [1]⟩ =
      [.document [], .document []] := rfl
  have hread : strayVolume.chunkFindings 1 ⟨0, 1⟩ ⟨["2"], 2, 1, [0, 1]⟩ =
      [.document (strayStored 2 1)] := by decide +kernel
  intro column hcolumn chunk hchunk
  simp only [strayProjection, Projection.reads, List.append_nil, strayChunks, List.mem_cons,
    List.not_mem_nil, or_false] at hcolumn hchunk
  rcases hcolumn with rfl | rfl <;> rcases hchunk with rfl | rfl
  · exact hmissing ▸ .document _ (.document _ .nil)
  · exact hbad (.failed (.file .notFound)) [strayStored 2 0] (List.cons_ne_nil _ _)
  · exact hbad (.failed (.file .notFound)) [strayStored 0 1, strayStored 1 1] (List.cons_ne_nil _ _)
  · exact hread ▸ .document _ .nil

-- The first call fails in the second column. By then the first column has passed over a document,
-- and the second one over the chunk.
theorem calls_stray : ∃ r r', Calls (ofChunks strayProjection strayChunks 3) strayVolume 0 true r
    strayVolume ∧ r.next strayVolume = (strayVolume, .ok (some strayRecord), r') := by
  have hfirst : (ofChunks strayProjection strayChunks 3).next strayVolume = (strayVolume,
      .error (.failed (.file .notFound)), ⟨strayProjection, [⟨0, ⟨0, 1⟩, [⟨["2"], 2, 1, [0, 1]⟩], .missing 1⟩,
        ⟨1, ⟨0, 1⟩, [⟨["2"], 2, 1, [0, 1]⟩], .idle⟩], 3, 0⟩) := by
    rfl
  have hanswers : (answers ([⟨0, ⟨0, 1⟩, [⟨["2"], 2, 1, [0, 1]⟩], .missing 1⟩,
      ⟨1, ⟨0, 1⟩, [⟨["2"], 2, 1, [0, 1]⟩], .idle⟩].map (Cursor.findings strayVolume))).1 =
        .ok [some [], some (strayStored 2 1)] := by
    decide +kernel
  rcases stepCursors_bare strayVolume [⟨0, ⟨0, 1⟩, [⟨["2"], 2, 1, [0, 1]⟩], .missing 1⟩,
    ⟨1, ⟨0, 1⟩, [⟨["2"], 2, 1, [0, 1]⟩], .idle⟩] with ⟨after, hstep, -⟩
  rw [hanswers] at hstep
  refine ⟨_, ⟨strayProjection, after, 3, 1⟩, .call .start hfirst, ?_⟩
  have hbare : strayVolume.bare = strayVolume := rfl
  rw [hbare] at hstep
  rw [next, if_neg (by decide), hstep]
  rfl

theorem next_record_stray : ∃ r r', Calls (ofChunks strayProjection strayChunks 3) strayVolume 0
    true r strayVolume ∧ r.next strayVolume = (strayVolume, .ok (some strayRecord), r') ∧
      ∃ chosen : List (Nat × Nat), chosen.length = strayProjection.reads.length ∧
        (∀ q ∈ chosen, (strayChunks.flatMap strayHeld)[q.1]? = some q.2 ∧ 0 ≤ q.1) ∧
        (∃ q ∈ chosen, 0 < q.1) ∧ Assembly.assemble strayProjection
          (entriesOf strayStored strayProjection.reads chosen) = .ok strayRecord := by
  rcases calls_stray with ⟨r, r', hcalls, hnext⟩
  exact ⟨r, r', hcalls, hnext,
    (Calls.next_record apart_stray damaged_stray hcalls hnext).2 rfl⟩

-- No record was given yet, and this one is not that of any document.
theorem not_single_stray : ∃ r r', Calls (ofChunks strayProjection strayChunks 3) strayVolume 0
    true r strayVolume ∧ r.next strayVolume = (strayVolume, .ok (some strayRecord), r') ∧
      ∀ x ∈ strayChunks.flatMap strayHeld, Assembly.assemble strayProjection
        (Projection.streamsOf (strayStored x) strayProjection.reads) ≠ .ok strayRecord := by
  rcases calls_stray with ⟨r, r', hcalls, hnext⟩
  refine ⟨r, r', hcalls, hnext, fun x hx hsame => ?_⟩
  have hprinted := congrArg (Except.map Record.print) hsame
  simp only [show strayChunks.flatMap strayHeld = [0, 1, 2] from rfl, List.mem_cons,
    List.not_mem_nil, or_false] at hx
  rcases hx with rfl | rfl | rfl <;> exact absurd hprinted (by decide +kernel)

end RecordReader

end NestedColumns
