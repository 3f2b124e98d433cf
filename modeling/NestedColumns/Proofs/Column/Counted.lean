import NestedColumns.Proofs.Column.Findings

/-!
# The documents of a column, counted

How many documents a chunk has is said three times: by the catalog, by the entries of the index, and
by the head of each page. Opening a column compares the first two. A page is taken apart by its
head, which is compared with nothing, so a cursor that comes to the end without an error has given
as many documents for a chunk as the heads of its pages say.

## Main definitions

* `Cursor.ReadsAll`: A cursor comes to the end without an error.
* `DiskChunk.Yields`: The documents that a chunk has for a column.
* `OpenColumn.headCount`, `DiskChunk.Agrees`: What the heads of pages count, and whether the index
  counts the same.

## Theorems

* `Cursor.readsAll_ofChunks`: What a cursor gives when it comes to the end.
* `DiskChunk.Yields.length_eq_iff`: A chunk gives all of its documents and no others if and only if
  the heads of its pages agree with the index.
* `Cursor.readsAll_counted`: The documents of each chunk.
-/

namespace NestedColumns

/-! ### Coming to the end -/

/-- A cursor gives some documents, one by one, and then there are no more. -/
inductive Cursor.ReadsAll : Volume → Cursor → List (List Triple) → Prop where
  | ended {v v' : Volume} {c c' : Cursor} (next : c.next v = (v', .ok none, c')) : ReadsAll v c []
  | document {v v' : Volume} {c c' : Cursor} {triples : List Triple}
      {documents : List (List Triple)} (next : c.next v = (v', .ok (some triples), c'))
      (rest : ReadsAll v' c' documents) : ReadsAll v c (triples :: documents)

section

variable {src : Sources} {chunks : DiskChunk → Prop} {u v : Volume} {c : Cursor}
  {documents : List (List Triple)}

theorem Finding.answer_eq_none {findings : List Finding} (h : (answer findings).1 = .ok none) :
    findings = [] := by
  cases findings with
  | nil => rfl
  | cons finding rest => cases finding <;> cases h

theorem Finding.answer_eq_some {findings : List Finding} {triples : List Triple}
    (h : (answer findings).1 = .ok (some triples)) :
    findings = .document triples :: (answer findings).2 := by
  cases findings with
  | nil => cases h
  | cons finding rest =>
      cases finding with
      | document found =>
          cases h
          rfl
      | badPage e => cases h
      | badChunk e => cases h

/-- A cursor comes to the end without an error if and only if it comes upon documents only. -/
theorem Cursor.readsAll_iff (hv : v.Mirrors src chunks u) (hc : c.From src chunks v.disk) :
    c.ReadsAll v documents ↔ c.findings u = documents.map .document := by
  constructor
  · intro h
    induction h with
    | ended next =>
        rcases next_finds hv hc with ⟨v₁, c₁, hnext, -⟩
        rw [hnext, Prod.mk.injEq, Prod.mk.injEq] at next
        exact Finding.answer_eq_none next.2.1
    | document next rest ih =>
        rcases next_finds hv hc with ⟨v₁, c₁, hnext, hleft, hv₁, hc₁, -⟩
        rw [hnext, Prod.mk.injEq, Prod.mk.injEq] at next
        rcases next with ⟨rfl, hanswer, rfl⟩
        rw [Finding.answer_eq_some hanswer, ← hleft, ih hv₁ hc₁, List.map_cons]
  · intro h
    induction documents generalizing v c with
    | nil =>
        rcases next_finds hv hc with ⟨v₁, c₁, hnext, -⟩
        rw [h] at hnext
        exact .ended hnext
    | cons triples documents ih =>
        rcases next_finds hv hc with ⟨v₁, c₁, hnext, hleft, hv₁, hc₁, -⟩
        rw [h] at hnext hleft
        exact .document hnext (ih hv₁ hc₁ hleft)

end

/-! ### Chunks -/

/-- How many documents the head of a page counts. -/
def Page.headCount (body : List UInt8) : Nat :=
  Bytes.ofLittle (body.take 4)

/-- A page is in the file of its column. -/
def Volume.Reads (v : Volume) (column : OpenColumn) (layout : PageLayout) (entry : PageEntry)
    (page : Page) : Prop :=
  ∃ body, v.loadPage column.file entry = .ok body ∧ Page.decode layout body = .ok page

/-- The documents that a chunk has for a column: those of its pages, or empty ones. -/
inductive DiskChunk.Yields (v : Volume) (column : Nat) (layout : PageLayout) (chunk : DiskChunk) :
    List (List Triple) → Prop where
  | missing (opened : v.openColumn chunk column = .ok none) :
      Yields v column layout chunk (List.replicate chunk.info.recordCount [])
  | stored {c : OpenColumn} {pages : List Page} (opened : v.openColumn chunk column = .ok (some c))
      (read : List.Forall₂ (v.Reads c layout) c.index pages) :
      Yields v column layout chunk pages.flatten

/-- How many documents the heads of the pages of a column count. -/
def OpenColumn.headCount (v : Volume) (c : OpenColumn) : Nat :=
  (c.index.map fun entry => ((v.loadPage c.file entry).toOption.map Page.headCount).getD 0).sum

/-- The heads of the pages that a chunk has for a column count as many documents as its index. -/
def DiskChunk.Agrees (v : Volume) (column : Nat) (chunk : DiskChunk) : Prop :=
  ∀ c, v.openColumn chunk column = .ok (some c) → c.headCount v = PageIndex.recordCount c.index

-- What is put together from parts has the form of a list if each part has.
theorem flatMap_eq_map_iff {α β γ : Type} {f : α → List γ} {g : β → γ} {xs : List α} {ys : List β} :
    xs.flatMap f = ys.map g ↔
      ∃ parts, List.Forall₂ (fun x part => f x = part.map g) xs parts ∧ ys = parts.flatten := by
  induction xs generalizing ys with
  | nil =>
      simp only [List.flatMap_nil, List.forall₂_nil_left_iff, exists_eq_left, List.flatten_nil]
      rw [eq_comm, List.map_eq_nil_iff]
  | cons x xs ih =>
      rw [List.flatMap_cons, eq_comm, List.map_eq_append_iff]
      constructor
      · rintro ⟨part, rest, rfl, hpart, hrest⟩
        rcases ih.mp hrest.symm with ⟨parts, hparts, rfl⟩
        exact ⟨part :: parts, .cons hpart.symm hparts, List.flatten_cons.symm⟩
      · rintro ⟨parts, hparts, rfl⟩
        rcases List.forall₂_cons_left_iff.mp hparts with ⟨part, rest, hpart, hrest, rfl⟩
        exact ⟨part, rest.flatten, List.flatten_cons, hpart.symm, (ih.mpr ⟨rest, hrest, rfl⟩).symm⟩

section

variable {v : Volume} {column : Nat} {layout : PageLayout} {chunk : DiskChunk}
  {documents : List (List Triple)}

theorem Finding.map_document_injective {xs ys : List (List Triple)}
    (h : xs.map Finding.document = ys.map Finding.document) : xs = ys :=
  List.map_injective_iff.mpr (fun _ _ hxy => by cases hxy; rfl) h

theorem Volume.pageFindings_eq_iff {c : OpenColumn} {entry : PageEntry} {page : Page} :
    v.pageFindings c layout entry = page.map .document ↔ v.Reads c layout entry page := by
  have hbad : ∀ e, [Finding.badPage e] ≠ page.map .document := fun e h => by
    cases page <;> cases h
  rw [pageFindings, Reads]
  cases v.loadPage c.file entry with
  | error e => simp only [hbad, reduceCtorEq, false_and, exists_false]
  | ok body =>
      simp only [Except.ok.injEq, exists_eq_left']
      cases Page.decode layout body with
      | error e => simp only [hbad, reduceCtorEq]
      | ok found =>
          rw [Except.ok.injEq]
          exact ⟨Finding.map_document_injective, congrArg _⟩

/-- In a chunk only documents are found if and only if it has them. -/
theorem DiskChunk.chunkFindings_eq_iff :
    v.chunkFindings column layout chunk = documents.map .document ↔
      chunk.Yields v column layout documents := by
  rw [Volume.chunkFindings]
  cases hopen : v.openColumn chunk column with
  | error e =>
      refine ⟨fun h => ?_, fun h => ?_⟩
      · cases documents <;> cases h
      · rcases h with ⟨opened⟩ | ⟨opened⟩ <;> cases hopen.symm.trans opened
  | ok opened =>
      cases opened with
      | none =>
          simp only
          rw [← List.map_replicate]
          refine ⟨fun h => ?_, fun h => ?_⟩
          · rw [← Finding.map_document_injective h]
            exact .missing hopen
          · rcases h with _ | ⟨opened⟩
            · rfl
            · cases hopen.symm.trans opened
      | some c =>
          simp only
          rw [flatMap_eq_map_iff]
          constructor
          · rintro ⟨pages, hpages, rfl⟩
            exact .stored hopen (hpages.imp fun _ _ => Volume.pageFindings_eq_iff.mp)
          · rintro (⟨opened⟩ | ⟨opened, read⟩)
            · cases hopen.symm.trans opened
            · rw [hopen, Except.ok.injEq, Option.some.injEq] at opened
              subst opened
              exact ⟨_, read.imp fun _ _ => Volume.pageFindings_eq_iff.mpr, rfl⟩

-- A page is cut into as many documents as its head counts.
theorem Page.length_of_decode {body : List UInt8} {page : Page}
    (h : Page.decode layout body = .ok page) : page.length = headCount body := by
  unfold decode at h
  split at h
  · rw [ite_eq_iff] at h
    rcases h with ⟨-, h⟩ | ⟨-, h⟩
    · cases h
    · simp only at h
      rw [ite_eq_iff] at h
      rcases h with ⟨-, h⟩ | ⟨-, h⟩
      · cases h
      · rw [ite_eq_iff] at h
        rcases h with ⟨-, h⟩ | ⟨-, h⟩
        · cases h
        · rcases Outcome.bind_eq_ok.mp h with ⟨triples, -, hpage⟩
          cases hpage
          rw [length_cut, length_decodeCounts]
          rfl
  · cases h

-- The index of a column that is opened counts the documents of the chunk.
theorem Volume.recordCount_of_openColumn {c : OpenColumn}
    (h : v.openColumn chunk column = .ok (some c)) :
    PageIndex.recordCount c.index = chunk.info.recordCount := by
  rw [openColumn] at h
  split at h
  · cases h
  · rcases Outcome.bind_eq_ok.mp h with ⟨bytes, -, hrest⟩
    rcases Outcome.bind_eq_ok.mp hrest with ⟨index, -, hlast⟩
    clear h hrest
    simp only at hlast
    split at hlast
    · cases hlast
    · next hcount =>
      cases hdata : v.disk.node? (chunk.dataPath column) with
      | none =>
          rw [hdata] at hlast
          cases hlast
      | some node =>
          rw [hdata] at hlast
          cases node <;> cases hlast <;> exact not_not.mp hcount

theorem OpenColumn.length_flatten {c : OpenColumn} {pages : List Page}
    (h : List.Forall₂ (v.Reads c layout) c.index pages) :
    pages.flatten.length = c.headCount v := by
  have hheads : ∀ {index : PageIndex}, List.Forall₂ (v.Reads c layout) index pages →
      pages.map List.length = index.map fun entry =>
        ((v.loadPage c.file entry).toOption.map Page.headCount).getD 0 := by
    intro index hindex
    clear h
    induction hindex with
    | nil => rfl
    | cons hpage _ ih =>
        rcases hpage with ⟨body, hload, hdecode⟩
        rw [List.map_cons, List.map_cons, ih, hload, Page.length_of_decode hdecode]
        rfl
  rw [List.length_flatten, hheads h, headCount]

/-- A chunk gives as many documents as it has if and only if the heads of the pages agree with the
    index. -/
theorem DiskChunk.Yields.length_eq_iff (h : chunk.Yields v column layout documents) :
    documents.length = chunk.info.recordCount ↔ chunk.Agrees v column := by
  cases h with
  | missing opened =>
      refine iff_of_true List.length_replicate fun c hopen => ?_
      cases opened.symm.trans hopen
  | @stored c pages opened read =>
      rw [OpenColumn.length_flatten read, ← Volume.recordCount_of_openColumn opened]
      refine ⟨fun hcount other hopen => ?_, fun hagrees => hagrees c opened⟩
      rw [opened, Except.ok.injEq, Option.some.injEq] at hopen
      rw [← hopen, hcount]

end

/-! ### Columns -/

section

variable {d : Disk} {backend : ReadBackend} {capacity column : Nat} {layout : PageLayout}
  {chunks : List DiskChunk} {documents : List (List Triple)}

/-- A cursor comes to the end without an error if and only if every chunk has its documents, and
    these are what it gives, chunk by chunk. -/
theorem Cursor.readsAll_ofChunks (h : DiskChunk.Apart d chunks) :
    (ofChunks column layout chunks).ReadsAll (.ofDisk d backend capacity) documents ↔
      ∃ parts, List.Forall₂ (DiskChunk.Yields (.ofDisk d backend capacity) column layout) chunks
        parts ∧ documents = parts.flatten := by
  rw [readsAll_iff (Volume.mirrors_ofDisk h backend capacity) (from_ofChunks _ column layout),
    findings_ofChunks, flatMap_eq_map_iff]
  simp only [DiskChunk.chunkFindings_eq_iff]

/-- A cursor that comes to the end without an error, whatever the files hold, has given the
    documents of each chunk in turn. It has given as many as a chunk has if and only if the chunk
    has no such column, or the heads of its pages agree with the index. -/
theorem Cursor.readsAll_counted (h : DiskChunk.Apart d chunks)
    (hread : (ofChunks column layout chunks).ReadsAll (.ofDisk d backend capacity) documents) :
    ∃ parts, documents = parts.flatten ∧
      List.Forall₂ (fun chunk part =>
        DiskChunk.Yields (.ofDisk d backend capacity) column layout chunk part ∧
          (part.length = chunk.info.recordCount ↔
            chunk.Agrees (.ofDisk d backend capacity) column)) chunks parts := by
  rcases (readsAll_ofChunks h).mp hread with ⟨parts, hparts, rfl⟩
  exact ⟨parts, rfl, hparts.imp fun _ _ hyields => ⟨hyields, hyields.length_eq_iff⟩⟩

/-- A page of three documents. -/
def tripled : Page :=
  [[⟨some (.int 1), 0, 1⟩], [⟨some (.int 2), 0, 1⟩], [⟨some (.int 3), 0, 1⟩]]

/-- A disk with a column of which the index counts two documents, and its page three. -/
def tripledDisk : Disk :=
  let data := Page.withChecksum .none (Page.body ⟨0, 1⟩ tripled)
  (Disk.empty.addFile ["0.col"] data).addFile ["0.idx"]
    (PageIndex.encode .none [⟨0, data.length, 0, 2, 3⟩])

/-- A chunk of two documents. -/
def tripledChunk : DiskChunk := ⟨[], 0, 2, [0]⟩

theorem apart_tripled : DiskChunk.Apart tripledDisk [tripledChunk] where
  numbers := fun chunk hin other hother _ => by
    rw [List.mem_singleton.mp hin, List.mem_singleton.mp hother]
  files := fun chunk hin column hlisted => by
    rw [List.mem_singleton.mp hin] at hlisted ⊢
    rw [List.mem_singleton.mp hlisted]
    decide +kernel

theorem readsAll_tripled :
    (Cursor.ofChunks 0 ⟨0, 1⟩ [tripledChunk]).ReadsAll (.ofDisk tripledDisk .positioned 8)
      tripled := by
  have hopen : (Volume.ofDisk tripledDisk .positioned 8).openColumn tripledChunk 0 =
      .ok (some ⟨0, 0, [⟨0, 68, 0, 2, 3⟩], some 0⟩) := by
    rfl
  have hread : (Volume.ofDisk tripledDisk .positioned 8).Reads
      ⟨0, 0, [⟨0, 68, 0, 2, 3⟩], some 0⟩ ⟨0, 1⟩ ⟨0, 68, 0, 2, 3⟩ tripled :=
    ⟨Page.body ⟨0, 1⟩ tripled, by decide +kernel, by decide +kernel⟩
  exact (Cursor.readsAll_ofChunks apart_tripled).mpr
    ⟨[tripled], .cons (.stored hopen (.cons hread .nil)) .nil, rfl⟩

theorem Cursor.readsAll_counted_tripled : ∃ parts, tripled = parts.flatten ∧
    List.Forall₂ (fun chunk part =>
      DiskChunk.Yields (.ofDisk tripledDisk .positioned 8) 0 ⟨0, 1⟩ chunk part ∧
        (part.length = chunk.info.recordCount ↔
          chunk.Agrees (.ofDisk tripledDisk .positioned 8) 0)) [tripledChunk] parts :=
  readsAll_counted apart_tripled readsAll_tripled

-- All is read without an error, and the chunk of two documents has given three.
theorem Cursor.not_counted_tripled :
    (ofChunks 0 ⟨0, 1⟩ [tripledChunk]).ReadsAll (.ofDisk tripledDisk .positioned 8) tripled ∧
      ¬ ∃ parts, tripled = parts.flatten ∧
        List.Forall₂ (fun chunk part => part.length = chunk.info.recordCount) [tripledChunk]
          parts := by
  refine ⟨readsAll_tripled, ?_⟩
  rintro ⟨parts, hparts, hcounts⟩
  rcases List.forall₂_cons_left_iff.mp hcounts with ⟨part, rest, hcount, hrest, rfl⟩
  rw [List.forall₂_nil_left_iff.mp hrest, List.flatten_singleton] at hparts
  rw [← hparts] at hcount
  exact absurd hcount (by decide)

end

end NestedColumns
