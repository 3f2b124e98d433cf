import NestedColumns.Proofs.Column.Caching

/-!
# What a cursor comes upon

A cursor goes through documents, pages that cannot be read and chunks that cannot be opened, in an
order that the disk determines. So what it answers, call after call, is read off one list: the
documents are given one by one, a bad page is met again and again, and a bad chunk is met once.

Nothing is assumed of what the files hold. That pages are kept makes no difference as long as chunks
with the same number are the same chunk.

## Main definitions

* `Finding`, `Finding.answer`: What a cursor comes upon, and what it answers then.
* `Cursor.findings`: All that a cursor will come upon.
* `DiskChunk.Apart`: Chunks with numbers of their own, whose files are files.

## Theorems

* `Cursor.next_bare`: A step answers the first of what the cursor comes upon.
* `Cursor.next_finds`: The same with pages that are kept.
* `Volume.mirrors_ofDisk`: A volume without pages is one to start from.
-/

namespace NestedColumns

/-- What a cursor comes upon. -/
inductive Finding where
  | document (triples : List Triple)
  /-- A page that cannot be read. -/
  | badPage (e : StoreError)
  /-- A chunk in which the column cannot be opened, or makes the reader panic. -/
  | badChunk (halt : Halt StoreError)
  deriving DecidableEq, Repr

/-- The answer of a cursor that comes upon some findings, and those that are left. A bad page is not
    passed over, while a bad chunk is. -/
def Finding.answer :
    List Finding → Except (Halt StoreError) (Option (List Triple)) × List Finding
  | [] => (.ok none, [])
  | .document triples :: rest => (.ok (some triples), rest)
  | .badPage e :: rest => (.error (.failed e), .badPage e :: rest)
  | .badChunk halt :: rest => (.error halt, rest)

-- Only at the end nothing is answered.
theorem Finding.eq_nil_of_answer {found left : List Finding}
    (h : answer found = (.ok none, left)) : found = [] := by
  rcases found with _ | ⟨finding, rest⟩
  · rfl
  · cases finding <;> cases h

-- What comes later makes no difference to an answer.
theorem Finding.answer_append {found left : List Finding}
    {result : Except (Halt StoreError) (Option (List Triple))} (h : answer found = (result, left))
    (hsome : result ≠ .ok none) (later : List Finding) :
    answer (found ++ later) = (result, left ++ later) := by
  rcases found with _ | ⟨finding, rest⟩
  · cases h
    exact absurd rfl hsome
  · cases finding <;> cases h <;> rfl

/-- What is found in a page. -/
def Volume.pageFindings (v : Volume) (column : OpenColumn) (layout : PageLayout)
    (entry : PageEntry) : List Finding :=
  match v.loadPage column.file entry with
  | .error e => [.badPage e]
  | .ok body =>
    match Page.decode layout body with
    | .error e => [.badPage (.page e)]
    | .ok page => page.map .document

/-- What is found of a column in a chunk. -/
def Volume.chunkFindings (v : Volume) (column : Nat) (layout : PageLayout) (chunk : DiskChunk) :
    List Finding :=
  match v.openColumn chunk column with
  | .error halt => [.badChunk halt]
  | .ok none => List.replicate chunk.info.recordCount (.document [])
  | .ok (some c) => c.index.flatMap (v.pageFindings c layout)

/-- What is found in the rest of a column file. -/
def ColumnReader.findings (v : Volume) (r : ColumnReader) : List Finding :=
  r.records.map .document ++ r.pages.flatMap fun p => v.pageFindings r.column r.layout p.2

/-- What is found in the current chunk. -/
def CursorState.findings (v : Volume) : CursorState → List Finding
  | .idle => []
  | .missing remaining => List.replicate remaining (.document [])
  | .reading reader => reader.findings v

/-- What is found in the rest of a column. -/
def Cursor.findings (v : Volume) (c : Cursor) : List Finding :=
  c.state.findings v ++ c.chunks.flatMap (v.chunkFindings c.column c.layout)

/-! ### A volume without pages -/

-- The induction is on the pages that are left, of which those without documents are passed over.
-- A page that is bad is an error: only a chunk makes a reader panic.
theorem ColumnReader.nextFrom_bare (u : Volume) (column : OpenColumn) (layout : PageLayout)
    (pages : List (Nat × PageEntry)) (records : List (List Triple)) :
    ∃ answer r, nextFrom u.bare column layout pages records = (u.bare, answer, r) ∧
      Finding.answer (findings u ⟨column, layout, pages, records⟩) =
        (answer.mapError .failed, r.findings u) := by
  induction pages generalizing records with
  | nil =>
      cases records with
      | nil => exact ⟨_, _, rfl, rfl⟩
      | cons record rest => exact ⟨_, _, rfl, rfl⟩
  | cons page pages ih =>
      rcases page with ⟨number, entry⟩
      cases records with
      | cons record rest => exact ⟨_, _, rfl, rfl⟩
      | nil =>
          have hfindings : findings u ⟨column, layout, (number, entry) :: pages, []⟩ =
              u.pageFindings column layout entry ++
                pages.flatMap fun p => u.pageFindings column layout p.2 := rfl
          rw [Volume.pageFindings] at hfindings
          rw [nextFrom, Volume.page_bare]
          cases hload : u.loadPage column.file entry with
          | error e =>
              rw [hload] at hfindings
              refine ⟨_, _, rfl, ?_⟩
              rw [hfindings]
              rfl
          | ok body =>
              simp only [hload] at hfindings ⊢
              cases hdecode : Page.decode layout body with
              | error e =>
                  rw [hdecode] at hfindings
                  refine ⟨_, _, rfl, ?_⟩
                  rw [hfindings]
                  rfl
              | ok records =>
                  rw [hdecode] at hfindings
                  rw [hfindings]
                  exact ih records

theorem ColumnReader.next_bare (u : Volume) (r : ColumnReader) :
    ∃ answer r', r.next u.bare = (u.bare, answer, r') ∧
      Finding.answer (r.findings u) = (answer.mapError .failed, r'.findings u) :=
  nextFrom_bare u r.column r.layout r.pages r.records

-- In a column file of which nothing was read, the pages of its index are found.
theorem ColumnReader.findings_ofColumn (u : Volume) (column : OpenColumn) (layout : PageLayout) :
    (ofColumn column layout).findings u = column.index.flatMap (u.pageFindings column layout) := by
  have hentries : (column.index.zipIdx.map fun p => (p.2, p.1)).map Prod.snd =
      column.index := by
    rw [List.map_map]
    exact List.zipIdx_map_fst 0 column.index
  have hpages : (ofColumn column layout).findings u =
      (((column.index.zipIdx.map fun p => (p.2, p.1)).map Prod.snd).flatMap
        (u.pageFindings column layout)) := by
    rw [List.flatMap_map]
    rfl
  rw [hpages, hentries]

-- A reader that has come to its end is left for the chunks after it.
theorem Cursor.reading_bare {u : Volume} {column : Nat} {layout : PageLayout}
    {chunks : List DiskChunk} {found : List Finding} {answer : Except StoreError (Option (List Triple))}
    {r : ColumnReader} (h : Finding.answer found = (answer.mapError .failed, r.findings u))
    (hlater : ∃ c, nextChunk u.bare column layout chunks =
        (u.bare, (Finding.answer (chunks.flatMap (u.chunkFindings column layout))).1, c) ∧
      c.findings u = (Finding.answer (chunks.flatMap (u.chunkFindings column layout))).2) :
    let all := found ++ chunks.flatMap (u.chunkFindings column layout)
    ∃ c, (match (u.bare, answer, r) with
        | (v, .ok none, _) => nextChunk v column layout chunks
        | (v, result, reader) =>
          (v, result.mapError .failed, (⟨column, layout, chunks, .reading reader⟩ : Cursor))) =
        (u.bare, (Finding.answer all).1, c) ∧ c.findings u = (Finding.answer all).2 := by
  dsimp only
  rcases answer with e | _ | triples
  · rw [Finding.answer_append h (fun heq => by cases heq)]
    exact ⟨_, rfl, rfl⟩
  · rw [Finding.eq_nil_of_answer h, List.nil_append]
    exact hlater
  · rw [Finding.answer_append h (fun heq => by cases heq)]
    exact ⟨_, rfl, rfl⟩

-- The induction is on the chunks that are left, of which those without documents are passed over.
theorem Cursor.nextChunk_bare (u : Volume) (column : Nat) (layout : PageLayout)
    (chunks : List DiskChunk) :
    ∃ c, nextChunk u.bare column layout chunks =
        (u.bare, (Finding.answer (chunks.flatMap (u.chunkFindings column layout))).1, c) ∧
      c.findings u = (Finding.answer (chunks.flatMap (u.chunkFindings column layout))).2 := by
  induction chunks with
  | nil => exact ⟨_, rfl, rfl⟩
  | cons chunk chunks ih =>
      have hopen : u.bare.openColumn chunk column = u.openColumn chunk column := rfl
      rw [nextChunk, hopen, List.flatMap_cons, Volume.chunkFindings]
      cases u.openColumn chunk column with
      | error e => exact ⟨_, rfl, rfl⟩
      | ok opened =>
          cases opened with
          | none =>
              cases chunk.info.recordCount with
              | zero => exact ih
              | succ remaining => exact ⟨_, rfl, rfl⟩
          | some c =>
              rcases ColumnReader.next_bare u (.ofColumn c layout) with ⟨answer, r, hnext, hfound⟩
              simp only [hnext]
              rw [← ColumnReader.findings_ofColumn u c layout]
              exact reading_bare hfound ih

/-- A step answers the first of what the cursor comes upon. -/
theorem Cursor.next_bare (u : Volume) (c : Cursor) :
    ∃ c', c.next u.bare = (u.bare, (Finding.answer (c.findings u)).1, c') ∧
      c'.findings u = (Finding.answer (c.findings u)).2 := by
  rcases c with ⟨column, layout, chunks, state⟩
  cases state with
  | idle => exact nextChunk_bare u column layout chunks
  | missing remaining =>
      cases remaining with
      | zero => exact nextChunk_bare u column layout chunks
      | succ remaining => exact ⟨_, rfl, rfl⟩
  | reading reader =>
      rcases ColumnReader.next_bare u reader with ⟨answer, r, hnext, hfound⟩
      rw [next]
      simp only [hnext]
      exact reading_bare hfound (nextChunk_bare u column layout chunks)

/-! ### Pages that are kept -/

/-- Chunks with the same number are the same chunk, and what is in place of a file of a column is a
    file. -/
structure DiskChunk.Apart (d : Disk) (chunks : List DiskChunk) : Prop where
  numbers : ∀ chunk ∈ chunks, ∀ other ∈ chunks,
    other.info.chunk = chunk.info.chunk → other = chunk
  files : ∀ chunk ∈ chunks, ∀ column ∈ chunk.info.columns,
    d.node? (chunk.indexPath column) ≠ some .directory ∧
      d.node? (chunk.dataPath column) ≠ some .directory

/-- The number of the file at a path, if there is one. -/
def Disk.fileAt (d : Disk) (path : Path) : Nat :=
  match d.node? path with
  | some (.file number) => number
  | _ => 0

/-- The files that the columns of some chunks have on a disk. -/
def Sources.ofChunks (d : Disk) (chunks : List DiskChunk) : Sources := fun number column =>
  (chunks.find? (·.info.chunk = number)).map fun chunk =>
    (d.fileAt (chunk.indexPath column), d.fileAt (chunk.dataPath column))

theorem Disk.fileAt_spec {d : Disk} {path : Path} (h : d.node? path ≠ some .directory)
    (node : DiskNode) (hnode : d.node? path = some node) : node = .file (d.fileAt path) := by
  rw [fileAt, hnode]
  cases node with
  | directory => exact absurd hnode h
  | file number => rfl

theorem DiskChunk.Apart.from_ofChunks {d : Disk} {chunks : List DiskChunk} (h : Apart d chunks)
    {chunk : DiskChunk} (hin : chunk ∈ chunks) :
    chunk.From (.ofChunks d chunks) d := by
  intro column hlisted
  have hfound : chunks.find? (·.info.chunk = chunk.info.chunk) = some chunk := by
    cases hfind : chunks.find? (·.info.chunk = chunk.info.chunk) with
    | none => exact absurd (decide_eq_true rfl) (List.find?_eq_none.mp hfind chunk hin)
    | some other =>
        have hsame := List.find?_some hfind
        rw [decide_eq_true_eq] at hsame
        rw [h.numbers chunk hin other (List.mem_of_find?_eq_some hfind) hsame]
  rcases h.files chunk hin column hlisted with ⟨hindex, hdata⟩
  exact ⟨_, _, by rw [Sources.ofChunks, hfound]; rfl, Disk.fileAt_spec hindex,
    Disk.fileAt_spec hdata⟩

/-- A volume without pages gives what is in its files. -/
theorem Volume.mirrors_ofDisk {d : Disk} {chunks : List DiskChunk} (h : DiskChunk.Apart d chunks)
    (backend : ReadBackend) (capacity : Nat) :
    (ofDisk d backend capacity).Mirrors (.ofChunks d chunks) (· ∈ chunks)
      (ofDisk d backend capacity) where
  opens := fun _ _ _ => rfl
  places := fun _ hin => h.from_ofChunks hin
  loads := fun _ _ _ _ _ _ _ => rfl
  keeping := fun _ _ hkept => by
    rw [ofDisk, Std.HashMap.getElem?_empty] at hkept
    cases hkept
  backend := rfl

section

variable {src : Sources} {u v : Volume} {chunks : DiskChunk → Prop}

/-- A step answers the first of what the cursor comes upon, whatever pages are kept. -/
theorem Cursor.next_finds {c : Cursor} (hv : v.Mirrors src chunks u)
    (hc : c.From src chunks v.disk) :
    ∃ v' c', c.next v = (v', (Finding.answer (c.findings u)).1, c') ∧
      c'.findings u = (Finding.answer (c.findings u)).2 ∧ v'.Mirrors src chunks u ∧
      c'.From src chunks v'.disk ∧ v'.disk = v.disk := by
  rcases next_mirrors hv hc with ⟨v', answer, after, hnext, hbare, hd, hmirrors, hfrom⟩
  rcases next_bare u c with ⟨c', hbare', hleft⟩
  rw [hbare', Prod.mk.injEq, Prod.mk.injEq] at hbare
  exact ⟨v', after, by rw [hnext, hbare.2.1], hbare.2.2 ▸ hleft, hmirrors, hfrom, hd⟩

-- Before its first step a cursor comes upon what is in its chunks.
theorem Cursor.findings_ofChunks (u : Volume) (column : Nat) (layout : PageLayout)
    (chunks : List DiskChunk) :
    (ofChunks column layout chunks).findings u =
      chunks.flatMap (u.chunkFindings column layout) :=
  rfl

theorem Cursor.from_ofChunks {d : Disk} {chunks : List DiskChunk} (src : Sources) (column : Nat)
    (layout : PageLayout) : (ofChunks column layout chunks).From src (· ∈ chunks) d :=
  ⟨fun _ hin => hin, fun _ hstate => by cases hstate⟩

end

end NestedColumns
