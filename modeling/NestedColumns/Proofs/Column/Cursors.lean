import NestedColumns.Cursor
import NestedColumns.Proofs.Column.Files

/-!
# Cursors over intact files

As long as the files of a column hold what was written, and what was kept of their
pages is what they hold, a cursor gives the documents of all chunks one by one. A
chunk without the column gives as many empty documents as it has.

Reading adds pages to those that are kept, so nothing here depends on which ones are:
what each place holds is fixed once, as `bodies`, and what is kept agrees with it.

## Main definitions

* `Volume.Right`: What is kept of pages is what they hold.
* `DiskChunk.Gives`: The documents of a column in a chunk.
* `ColumnReader.Ahead`, `Cursor.Ahead`: The documents that are still to come.
* `Cursor.serve`: Cursors that share a volume, asked in turns.

## Theorems

* `Volume.page_spec`: A page is read, and what is kept stays right.
* `ColumnReader.next_spec`: The next document of a file.
* `Cursor.next_spec`: The next document of a column.
* `Cursor.serve_spec`: Each cursor gives its documents at its turns.
-/

namespace NestedColumns

namespace Volume

/-- What was kept of pages is what they hold. -/
def Right (bodies : PageKey → Option (List UInt8)) (v : Volume) : Prop :=
  ∀ (key : PageKey) (body : List UInt8), v.pages[key]? = some body → bodies key = some body

variable {bodies : PageKey → Option (List UInt8)} {v : Volume}

theorem page_spec {column : OpenColumn} {number : Nat} {entry : PageEntry} {body : List UInt8}
    (hr : v.Right bodies) (hl : v.loadPage column.file entry = .ok body)
    (hb : bodies ⟨column.chunk, column.column, number⟩ = some body) :
    ∃ v', v.page column number entry = (v', .ok body) ∧ v'.disk = v.disk ∧ v'.Right bodies := by
  rw [page]
  cases hkept : v.pages[(⟨column.chunk, column.column, number⟩ : PageKey)]? with
  | some kept =>
      have hsame := hr _ _ hkept
      rw [hb, Option.some.injEq] at hsame
      exact ⟨v, by simp only [hsame], rfl, hr⟩
  | none =>
      simp only [hl]
      by_cases hcapacity : v.capacity = 0
      · rw [if_pos hcapacity]
        exact ⟨v, rfl, rfl, hr⟩
      · rw [if_neg hcapacity]
        refine ⟨_, rfl, rfl, fun key other hkey => ?_⟩
        rw [Std.HashMap.getElem?_insert] at hkey
        split at hkey
        · next heq =>
          rw [Option.some.injEq] at hkey
          rw [← beq_iff_eq.mp heq, hb, hkey]
        · exact hr key other hkey

-- A page that is where its entry says is read and passes its check.
theorem loadPage_spec {layout : PageLayout} {checksum : ChecksumType} {number : Nat}
    {data : List UInt8} {entry : PageEntry} {page : Page}
    (hdata : v.disk.contentsOf number = data) (hsize : data.length < 2 ^ 63)
    (hplaces : Column.Places layout checksum data entry page) :
    v.loadPage (some number) entry = .ok (Page.body layout page) := by
  have hwithin := hplaces.within
  have hbytes := hplaces.bytes
  have hlength : entry.length ≠ 0 := fun hzero => by
    rw [hzero, List.take_zero] at hbytes
    have hempty := congrArg List.length hbytes
    simp only [Page.withChecksum, List.length_nil, List.length_append, Bytes.length_big] at hempty
    omega
  have hposition : ¬ (2 ^ 63 ≤ entry.offset ∧ (v.backend = .sequential ∨ entry.length ≠ 0)) := by
    omega
  have hrange : v.readRange (some number) entry.offset entry.length =
      .ok (Page.withChecksum checksum (Page.body layout page)) := by
    rw [readRange, if_neg hposition, if_neg hlength]
    simp only [hdata, if_pos hwithin, hbytes]
  rw [loadPage, hrange]
  exact Outcome.bind_eq_ok.mpr ⟨_, rfl, Outcome.mapError_eq_ok.mpr
    (Page.verified_withChecksum checksum _)⟩

end Volume

/-! ### Column files -/

/-- A page that is still to be read: it can be loaded from any volume with this disk,
    and its body is the one of its place. -/
structure Loadable (d : Disk) (bodies : PageKey → Option (List UInt8)) (column : OpenColumn)
    (layout : PageLayout) (p : Nat × PageEntry) (page : Page) : Prop where
  load : ∀ v : Volume, v.disk = d → v.loadPage column.file p.2 = .ok (Page.body layout page)
  body : bodies ⟨column.chunk, column.column, p.1⟩ = some (Page.body layout page)
  wellFormed : Page.WellFormed layout page

namespace ColumnReader

/-- The documents that are still to come from a column file. -/
def Ahead (d : Disk) (bodies : PageKey → Option (List UInt8)) (r : ColumnReader)
    (documents : List (List Triple)) : Prop :=
  ∃ pages : List Page, documents = r.records ++ pages.flatten ∧
    List.Forall₂ (Loadable d bodies r.column r.layout) r.pages pages

variable {d : Disk} {bodies : PageKey → Option (List UInt8)} {v : Volume}

theorem nextFrom_spec {column : OpenColumn} {layout : PageLayout} {entries : List (Nat × PageEntry)}
    {pages : List Page} (h : List.Forall₂ (Loadable d bodies column layout) entries pages)
    (records : List (List Triple)) (hd : v.disk = d) (hr : v.Right bodies) :
    ∃ v' r', nextFrom v column layout entries records =
        (v', .ok (records ++ pages.flatten).head?, r') ∧ v'.disk = d ∧ v'.Right bodies ∧
      r'.Ahead d bodies (records ++ pages.flatten).tail := by
  induction h generalizing v records with
  | nil =>
      cases records with
      | nil => exact ⟨v, _, rfl, hd, hr, [], rfl, .nil⟩
      | cons record rest => exact ⟨v, _, rfl, hd, hr, [], rfl, .nil⟩
  | @cons p page entries pages hp hrest ih =>
      rcases p with ⟨number, entry⟩
      cases records with
      | cons record rest => exact ⟨v, _, rfl, hd, hr, page :: pages, rfl, .cons hp hrest⟩
      | nil =>
          rcases Volume.page_spec hr (hp.load v hd) hp.body with ⟨v₁, hpage, hd₁, hr₁⟩
          rcases ih page (hd₁.trans hd) hr₁ with ⟨v', r', hnext, hrest⟩
          refine ⟨v', r', ?_, hrest⟩
          rw [nextFrom, hpage]
          simp only [Page.decode_body hp.wellFormed, hnext, List.nil_append, List.flatten_cons]

theorem next_spec {r : ColumnReader} {documents : List (List Triple)}
    (h : r.Ahead d bodies documents) (hd : v.disk = d) (hr : v.Right bodies) :
    ∃ v' r', r.next v = (v', .ok documents.head?, r') ∧ v'.disk = d ∧ v'.Right bodies ∧
      r'.Ahead d bodies documents.tail := by
  rcases h with ⟨pages, rfl, hpages⟩
  exact nextFrom_spec hpages r.records hd hr

end ColumnReader

/-! ### Chunks -/

/-- The documents of a column in a chunk: those in its files, or as many empty ones as
    the chunk has. -/
inductive DiskChunk.Gives (d : Disk) (bodies : PageKey → Option (List UInt8)) (column : Nat)
    (layout : PageLayout) (chunk : DiskChunk) : List (List Triple) → Prop where
  | missing (unlisted : chunk.info.columns.contains column = false) :
      Gives d bodies column layout chunk (List.replicate chunk.info.recordCount [])
  | stored {options : ColumnOptions} {records : List (List Triple)}
      (listed : chunk.info.columns.contains column = true)
      (count : chunk.info.recordCount = records.length)
      (index : d.read (chunk.indexPath column) = .ok (Column.encode layout options records).index)
      (data : d.read (chunk.dataPath column) = .ok (Column.encode layout options records).data)
      (small : Column.Small layout options records)
      (pages : ∀ page ∈ Column.pack layout options.targetPageSize records,
        Page.WellFormed layout page)
      (places : ∀ (n : Nat) (page : Page),
        (Column.pack layout options.targetPageSize records)[n]? = some page →
          bodies ⟨chunk.info.chunk, column, n⟩ = some (Page.body layout page)) :
      Gives d bodies column layout chunk records

theorem Disk.read_eq_ok {d : Disk} {path : Path} {bytes : List UInt8} :
    d.read path = .ok bytes ↔
      ∃ number, d.node? path = some (.file number) ∧ d.contentsOf number = bytes := by
  rw [read]
  cases d.node? path with
  | none => simp only [reduceCtorEq, false_and, exists_false]
  | some node =>
      cases node with
      | directory => simp only [reduceCtorEq, Option.some.injEq, false_and, exists_false]
      | file number =>
          simp only [Except.ok.injEq, Option.some.injEq, DiskNode.file.injEq, exists_eq_left']

section

variable {d : Disk} {bodies : PageKey → Option (List UInt8)} {v : Volume} {column : Nat}
  {layout : PageLayout} {chunk : DiskChunk}

-- What goes with a list still does when it is numbered.
theorem forall₂_zipIdx {α β : Type} {R : α → β → Prop} {S : Nat × α → β → Prop} {xs : List α}
    {ys : List β} {k : Nat} (h : List.Forall₂ R xs ys)
    (hs : ∀ i x y, ys[i]? = some y → R x y → S (k + i, x) y) :
    List.Forall₂ S ((xs.zipIdx k).map fun (x, i) => (i, x)) ys := by
  induction h generalizing k with
  | nil => exact .nil
  | cons hxy _ ih =>
      rw [List.zipIdx_cons, List.map_cons]
      refine .cons (hs 0 _ _ rfl hxy) (ih fun i x y hy hr => ?_)
      have hplace : k + 1 + i = k + (i + 1) := by omega
      rw [hplace]
      exact hs (i + 1) x y hy hr

-- A column is opened if its index is the one that was written, whatever its pages hold.
theorem Volume.openColumn_written {options : ColumnOptions} {records : List (List Triple)}
    {number : Nat} (listed : chunk.info.columns.contains column = true)
    (count : chunk.info.recordCount = records.length)
    (index : v.disk.read (chunk.indexPath column) = .ok (Column.encode layout options records).index)
    (data : v.disk.node? (chunk.dataPath column) = some (.file number))
    (small : Column.Small layout options records) :
    v.openColumn chunk column = .ok (some ⟨chunk.info.chunk, column,
      Column.indexOf layout options records, some number⟩) := by
  have hindex : (v.disk.read (chunk.indexPath column)).mapError
      (fun e => Halt.failed (StoreError.file e)) = .ok (Column.encode layout options records).index :=
    Outcome.mapError_eq_ok.mpr index
  have hdecode : (PageIndex.decode (Column.encode layout options records).index).mapError
      (Halt.map StoreError.index) = .ok (Column.indexOf layout options records) :=
    Outcome.mapError_eq_ok.mpr (Column.decode_index small)
  have hcount : PageIndex.recordCount (Column.indexOf layout options records) =
      chunk.info.recordCount := by
    rw [Column.recordCount_indexOf, count]
  rw [openColumn, listed]
  simp only [Bool.not_true, Bool.false_eq_true, if_false, hindex, hdecode, hcount, ne_eq,
    not_true_eq_false, data, bind, Except.bind]
  rfl

-- A chunk that does not have a column says so before anything is read.
theorem Volume.openColumn_unlisted (unlisted : chunk.info.columns.contains column = false) :
    v.openColumn chunk column = .ok none := by
  rw [openColumn, unlisted]
  rfl

-- A column of a chunk is opened before all of its documents.
theorem DiskChunk.Gives.open_spec {records : List (List Triple)}
    (h : chunk.Gives d bodies column layout records) (hd : v.disk = d) :
    (v.openColumn chunk column = .ok none ∧
      records = List.replicate chunk.info.recordCount []) ∨
    ∃ c, v.openColumn chunk column = .ok (some c) ∧
      (ColumnReader.ofColumn c layout).Ahead d bodies records := by
  subst hd
  cases h with
  | missing unlisted => exact Or.inl ⟨Volume.openColumn_unlisted unlisted, rfl⟩
  | @stored options _ listed count index data small pages places =>
      right
      rcases Disk.read_eq_ok.mp data with ⟨number, hnode, hcontents⟩
      refine ⟨_, Volume.openColumn_written listed count index hnode small,
        Column.pack layout options.targetPageSize records, ?_, ?_⟩
      · rw [Column.pack_flatten]
        rfl
      · refine forall₂_zipIdx (Column.indexOf_spec layout options records)
          fun i entry page hpage hplaces => ?_
        rw [Nat.zero_add]
        refine ⟨fun w hw => ?_, places i page hpage, pages page (List.mem_of_getElem? hpage)⟩
        have hsame : w.disk.contentsOf number = (Column.encode layout options records).data := by
          rw [hw, hcontents]
        exact Volume.loadPage_spec hsame small.file hplaces

end

/-! ### Cursors -/

namespace Cursor

/-- The documents that are still to come: those of the chunk that is open, and those of
    the chunks that are left. -/
def Ahead (d : Disk) (bodies : PageKey → Option (List UInt8)) (c : Cursor)
    (documents : List (List Triple)) : Prop :=
  ∃ now later, documents = now ++ later.flatten ∧
    (match c.state with
      | .idle => now = []
      | .missing remaining => now = List.replicate remaining []
      | .reading reader => reader.Ahead d bodies now) ∧
    List.Forall₂ (DiskChunk.Gives d bodies c.column c.layout) c.chunks later

variable {d : Disk} {bodies : PageKey → Option (List UInt8)} {v : Volume} {column : Nat}
  {layout : PageLayout}

-- The next chunk with a document is found, whatever is kept by then.
theorem nextChunk_spec {chunks : List DiskChunk} {later : List (List (List Triple))}
    (h : List.Forall₂ (DiskChunk.Gives d bodies column layout) chunks later)
    (hd : v.disk = d) (hr : v.Right bodies) :
    ∃ v' c', nextChunk v column layout chunks = (v', .ok later.flatten.head?, c') ∧
      v'.disk = d ∧ v'.Right bodies ∧ c'.Ahead d bodies later.flatten.tail := by
  induction h generalizing v with
  | nil => exact ⟨v, _, rfl, hd, hr, [], [], rfl, rfl, .nil⟩
  | @cons chunk records chunks later hgives hchunks ih =>
      rw [List.flatten_cons]
      rcases hgives.open_spec hd with ⟨hopen, hrecords⟩ | ⟨c, hopen, hahead⟩
      · rw [nextChunk, hopen, hrecords]
        cases hcount : chunk.info.recordCount with
        | zero => exact ih hd hr
        | succ remaining => exact ⟨v, _, rfl, hd, hr, _, later, rfl, rfl, hchunks⟩
      · rcases ColumnReader.next_spec hahead hd hr with ⟨v₁, r₁, hnext, hd₁, hr₁, hahead₁⟩
        rw [nextChunk, hopen]
        simp only [hnext]
        cases records with
        | nil => exact ih hd₁ hr₁
        | cons record records =>
            exact ⟨v₁, _, rfl, hd₁, hr₁, records, later, rfl, hahead₁, hchunks⟩

/-- The next document is the first that is still to come. At the end there is none, and none
    will come. -/
theorem next_spec {c : Cursor} {documents : List (List Triple)} (h : c.Ahead d bodies documents)
    (hd : v.disk = d) (hr : v.Right bodies) :
    ∃ v' c', c.next v = (v', .ok documents.head?, c') ∧ v'.disk = d ∧ v'.Right bodies ∧
      c'.Ahead d bodies documents.tail := by
  rcases c with ⟨column, layout, chunks, state⟩
  rcases h with ⟨now, later, rfl, hnow, hlater⟩
  cases state with
  | idle =>
      rw [hnow]
      exact nextChunk_spec hlater hd hr
  | missing remaining =>
      rw [hnow]
      cases remaining with
      | zero => exact nextChunk_spec hlater hd hr
      | succ remaining => exact ⟨v, _, rfl, hd, hr, _, later, rfl, rfl, hlater⟩
  | reading reader =>
      rcases ColumnReader.next_spec hnow hd hr with ⟨v₁, r₁, hnext, hd₁, hr₁, hahead₁⟩
      rw [next]
      simp only [hnext]
      cases now with
      | nil => exact nextChunk_spec hlater hd₁ hr₁
      | cons record now => exact ⟨v₁, _, rfl, hd₁, hr₁, now, later, rfl, hahead₁, hlater⟩

-- Before the first document all of them are ahead.
theorem ahead_ofChunks {chunks : List DiskChunk} {records : List (List (List Triple))}
    (h : List.Forall₂ (DiskChunk.Gives d bodies column layout) chunks records) :
    (ofChunks column layout chunks).Ahead d bodies records.flatten :=
  ⟨[], records, rfl, rfl, h⟩

/-! ### Cursors taking turns -/

/-- What cursors that share a volume give when they are asked in turns. -/
def serve (cursors : Nat → Cursor) (v : Volume) :
    List Nat → List (Except (Halt StoreError) (Option (List Triple)))
  | [] => []
  | i :: turns =>
    match (cursors i).next v with
    | (v, result, c) => result :: serve (Function.update cursors i c) v turns

/-- At its n-th turn a cursor gives its n-th document, whatever the others are asked for in
    between, and none once it has given all. -/
theorem serve_spec {cursors : Nat → Cursor} {documents : Nat → List (List Triple)}
    (h : ∀ i, (cursors i).Ahead d bodies (documents i)) (hd : v.disk = d) (hr : v.Right bodies)
    {turns : List Nat} {k i : Nat} (hk : turns[k]? = some i) :
    (serve cursors v turns)[k]? = some (.ok (documents i)[(turns.take k).count i]?) := by
  induction turns generalizing cursors documents v k with
  | nil => cases hk
  | cons j turns ih =>
      rcases next_spec (h j) hd hr with ⟨v', c', hnext, hd', hr', hahead⟩
      rw [serve, hnext]
      cases k with
      | zero =>
          rw [List.getElem?_cons_zero, Option.some.injEq] at hk
          rw [List.getElem?_cons_zero, List.take_zero, List.count_nil, hk, List.head?_eq_getElem?]
      | succ k =>
          rw [List.getElem?_cons_succ] at hk
          have hall : ∀ i, (Function.update cursors j c' i).Ahead d bodies
              (Function.update documents j (documents j).tail i) := by
            intro i
            by_cases hij : i = j
            · rw [hij, Function.update_self, Function.update_self]
              exact hahead
            · rw [Function.update_of_ne hij, Function.update_of_ne hij]
              exact h i
          rw [List.getElem?_cons_succ, ih hall hd' hr' hk, List.take_succ_cons, List.count_cons]
          by_cases hij : i = j
          · rw [hij, Function.update_self, List.getElem?_tail, beq_self_eq_true, if_pos rfl]
          · rw [Function.update_of_ne hij, beq_eq_false_iff_ne.mpr (Ne.symm hij),
              if_neg Bool.false_ne_true, Nat.add_zero]

end Cursor

end NestedColumns
