import NestedColumns.Column.Builder
import NestedColumns.Proofs.Column.Files

/-!
# Packing documents into pages

A page is ended on the word of a size that is worked out before anything is encoded. That
size is exact: it is the length that the finished page has. So a page is longer than the
target only if it could not be shorter, with one document alone, and the first document of
every further page would have taken the page before it beyond the target.

A file that is built one document at a time is the file that `Column.encode` gives, and the
pages that are finished on the way are those of `Column.pack`.

## Main definitions

* `Page.bytes`: A page as it is in the file.
* `PageBuilder.of`: The builder of a page.
* `ColumnBuilder.Builds`: What the builder of a column has finished, and what it is at.
* `Column.Packed`: Documents are packed into pages without a need for more of them.

## Theorems

* `Page.length_bytes`: The length of a page is the one that is foreseen.
* `ColumnBuilder.Builds.finish_foldl`: The file that comes about one document at a time.
* `ColumnBuilder.packs`: The pages that are finished are packed, and sized exactly.
-/

namespace NestedColumns

theorem DataValue.length_encode (v : DataValue) : v.encode.length = v.encodedSize := by
  cases v with
  | bool b => rfl
  | int n => rw [encode, List.length_cons, Bytes.length_little, encodedSize]
  | float d => rw [encode, List.length_cons, Bytes.length_little, encodedSize]
  | string s =>
      rw [encode, List.length_cons, List.length_append, Bytes.length_little,
        Utf8.length_encode, encodedSize]
      omega

/-! ### Sizes -/

namespace Page

variable {layout : PageLayout}

/-- A page as it is in the file. -/
def bytes (layout : PageLayout) (checksum : ChecksumType) (page : Page) : List UInt8 :=
  withChecksum checksum (body layout page)

theorem length_valueBytes_cons (t : Triple) (triples : List Triple) :
    (valueBytes (t :: triples)).length =
      (t.value.map DataValue.encodedSize).getD 0 + (valueBytes triples).length := by
  rw [valueBytes, List.flatMap_cons, List.length_append]
  cases t.value with
  | none => rfl
  | some v => exact congrArg (· + _) v.length_encode

-- What is foreseen for a document are the sizes of the parts that it adds.
theorem recordSize_eq (layout : PageLayout) (triples : List Triple) :
    recordSize layout triples =
      4 + (repBytes layout triples).length + triples.length + (valueBytes triples).length := by
  rw [length_repBytes, recordSize]
  induction triples with
  | nil => split <;> rfl
  | cons t triples ih =>
      rw [List.map_cons, List.sum_cons, length_valueBytes_cons, List.length_cons]
      split at ih <;> simp only [*, if_true, if_false] <;> omega

theorem size_append_singleton (layout : PageLayout) (page : Page) (record : List Triple) :
    size layout (page ++ [record]) = size layout page + recordSize layout record := by
  rw [size, List.map_append, List.sum_append, List.map_singleton, List.sum_singleton, size,
    Nat.add_assoc (headerSize + trailerSize)]

theorem repBytes_append (layout : PageLayout) (triples more : List Triple) :
    repBytes layout (triples ++ more) = repBytes layout triples ++ repBytes layout more := by
  simp only [repBytes]
  split
  · rfl
  · exact List.map_append

theorem valueBytes_append (triples more : List Triple) :
    valueBytes (triples ++ more) = valueBytes triples ++ valueBytes more :=
  List.flatMap_append

theorem size_eq (layout : PageLayout) (page : Page) :
    size layout page = headerSize + trailerSize + 4 * page.length +
      (repBytes layout page.flatten).length + page.flatten.length +
      (valueBytes page.flatten).length := by
  induction page with
  | nil =>
      rw [size, List.flatten_nil, length_repBytes]
      split <;> rfl
  | cons record page ih =>
      rw [size] at ih
      rw [size, List.map_cons, List.sum_cons, recordSize_eq, List.flatten_cons, repBytes_append,
        valueBytes_append]
      simp only [List.length_append, List.length_cons]
      omega

/-- A page is as long in the file as is foreseen. -/
theorem length_bytes (layout : PageLayout) (checksum : ChecksumType) (page : Page) :
    (bytes layout checksum page).length = size layout page := by
  rw [bytes, length_withChecksum, size_eq]
  simp only [body, List.length_append, Bytes.length_little, length_counts, List.length_map,
    List.length_cons, List.length_nil, headerSize]
  omega

end Page

/-! ### Which documents share a page -/

namespace Column

variable {layout : PageLayout} {target : Nat}

/-- Documents are packed into pages: all of them and in order, none of the pages is empty, one
    that is longer than the target has one document alone, and the first document of the next
    page would have made a page longer than the target. -/
structure Packed (layout : PageLayout) (checksum : ChecksumType) (target : Nat)
    (pages : List Page) (records : List (List Triple)) : Prop where
  documents : pages.flatten = records
  nonempty : ∀ page ∈ pages, page ≠ []
  alone : ∀ page ∈ pages, target < (Page.bytes layout checksum page).length → page.length = 1
  full : pages.IsChain fun page next => ∀ record ∈ next.head?,
    target < (Page.bytes layout checksum (page ++ [record])).length

-- Only the first document of a page can take it beyond the target.
theorem packFrom_alone (current : Page) (h : target < Page.size layout current.reverse →
    current.length ≤ 1) (records : List (List Triple)) :
    ∀ page ∈ packFrom layout target current (Page.size layout current.reverse) records,
      target < Page.size layout page → page.length ≤ 1 := by
  induction records generalizing current with
  | nil =>
      intro page hp
      rw [packFrom] at hp
      split at hp
      · cases hp
      · rw [List.mem_singleton.mp hp, List.length_reverse]
        exact h
  | cons record rest ih =>
      intro page hp
      rw [packFrom] at hp
      split at hp
      next hfits =>
        rw [← Page.size_append_singleton, ← List.reverse_cons] at hp
        refine ih (record :: current) (fun hlong => ?_) page hp
        rcases hfits with hempty | hle
        · rw [List.isEmpty_iff.mp hempty]
          exact Nat.le_refl 1
        · rw [← Page.size_append_singleton, ← List.reverse_cons] at hle
          omega
      next =>
        rcases List.mem_cons.mp hp with rfl | hp
        · rw [List.length_reverse]
          exact h
        · exact ih [record] (fun _ => Nat.le_refl _) page hp

-- The page that is being filled comes first, with all that it has so far.
theorem packFrom_eq_cons {current : Page} (hne : current ≠ []) (size : Nat)
    (records : List (List Triple)) :
    ∃ more rest, packFrom layout target current size records =
      (current.reverse ++ more) :: rest := by
  induction records generalizing current size with
  | nil =>
      refine ⟨[], [], ?_⟩
      rw [packFrom, if_neg fun hempty => hne (List.isEmpty_iff.mp hempty), List.append_nil]
  | cons record rest ih =>
      rw [packFrom]
      split
      · rcases ih (List.cons_ne_nil record current) (size + Page.recordSize layout record) with
          ⟨more, others, hpages⟩
        refine ⟨record :: more, others, ?_⟩
        rw [hpages, List.reverse_cons, List.append_assoc, List.singleton_append]
      · exact ⟨[], _, by rw [List.append_nil]⟩

theorem packFrom_full (current : Page) (records : List (List Triple)) :
    (packFrom layout target current (Page.size layout current.reverse) records).IsChain
      fun page next => ∀ record ∈ next.head?, target < Page.size layout (page ++ [record]) := by
  induction records generalizing current with
  | nil =>
      rw [packFrom]
      split
      · exact .nil
      · exact .singleton _
  | cons record rest ih =>
      rw [packFrom]
      split
      next hfits =>
        rw [← Page.size_append_singleton, ← List.reverse_cons]
        exact ih (record :: current)
      next hfull =>
        have hrest := ih [record]
        rw [List.reverse_singleton] at hrest
        have hcons : ∃ more others, packFrom layout target [record] (Page.size layout [record])
            rest = ([record].reverse ++ more) :: others :=
          packFrom_eq_cons (List.cons_ne_nil record []) (Page.size layout [record]) rest
        rcases hcons with ⟨more, others, hpages⟩
        rw [hpages] at hrest ⊢
        refine List.isChain_cons_cons.mpr ⟨?_, hrest⟩
        rw [not_or, Nat.not_le, ← Page.size_append_singleton] at hfull
        intro first hfirst
        rw [List.reverse_singleton, List.singleton_append, List.head?_cons,
          Option.mem_some] at hfirst
        rw [← hfirst]
        exact hfull.2

theorem pack_packed (layout : PageLayout) (checksum : ChecksumType) (target : Nat)
    (records : List (List Triple)) :
    Packed layout checksum target (pack layout target records) records := by
  have hne : ∀ page ∈ pack layout target records, page ≠ [] := packFrom_ne_nil _ _ _ _
  refine ⟨pack_flatten target records, hne, ?_, ?_⟩
  · intro page hp hlong
    rw [Page.length_bytes] at hlong
    have hle := packFrom_alone [] (fun _ => Nat.zero_le _) records page hp hlong
    have hpos := List.length_pos_iff.mpr (hne page hp)
    omega
  · simp only [Page.length_bytes]
    exact packFrom_full [] records

/-- The file of some pages, and its index. -/
def ofPages (layout : PageLayout) (checksum : ChecksumType) (pages : List Page) : EncodedColumn :=
  ⟨(encodePages layout checksum 0 0 pages).1,
    PageIndex.encode checksum (encodePages layout checksum 0 0 pages).2⟩

theorem encodePages_append_singleton (layout : PageLayout) (checksum : ChecksumType)
    (offset first : Nat) (pages : List Page) (page : Page) :
    encodePages layout checksum offset first (pages ++ [page]) =
      ((encodePages layout checksum offset first pages).1 ++ Page.bytes layout checksum page,
        (encodePages layout checksum offset first pages).2 ++
          [⟨offset + (encodePages layout checksum offset first pages).1.length,
            (Page.bytes layout checksum page).length, first + pages.flatten.length, page.length,
            page.flatten.length⟩]) := by
  induction pages generalizing offset first with
  | nil =>
      rw [List.nil_append, encodePages, encodePages]
      simp only [encodePages, List.append_nil]
      rfl
  | cons before pages ih =>
      rw [List.cons_append, encodePages, encodePages]
      simp only [ih, List.flatten_cons, List.length_append, List.append_assoc, List.cons_append,
        Nat.add_assoc]

end Column

/-! ### One document at a time -/

namespace PageBuilder

variable {layout : PageLayout}

/-- The builder of a page: all of its documents were added, and nothing else. -/
def of (layout : PageLayout) (page : Page) : PageBuilder :=
  page.foldl (append layout) empty

theorem foldl_push (b : PageBuilder) (triples : List Triple) :
    triples.foldl (push layout) b =
      { b with
        reps := b.reps ++ Page.repBytes layout triples
        defs := b.defs ++ triples.map fun t => UInt8.ofNat t.level
        values := b.values ++ Page.valueBytes triples } := by
  induction triples generalizing b with
  | nil =>
      have hreps : Page.repBytes layout [] = [] := by
        rw [Page.repBytes]
        split <;> rfl
      rw [List.foldl_nil, hreps, List.map_nil, Page.valueBytes, List.flatMap_nil,
        List.append_nil, List.append_nil, List.append_nil]
  | cons t triples ih =>
      rw [List.foldl_cons, ih, push]
      simp only [Page.repBytes, Page.valueBytes, List.map_cons, List.flatMap_cons,
        List.append_assoc, List.singleton_append]
      split <;> simp only [List.append_assoc, List.singleton_append, List.append_nil]

theorem foldl_append (b : PageBuilder) (page : Page) :
    page.foldl (append layout) b =
      { counts := b.counts ++ page.map (·.length)
        reps := b.reps ++ Page.repBytes layout page.flatten
        defs := b.defs ++ page.flatten.map fun t => UInt8.ofNat t.level
        values := b.values ++ Page.valueBytes page.flatten } := by
  induction page generalizing b with
  | nil =>
      rw [List.foldl_nil, List.map_nil, List.append_nil, List.flatten_nil]
      exact foldl_push b []
  | cons record page ih =>
      rw [List.foldl_cons, ih, append, foldl_push]
      simp only [List.flatten_cons, Page.repBytes_append, Page.valueBytes_append, List.map_append,
        List.map_cons, List.append_assoc, List.singleton_append]

theorem of_eq (page : Page) :
    of layout page =
      ⟨page.map (·.length), Page.repBytes layout page.flatten,
        page.flatten.map fun t => UInt8.ofNat t.level, Page.valueBytes page.flatten⟩ := by
  rw [of, foldl_append]
  rfl

theorem of_append_singleton (page : Page) (record : List Triple) :
    of layout (page ++ [record]) = (of layout page).append layout record := by
  rw [of, List.foldl_concat, of]

theorem estimatedSize_of (page : Page) : (of layout page).estimatedSize = Page.size layout page := by
  rw [Page.size_eq, of_eq]
  simp only [estimatedSize, List.length_map]
  omega

theorem finish_of (checksum : ChecksumType) (page : Page) :
    (of layout page).finish layout checksum = Page.bytes layout checksum page := by
  rw [of_eq, finish, Page.bytes, Page.body, List.length_map, List.length_map, List.flatMap_map]

theorem shouldFinish_of (target : Nat) (page : Page) (next : List Triple) :
    (of layout page).shouldFinish layout target next = true ↔
      page ≠ [] ∧ target < Page.size layout (page ++ [next]) := by
  rw [shouldFinish, estimatedSize_of, ← Page.size_append_singleton, Bool.and_eq_true,
    decide_eq_true_iff, of_eq, Bool.not_eq_true', List.isEmpty_map, List.isEmpty_eq_false_iff]

end PageBuilder

namespace ColumnBuilder

variable {layout : PageLayout} {options : ColumnOptions} {b : ColumnBuilder} {done : List Page}
  {current : Page}

/-- A builder has finished some pages, and is at one that has some documents already. -/
structure Builds (layout : PageLayout) (options : ColumnOptions) (b : ColumnBuilder)
    (done : List Page) (current : Page) : Prop where
  pages : (b.data, b.index) = Column.encodePages layout options.checksum 0 0 done
  firstRecord : b.firstRecord = done.flatten.length
  current : b.current? = if current = [] then none else some (.of layout current)

theorem builds_empty : Builds layout options .empty [] [] :=
  ⟨rfl, rfl, rfl⟩

theorem Builds.finishPage (h : Builds layout options b done current) (hne : current ≠ []) :
    Builds layout options (finishPage layout options b) (done ++ [current]) [] := by
  have hcurrent := h.current
  rw [if_neg hne] at hcurrent
  have hdata := congrArg Prod.fst h.pages
  have hindex := congrArg Prod.snd h.pages
  simp only at hdata hindex
  have hcounts : (PageBuilder.of layout current).counts.length = current.length := by
    rw [PageBuilder.of_eq, List.length_map]
  have hdefs : (PageBuilder.of layout current).defs.length = current.flatten.length := by
    rw [PageBuilder.of_eq, List.length_map]
  rw [ColumnBuilder.finishPage, hcurrent]
  simp only [PageBuilder.finish_of, hcounts, hdefs]
  refine ⟨?_, ?_, rfl⟩
  · rw [Column.encodePages_append_singleton, hdata, hindex, h.firstRecord, Nat.zero_add,
      Nat.zero_add]
  · rw [h.firstRecord, List.flatten_append, List.length_append, List.flatten_singleton]

theorem Builds.full?_eq (h : Builds layout options b done current) (record : List Triple) :
    full? layout options b record =
      if current ≠ [] ∧ options.targetPageSize < Page.size layout (current ++ [record])
      then some (.of layout current) else none := by
  rw [full?, h.current]
  by_cases hempty : current = []
  · rw [if_pos hempty, if_neg fun hfull => hfull.1 hempty, Option.filter_none]
  · rw [if_neg hempty, Option.filter_some]
    simp only [PageBuilder.shouldFinish_of]

-- The next document goes into the page that there is,
theorem Builds.append_fits (h : Builds layout options b done current) {record : List Triple}
    (hfull : full? layout options b record = none) :
    Builds layout options (append layout options b record) done (current ++ [record]) := by
  rw [append, hfull, Option.isSome_none, if_neg Bool.false_ne_true]
  refine ⟨h.pages, h.firstRecord, ?_⟩
  rw [if_neg (List.append_ne_nil_of_right_ne_nil _ (List.cons_ne_nil record [])),
    PageBuilder.of_append_singleton, h.current]
  split
  next hempty =>
    rw [hempty]
    rfl
  next => rfl

-- or into one of its own.
theorem Builds.append_full (h : Builds layout options b done current) (hne : current ≠ [])
    {record : List Triple} {page : PageBuilder}
    (hfull : full? layout options b record = some page) :
    Builds layout options (append layout options b record) (done ++ [current]) [record] := by
  have hdone := h.finishPage hne
  rw [append, hfull, Option.isSome_some, if_pos rfl]
  refine ⟨hdone.pages, hdone.firstRecord, ?_⟩
  rw [hdone.current, if_pos rfl, if_neg (List.cons_ne_nil _ _)]
  rfl

theorem Builds.finish (h : Builds layout options b done current) :
    ColumnBuilder.finish layout options b = Column.ofPages layout options.checksum
      (done ++ if current = [] then [] else [current]) := by
  by_cases hempty : current = []
  · have hcurrent := h.current
    rw [if_pos hempty] at hcurrent
    rw [ColumnBuilder.finish, ColumnBuilder.finishPage, hcurrent, if_pos hempty, List.append_nil,
      Column.ofPages, ← h.pages]
  · rw [if_neg hempty, Column.ofPages, ← (h.finishPage hempty).pages]
    rfl

-- The induction is on the documents to come; the builder and the packing are at the same page
-- all the time, and end it at the same document.
theorem Builds.finish_foldl (h : Builds layout options b done current)
    (records : List (List Triple)) :
    finishedPages layout options b records =
        (Column.packFrom layout options.targetPageSize current.reverse
          (Page.size layout current) records).map (.of layout) ∧
      ColumnBuilder.finish layout options (records.foldl (append layout options) b) =
        Column.ofPages layout options.checksum
          (done ++ Column.packFrom layout options.targetPageSize current.reverse
            (Page.size layout current) records) := by
  induction records generalizing b done current with
  | nil =>
      rw [finishedPages, h.current, List.foldl_nil, h.finish, Column.packFrom,
        List.reverse_reverse]
      by_cases hempty : current = []
      · rw [if_pos hempty, if_pos hempty, hempty]
        exact ⟨rfl, rfl⟩
      · rw [if_neg hempty, if_neg hempty, if_neg fun hnone => hempty
          (List.reverse_eq_nil_iff.mp (List.isEmpty_iff.mp hnone))]
        exact ⟨rfl, rfl⟩
  | cons record rest ih =>
      have hfull := h.full?_eq record
      rw [finishedPages, List.foldl_cons, Column.packFrom, hfull]
      simp only [List.isEmpty_iff, List.reverse_eq_nil_iff, ← Page.size_append_singleton]
      by_cases hends : current ≠ [] ∧
          options.targetPageSize < Page.size layout (current ++ [record])
      · rw [if_pos hends] at hfull ⊢
        rw [if_neg (by rw [not_or, Nat.not_le]; exact hends), List.reverse_reverse]
        have hrest := ih (h.append_full hends.1 hfull)
        rw [List.reverse_singleton] at hrest
        rw [hrest.1, hrest.2, List.append_assoc, List.singleton_append]
        exact ⟨rfl, rfl⟩
      · have hfits : current = [] ∨
            Page.size layout (current ++ [record]) ≤ options.targetPageSize := by
          by_cases hempty : current = []
          · exact .inl hempty
          · exact .inr (Nat.not_lt.mp fun hlong => hends ⟨hempty, hlong⟩)
        rw [if_neg hends] at hfull ⊢
        rw [if_pos hfits]
        have hrest := ih (h.append_fits hfull)
        rw [List.reverse_append, List.reverse_singleton, List.singleton_append] at hrest
        exact hrest

/-- However long the documents are, and whatever the target: a file that is built one document
    at a time is the encoded one, its documents are packed, and every page that was finished on
    the way is as long as its builder had estimated, which is also the length that its entry in
    the index gives. -/
theorem packs (layout : PageLayout) (options : ColumnOptions) (records : List (List Triple)) :
    let file := finish layout options (records.foldl (append layout options) .empty)
    let pages := Column.pack layout options.targetPageSize records
    let index := Column.indexOf layout options records
    file = Column.encode layout options records ∧
      file.index = PageIndex.encode options.checksum index ∧
      Column.Packed layout options.checksum options.targetPageSize pages records ∧
      finishedPages layout options .empty records = pages.map (PageBuilder.of layout) ∧
      List.Forall₂ (Column.Places layout options.checksum file.data) index pages ∧
      List.Forall₂ (fun (entry : PageEntry) (page : PageBuilder) =>
          entry.length = (page.finish layout options.checksum).length ∧
            entry.length = page.estimatedSize)
        index (finishedPages layout options .empty records) := by
  intro file pages index
  have hempty : Builds layout options .empty [] [] := builds_empty
  have hrun := hempty.finish_foldl records
  have hfile : file = Column.encode layout options records := hrun.2
  have hfinished : finishedPages layout options .empty records =
    pages.map (PageBuilder.of layout) := hrun.1
  refine ⟨hfile, ?_, Column.pack_packed _ _ _ _, hfinished, ?_, ?_⟩
  · rw [hfile]
    rfl
  · rw [hfile]
    exact Column.indexOf_spec layout options records
  · rw [hfinished, List.forall₂_map_right_iff]
    refine (Column.indexOf_spec layout options records).imp fun entry page hplaces => ?_
    have hlength : entry.length = (Page.bytes layout options.checksum page).length := by
      rw [Page.bytes, ← hplaces.bytes, List.length_take, List.length_drop]
      have hwithin := hplaces.within
      omega
    refine ⟨?_, ?_⟩
    · rw [hlength, PageBuilder.finish_of]
    · rw [hlength, PageBuilder.estimatedSize_of, Page.length_bytes]

end ColumnBuilder

end NestedColumns
