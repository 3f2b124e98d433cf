import NestedColumns.Column
import NestedColumns.Proofs.Page.Index

/-!
# Column files

The pages of a column hold its documents in order, each page is where its entry in
the index says, and the index covers all documents. What a file holds is read back
if its numbers fit their fields.

No file is longer than the largest position in one, so a file whose pages lie beyond
`2 ^ 63` bytes cannot be written in the first place.

## Main definitions

* `Column.Small`: The numbers in a column file fit their fields.

## Theorems

* `Column.pack_flatten`: The pages hold the documents.
* `Column.encodePages_spec`: Each page is where its entry says.
* `Column.indexOf_tiles`: The pages cover the file and the documents, with no gaps.
* `Column.decode_index`: The index is read back.
-/

namespace NestedColumns

namespace Column

variable {layout : PageLayout}

theorem packFrom_flatten (target : Nat) (current : Page) (size : Nat)
    (records : List (List Triple)) :
    (packFrom layout target current size records).flatten = current.reverse ++ records := by
  induction records generalizing current size with
  | nil =>
      rw [packFrom]
      cases current with
      | nil => rfl
      | cons record current =>
          rw [List.isEmpty_cons, if_neg Bool.false_ne_true, List.flatten_cons, List.flatten_nil]
  | cons record rest ih =>
      rw [packFrom]
      split
      · rw [ih, List.reverse_cons, List.append_assoc, List.singleton_append]
      · rw [List.flatten_cons, ih, List.reverse_singleton, List.singleton_append]

theorem pack_flatten (target : Nat) (records : List (List Triple)) :
    (pack layout target records).flatten = records := by
  rw [pack, packFrom_flatten, List.reverse_nil, List.nil_append]

-- A page is only ended when it has a document.
theorem packFrom_ne_nil (target : Nat) (current : Page) (size : Nat)
    (records : List (List Triple)) :
    ∀ page ∈ packFrom layout target current size records, page ≠ [] := by
  induction records generalizing current size with
  | nil =>
      intro page hp
      rw [packFrom] at hp
      cases current with
      | nil => cases hp
      | cons record current =>
          rw [List.isEmpty_cons, if_neg Bool.false_ne_true, List.mem_singleton] at hp
          rw [hp, List.reverse_ne_nil_iff]
          exact List.cons_ne_nil _ _
  | cons record rest ih =>
      intro page hp
      rw [packFrom] at hp
      by_cases hfits : current.isEmpty = true ∨ size + Page.recordSize layout record ≤ target
      · rw [if_pos hfits] at hp
        exact ih _ _ page hp
      · rw [if_neg hfits, List.mem_cons] at hp
        rcases hp with rfl | hp
        · rw [not_or] at hfits
          rw [List.reverse_ne_nil_iff]
          exact fun hempty => hfits.1 (List.isEmpty_iff.mpr hempty)
        · exact ih _ _ page hp

theorem length_pack_le (layout : PageLayout) (target : Nat) (records : List (List Triple)) :
    (pack layout target records).length ≤ records.length := by
  have hpages : ∀ pages : List Page, (∀ page ∈ pages, page ≠ []) →
      pages.length ≤ pages.flatten.length := by
    intro pages hne
    induction pages with
    | nil => exact Nat.le_refl _
    | cons page pages ih =>
        have hpos := List.length_pos_iff.mpr (hne page List.mem_cons_self)
        have hrest := ih fun page hp => hne page (List.mem_cons_of_mem _ hp)
        rw [List.length_cons, List.flatten_cons, List.length_append]
        omega
  have hle := hpages (pack layout target records) (packFrom_ne_nil target [] _ records)
  rwa [pack_flatten] at hle

/-- The numbers in the file of a column and its index fit their fields: there are fewer
    than `2 ^ 32` documents, entries in a page, and bytes in a string, and the file is
    not longer than a file can be. -/
structure Small (layout : PageLayout) (options : ColumnOptions) (records : List (List Triple)) :
    Prop where
  documents : records.length < 2 ^ 32
  entries : ∀ page ∈ pack layout options.targetPageSize records, page.flatten.length < 2 ^ 32
  short : ∀ record ∈ records, ∀ t ∈ record, t.Short
  file : (encode layout options records).data.length < 2 ^ 63

theorem small_iff {layout : PageLayout} {options : ColumnOptions} {records : List (List Triple)} :
    Small layout options records ↔ records.length < 2 ^ 32 ∧
      (∀ page ∈ pack layout options.targetPageSize records, page.flatten.length < 2 ^ 32) ∧
      (∀ record ∈ records, ∀ t ∈ record, t.Short) ∧
      (encode layout options records).data.length < 2 ^ 63 :=
  ⟨fun h => ⟨h.documents, h.entries, h.short, h.file⟩, fun h => ⟨h.1, h.2.1, h.2.2.1, h.2.2.2⟩⟩

instance (layout : PageLayout) (options : ColumnOptions) (records : List (List Triple)) :
    Decidable (Small layout options records) :=
  decidable_of_iff _ small_iff.symm

/-- An entry says where the bytes of a page are in a file. -/
structure Places (layout : PageLayout) (checksum : ChecksumType) (data : List UInt8)
    (e : PageEntry) (page : Page) : Prop where
  within : e.offset + e.length ≤ data.length
  bytes : (data.drop e.offset).take e.length = Page.withChecksum checksum (Page.body layout page)
  records : e.recordCount = page.length
  values : e.valueCount = page.flatten.length

-- The file is looked at as a whole: `before` are the bytes in front of the pages.
theorem encodePages_spec (checksum : ChecksumType) (before : List UInt8) (first : Nat)
    (pages : List Page) :
    List.Forall₂ (Places layout checksum
      (before ++ (encodePages layout checksum before.length first pages).1))
      (encodePages layout checksum before.length first pages).2 pages := by
  induction pages generalizing before first with
  | nil => exact .nil
  | cons page rest ih =>
      rw [encodePages]
      generalize hbytes : Page.withChecksum checksum (Page.body layout page) = bytes
      have hrest := ih (before ++ bytes) (first + page.length)
      rw [List.length_append] at hrest
      rw [← List.append_assoc]
      refine .cons ⟨?_, ?_, rfl, rfl⟩ hrest
      · simp only [List.length_append]
        omega
      · show ((before ++ bytes ++ _).drop before.length).take bytes.length = _
        rw [List.append_assoc, List.drop_left' rfl, List.take_left' rfl, hbytes]

theorem encodePages_contiguous (checksum : ChecksumType) (offset first : Nat)
    (pages : List Page) :
    PageIndex.Contiguous first (encodePages layout checksum offset first pages).2 := by
  induction pages generalizing offset first with
  | nil => trivial
  | cons page rest ih =>
      rw [encodePages]
      exact ⟨rfl, ih _ _⟩

-- A page is at least as long as its checksum.
theorem encodePages_tiles (layout : PageLayout) (checksum : ChecksumType) (offset first : Nat)
    {pages : List Page} (hne : ∀ page ∈ pages, page ≠ []) :
    PageIndex.Tiles (offset + (encodePages layout checksum offset first pages).1.length)
      (first + pages.flatten.length) offset first
      (encodePages layout checksum offset first pages).2 := by
  induction pages generalizing offset first with
  | nil => exact ⟨rfl, rfl⟩
  | cons page rest ih =>
      rw [List.forall_mem_cons] at hne
      rw [encodePages]
      generalize hbytes : Page.withChecksum checksum (Page.body layout page) = bytes
      have hrest := ih (offset + bytes.length) (first + page.length) hne.2
      have hlength : 0 < bytes.length := by
        rw [← hbytes]
        simp only [Page.withChecksum, List.length_append, Bytes.length_big]
        omega
      refine ⟨rfl, rfl, hlength, List.length_pos_iff.mpr hne.1, ?_⟩
      simp only [List.length_append, List.flatten_cons, ← Nat.add_assoc]
      exact hrest

theorem recordCount_of_places {checksum : ChecksumType} {data : List UInt8} {index : PageIndex}
    {pages : List Page} (h : List.Forall₂ (Places layout checksum data) index pages) :
    PageIndex.recordCount index = pages.flatten.length := by
  induction h with
  | nil => rfl
  | cons he _ ih =>
      rw [PageIndex.recordCount, List.map_cons, List.sum_cons, he.records, List.flatten_cons,
        List.length_append, ← ih]
      rfl

theorem exists_page {checksum : ChecksumType} {data : List UInt8} {index : PageIndex}
    {pages : List Page} (h : List.Forall₂ (Places layout checksum data) index pages) :
    ∀ e ∈ index, ∃ page ∈ pages, Places layout checksum data e page := by
  induction h with
  | nil => exact fun e he => absurd he List.not_mem_nil
  | cons hplaces _ ih =>
      intro e he
      rcases List.mem_cons.mp he with rfl | he
      · exact ⟨_, List.mem_cons_self, hplaces⟩
      · rcases ih e he with ⟨page, hp, h⟩
        exact ⟨page, List.mem_cons_of_mem _ hp, h⟩

theorem firstRecord_le {first : Nat} {index : PageIndex}
    (h : PageIndex.Contiguous first index) :
    ∀ e ∈ index, e.firstRecord + e.recordCount ≤ first + PageIndex.recordCount index := by
  induction index generalizing first with
  | nil => exact fun e he => absurd he List.not_mem_nil
  | cons e rest ih =>
      have hcount : PageIndex.recordCount (e :: rest) =
          e.recordCount + PageIndex.recordCount rest := by
        simp only [PageIndex.recordCount, List.map_cons, List.sum_cons]
      intro other ho
      rcases List.mem_cons.mp ho with rfl | ho
      · have hfirst := h.1
        omega
      · have hle := ih h.2 other ho
        omega

/-- The entries of the pages of a column. -/
def indexOf (layout : PageLayout) (options : ColumnOptions) (records : List (List Triple)) :
    PageIndex :=
  (encodePages layout options.checksum 0 0 (pack layout options.targetPageSize records)).2

variable {options : ColumnOptions} {records : List (List Triple)}

theorem indexOf_spec (layout : PageLayout) (options : ColumnOptions)
    (records : List (List Triple)) :
    List.Forall₂ (Places layout options.checksum (encode layout options records).data)
      (indexOf layout options records) (pack layout options.targetPageSize records) :=
  encodePages_spec options.checksum [] 0 (pack layout options.targetPageSize records)

theorem recordCount_indexOf (layout : PageLayout) (options : ColumnOptions)
    (records : List (List Triple)) :
    PageIndex.recordCount (indexOf layout options records) = records.length := by
  rw [recordCount_of_places (indexOf_spec layout options records), pack_flatten]

/-- The pages of a file lie one behind the other, and cover its bytes and its documents. -/
theorem indexOf_tiles (layout : PageLayout) (options : ColumnOptions)
    (records : List (List Triple)) :
    (indexOf layout options records).Tiles (encode layout options records).data.length
      records.length 0 0 := by
  have hne : ∀ page ∈ pack layout options.targetPageSize records, page ≠ [] :=
    packFrom_ne_nil _ _ _ _
  have htiles := encodePages_tiles layout options.checksum 0 0 hne
  rw [Nat.zero_add, Nat.zero_add, pack_flatten] at htiles
  exact htiles

/-- A page of documents whose levels are those of the column is well formed. -/
theorem Small.wellFormed (h : Small layout options records) (hrep : layout.maxRep < 256)
    (hdef : layout.maxDef < 256)
    (hw : ∀ record ∈ records, ∀ t ∈ record, t.WithinLevels layout.maxRep layout.maxDef) :
    ∀ page ∈ pack layout options.targetPageSize records, Page.WellFormed layout page := by
  intro page hpage
  have hrecords : ∀ record ∈ page, record ∈ records := by
    intro record hr
    have hin := List.mem_flatten.mpr ⟨page, hpage, hr⟩
    rwa [pack_flatten] at hin
  have hcount : page.length < 2 ^ 32 := by
    have hpart := List.Sublist.length_le (List.sublist_flatten_of_mem hpage)
    rw [pack_flatten] at hpart
    exact Nat.lt_of_le_of_lt hpart h.documents
  refine ⟨hrep, hdef, hcount, h.entries page hpage, fun t ht => ?_, fun t ht => ?_⟩
  · rcases List.mem_flatten.mp ht with ⟨record, hr, ht⟩
    exact hw record (hrecords record hr) t ht
  · rcases List.mem_flatten.mp ht with ⟨record, hr, ht⟩
    exact h.short record (hrecords record hr) t ht

theorem decode_index (h : Small layout options records) :
    PageIndex.decode (encode layout options records).index =
      .ok (indexOf layout options records) := by
  have hspec := indexOf_spec layout options records
  have hcontiguous : PageIndex.Contiguous 0 (indexOf layout options records) :=
    encodePages_contiguous options.checksum 0 0 _
  have hcount := recordCount_indexOf layout options records
  have hdocuments := h.documents
  have hfile := h.file
  have hfits : ∀ e ∈ indexOf layout options records, e.Fits := by
    intro e he
    have hfirst := firstRecord_le hcontiguous e he
    rcases exists_page hspec e he with ⟨page, hp, hplaces⟩
    have hwithin := hplaces.within
    have hentries := h.entries page hp
    have hvalues := hplaces.values
    exact ⟨by omega, by omega, by omega, by omega, by omega⟩
  have hpages : List.length (indexOf layout options records) < 2 ^ 32 := by
    have hle := length_pack_le layout options.targetPageSize records
    have hlength := hspec.length_eq
    omega
  have hsum : PageIndex.recordCount (indexOf layout options records) < 2 ^ 32 := by omega
  have hdecode := PageIndex.decode_encode options.checksum hfits hcontiguous hsum hpages
  exact hdecode

end Column

end NestedColumns
