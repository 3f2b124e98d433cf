import NestedColumns.Proofs.Checksum
import NestedColumns.Proofs.Column.Astray
import NestedColumns.Proofs.Column.Counted
import NestedColumns.Proofs.Page.Judging

/-!
# Columns with a short change

A column was written with checksums, and then at most four consecutive bytes of its file, or of the
entries of its index, were changed. Whoever reads the column to the end comes upon an error, or is
given the documents that were written.

The kind of the checksum and the checksum itself can be changed as well, and then the check may
pass. But the kind of the page stands between them and what is checked, so a change that reaches
them does not reach the body. In an index the checksum stands in the footer, and entries that still
pass are the same entries.

## Main definitions

* `EncodedColumn.Burst`: A short change of a column file or of the entries of its index.
* `DiskChunk.Marred`: A chunk whose files were written with checksums and changed like this.
* `Cursor.Fails`: A cursor gives some documents, and then an error.

## Theorems

* `Page.verified_near`: A page that passes its check has the body that it had.
* `PageIndex.decode_near`: An index that is not refused is the one that was written.
* `Cursor.fails_or_readsAll`: What a cursor gives.
-/

namespace NestedColumns

open Bytes (Near)

/-! ### Pages -/

-- What is known of a page that passes its check.
theorem Page.of_verified {data found : List UInt8} (h : verified data = .ok found) :
    found = data.take (data.length - trailerSize) ∧ ∃ type,
      ChecksumType.ofCode (Bytes.ofBig (((data.drop (data.length - trailerSize)).drop 4).take 4)) =
        .ok type ∧
      type.verify (data.take (data.length - checksumSize))
        (Bytes.ofBig ((data.drop (data.length - trailerSize)).drop 8)) = .ok () := by
  rw [verified] at h
  split at h
  · cases h
  · simp only at h
    split at h
    · cases h
    · rcases Outcome.bind_eq_ok.mp h with ⟨type, htype, hrest⟩
      rcases Outcome.bind_eq_ok.mp hrest with ⟨_, hverify, hfound⟩
      rw [Outcome.mapError_eq_ok] at htype hverify
      cases hfound
      exact ⟨rfl, type, htype, hverify⟩

theorem ChecksumType.ofBytes_of_verify {data : List UInt8} {expected : Nat}
    (h : ChecksumType.crc32.verify data expected = .ok ()) :
    (Crc32.ofBytes data).toNat = expected := by
  rw [verify, ite_eq_iff] at h
  rcases h with ⟨hsum, -⟩ | ⟨-, h⟩
  · exact hsum
  · cases h

-- The fields behind the kind are those that were written if the change starts within the body.
-- Otherwise it does not matter what they are.
theorem Page.verified_near {p : Nat} {body data found : List UInt8}
    (h : Near p (withChecksum .crc32 body) data) (hok : verified data = .ok found) :
    found = body := by
  have hlength : data.length = body.length + trailerSize := by
    rw [h.length, length_withChecksum]
  have hkind := length_withKind body
  rcases of_verified hok with ⟨hfound, type, htype, hverify⟩
  rw [hlength, Nat.add_sub_cancel] at hfound htype hverify
  rw [List.drop_drop] at htype hverify
  have hbody : (withKind body).take body.length = body := List.take_left' rfl
  by_cases hp : body.length ≤ p
  · rw [hfound, h.take_of_le hp, withChecksum_eq, List.take_append_of_le_length (by omega), hbody]
  · have hfields : data.drop (body.length + 4) =
        Bytes.big 4 ChecksumType.crc32.code ++
          Bytes.big 8 (ChecksumType.crc32.sum (withKind body)) := by
      rw [h.drop_of_le (by omega), withChecksum_eq, List.drop_left' hkind]
    have hcode := Bytes.length_big 4 ChecksumType.crc32.code
    have hsum : data.drop (body.length + 8) =
        Bytes.big 8 (ChecksumType.crc32.sum (withKind body)) := by
      rw [show body.length + 8 = body.length + 4 + 4 from rfl, ← List.drop_drop, hfields,
        List.drop_left' hcode]
    rw [hfields, List.take_left' hcode, Bytes.ofBig_big_of_lt (ChecksumType.code_lt _),
      ChecksumType.ofCode_code, Except.ok.injEq] at htype
    subst htype
    rw [hsum, Bytes.ofBig_big_of_lt (ChecksumType.sum_lt _ _)] at hverify
    have hchecked := h.take (body.length + 4)
    rw [withChecksum_eq, List.take_left' hkind] at hchecked
    have hsame := Crc32.ofBytes_near hchecked
      (UInt32.toNat_inj.mp (ChecksumType.ofBytes_of_verify hverify))
    have htake := congrArg (List.take body.length) hsame
    rwa [List.take_take, Nat.min_eq_left (by omega), hbody, ← hfound] at htake

/-! ### Indexes -/

-- The checksum is looked at before anything is counted, so a change comes to an error first.
theorem PageIndex.decode_near {p : Nat} {index : PageIndex} {data : List UInt8}
    (h : Near p (encode .crc32 index) data)
    (hfooter : data.drop (encodeEntries index).length =
      (encode .crc32 index).drop (encodeEntries index).length)
    (hok : ∀ e, decode data ≠ .error (.failed e)) : data = encode .crc32 index := by
  have hlength : data.length - footerSize = (encodeEntries index).length := by
    rw [h.length, length_encode, Nat.add_sub_cancel]
  rcases (framed_of_decode hok).checksum with ⟨type, htype, hverify⟩
  rw [footer, hlength, hfooter, encode_eq, List.drop_left' rfl] at htype hverify
  rw [drop_third, List.take_left' (Bytes.length_big 4 _),
    Bytes.ofBig_big_of_lt (ChecksumType.code_lt _), ChecksumType.ofCode_code,
    Except.ok.injEq] at htype
  subst htype
  rw [drop_fourth, Bytes.ofBig_big_of_lt (ChecksumType.sum_lt _ _), area, hlength] at hverify
  have hentries := h.take (encodeEntries index).length
  rw [encode_eq, List.take_left' rfl] at hentries
  have hsame := Crc32.ofBytes_near hentries
    (UInt32.toNat_inj.mp (ChecksumType.ofBytes_of_verify hverify))
  rw [← List.take_append_drop (encodeEntries index).length data, hsame, hfooter, encode_eq,
    List.drop_left' rfl]

/-! ### Column files -/

/-- At most four consecutive bytes of a column file, or of the entries of its index, were written
    over. -/
inductive EncodedColumn.Burst (written : EncodedColumn) : EncodedColumn → Prop where
  | data {position : Nat} {bytes : List UInt8} (short : bytes.length ≤ 4)
      (inside : position + bytes.length ≤ written.data.length) :
      Burst written ⟨Disk.overwrite written.data position bytes, written.index⟩
  | index {position : Nat} {bytes : List UInt8} (short : bytes.length ≤ 4)
      (inside : position + bytes.length + PageIndex.footerSize ≤ written.index.length) :
      Burst written ⟨written.data, Disk.overwrite written.index position bytes⟩

section

variable {layout : PageLayout} {options : ColumnOptions} {records : List (List Triple)}
  {found : EncodedColumn}

theorem EncodedColumn.Burst.near {written : EncodedColumn} (h : written.Burst found) :
    ∃ p, Near p written.data found.data := by
  cases h with
  | data short inside => exact ⟨_, Bytes.near_overwrite short inside⟩
  | index => exact ⟨0, rfl, rfl, rfl⟩

theorem Column.index_eq (layout : PageLayout) (options : ColumnOptions)
    (records : List (List Triple)) : (encode layout options records).index =
      PageIndex.encode options.checksum (indexOf layout options records) :=
  rfl

theorem EncodedColumn.Burst.index_eq (h : (Column.encode layout options records).Burst found)
    (checksum : options.checksum = .crc32)
    (hok : ∀ e, PageIndex.decode found.index ≠ .error (.failed e)) :
    found.index = (Column.encode layout options records).index := by
  cases h with
  | data => rfl
  | @index position bytes short inside =>
      rw [Column.index_eq, PageIndex.length_encode] at inside
      rw [Column.index_eq, checksum] at hok ⊢
      have hwhole : position + bytes.length ≤
          (PageIndex.encode .crc32 (Column.indexOf layout options records)).length := by
        rw [PageIndex.length_encode]
        omega
      exact PageIndex.decode_near (Bytes.near_overwrite short hwhole)
        (Bytes.drop_overwrite hwhole (by omega)) hok

-- Where there are no documents there is nothing in front of the footer that could be changed.
theorem EncodedColumn.Burst.index_eq_of_empty (h : (Column.encode layout options []).Burst found) :
    found.index = (Column.encode layout options []).index := by
  cases h with
  | data => rfl
  | @index position bytes short inside =>
      rw [Column.index_eq, PageIndex.length_encode] at inside
      have hnone : (PageIndex.encodeEntries (Column.indexOf layout options [])).length = 0 := rfl
      have hbytes : bytes = [] := List.eq_nil_of_length_eq_zero (by omega)
      have hposition : position = 0 := by omega
      subst hbytes hposition
      rfl

theorem Volume.bytes_of_readRange {v : Volume} {number offset length : Nat} {bytes : List UInt8}
    (h : v.readRange (some number) offset length = .ok bytes) :
    bytes = ((v.disk.contentsOf number).drop offset).take length := by
  rw [readRange, ite_eq_iff] at h
  rcases h with ⟨-, h⟩ | ⟨-, h⟩
  · cases h
  by_cases hlength : length = 0
  · rw [if_pos hlength] at h
    cases h
    rw [hlength, List.take_zero]
  · rw [if_neg hlength] at h
    simp only at h
    split at h
    · cases h
      rfl
    · cases h

/-- A page of a file that was changed cannot be read, or has the body that it had. -/
theorem Volume.loadPage_near {v : Volume} {number p : Nat} {data : List UInt8} {entry : PageEntry}
    {page : Page} (hnear : Near p data (v.disk.contentsOf number))
    (hplaces : Column.Places layout .crc32 data entry page) {body : List UInt8}
    (hok : v.loadPage (some number) entry = .ok body) : body = Page.body layout page := by
  rcases Outcome.bind_eq_ok.mp hok with ⟨bytes, hrange, hverified⟩
  rw [Outcome.mapError_eq_ok] at hrange hverified
  have hbytes := (hnear.drop entry.offset).take entry.length
  rw [hplaces.bytes, ← bytes_of_readRange hrange] at hbytes
  exact Page.verified_near hbytes hverified

end

/-! ### Chunks -/

/-- The documents of a column in a chunk, whose file and index were written with checksums. At most
    four consecutive bytes of one of them were changed. -/
inductive DiskChunk.Marred (d : Disk) (column : Nat) (layout : PageLayout) (chunk : DiskChunk) :
    List (List Triple) → Prop where
  | missing (unlisted : chunk.info.columns.contains column = false) :
      Marred d column layout chunk (List.replicate chunk.info.recordCount [])
  | stored {options : ColumnOptions} {records : List (List Triple)} {found : EncodedColumn}
      (listed : chunk.info.columns.contains column = true)
      (count : chunk.info.recordCount = records.length) (checksum : options.checksum = .crc32)
      (small : Column.Small layout options records)
      (levels : ∀ record ∈ records, ∀ t ∈ record, t.WithinLevels layout.maxRep layout.maxDef)
      (burst : (Column.encode layout options records).Burst found)
      (index : d.read (chunk.indexPath column) = .ok found.index)
      (data : d.read (chunk.dataPath column) = .ok found.data) :
      Marred d column layout chunk records

namespace Finding

theorem standFor_documents (records : List (List Triple)) :
    StandFor (records.map .document) records := by
  induction records with
  | nil => exact .nil
  | cons record records ih => exact .document record ih

-- A cursor comes upon all documents, or upon something else after the first ones.
theorem StandFor.documents_or {findings : List Finding} {records : List (List Triple)}
    (h : StandFor findings records) : findings = records.map .document ∨
      ∃ before bad rest, findings = before.map .document ++ bad :: rest ∧ before <+: records ∧
        ∀ triples, bad ≠ .document triples := by
  induction h with
  | nil => exact Or.inl rfl
  | document triples _ ih =>
      rcases ih with rfl | ⟨before, bad, rest, rfl, hprefix, hbad⟩
      · exact Or.inl rfl
      · exact Or.inr ⟨triples :: before, bad, rest, rfl,
          (List.prefix_cons_inj triples).mpr hprefix, hbad⟩
  | badPage e page =>
      exact Or.inr ⟨[], .badPage e, _, rfl, List.nil_prefix, fun _ hne => (nomatch hne)⟩
  | badChunk halt =>
      exact Or.inr ⟨[], .badChunk halt, _, rfl, List.nil_prefix, fun _ hne => (nomatch hne)⟩

end Finding

section

variable {v : Volume} {column : Nat} {layout : PageLayout} {chunk : DiskChunk}

-- The induction is on the pages, of which each is as it was or cannot be read.
theorem Volume.standFor_pages {c : OpenColumn} {number p : Nat} {data : List UInt8}
    {index : PageIndex} {pages : List Page} (hfile : c.file = some number)
    (hnear : Near p data (v.disk.contentsOf number))
    (hplaces : List.Forall₂ (Column.Places layout .crc32 data) index pages)
    (hpages : ∀ page ∈ pages, Page.WellFormed layout page) :
    Finding.StandFor (index.flatMap (v.pageFindings c layout)) pages.flatten := by
  induction hplaces with
  | nil => exact .nil
  | @cons entry page index pages hentry _ ih =>
      rcases List.forall_mem_cons.mp hpages with ⟨hpage, hrest⟩
      have hlater := ih hrest
      rw [List.flatMap_cons, List.flatten_cons, pageFindings, hfile]
      cases hload : v.loadPage (some number) entry with
      | error e => exact .badPage e page hlater
      | ok body =>
          rw [loadPage_near hnear hentry hload]
          simp only [Page.decode_body hpage]
          exact (Finding.standFor_documents page).append hlater

-- An index that was changed is refused; the other files are opened.
theorem Volume.openColumn_burst {options : ColumnOptions} {records : List (List Triple)}
    {found : EncodedColumn} (listed : chunk.info.columns.contains column = true)
    (count : chunk.info.recordCount = records.length) (checksum : options.checksum = .crc32)
    (small : Column.Small layout options records)
    (burst : (Column.encode layout options records).Burst found)
    (index : v.disk.read (chunk.indexPath column) = .ok found.index)
    (data : v.disk.read (chunk.dataPath column) = .ok found.data) :
    (found.index ≠ (Column.encode layout options records).index ∧
      ∃ e, v.openColumn chunk column = .error (.failed e)) ∨
    ∃ number p, Near p (Column.encode layout options records).data (v.disk.contentsOf number) ∧
      v.openColumn chunk column = .ok (some ⟨chunk.info.chunk, column,
        Column.indexOf layout options records, some number⟩) := by
  by_cases hsame : found.index = (Column.encode layout options records).index
  · rcases Disk.read_eq_ok.mp data with ⟨number, hnode, hcontents⟩
    rcases burst.near with ⟨p, hnear⟩
    rw [hsame] at index
    exact Or.inr ⟨number, p, hcontents ▸ hnear,
      openColumn_written listed count index hnode small⟩
  · left
    have hrefused : ∃ e, PageIndex.decode found.index = .error (.failed e) :=
      not_forall_not.mp fun hok => hsame (burst.index_eq checksum hok)
    rcases hrefused with ⟨e, he⟩
    refine ⟨hsame, .index e, ?_⟩
    rw [openColumn, listed, index]
    simp only [Bool.not_true, Bool.false_eq_true, if_false, Except.mapError, he, bind, Except.bind,
      Halt.map]

-- Opening a column whose files were changed does not panic.
theorem DiskChunk.Marred.openColumn_ne_panicked {records : List (List Triple)}
    (h : chunk.Marred v.disk column layout records) :
    v.openColumn chunk column ≠ .error .panicked := by
  cases h with
  | missing unlisted =>
      rw [Volume.openColumn_unlisted unlisted]
      exact fun hne => (nomatch hne)
  | stored listed count checksum small levels burst index data =>
      rcases Volume.openColumn_burst listed count checksum small burst index data with
        ⟨-, e, hopen⟩ | ⟨number, p, -, hopen⟩ <;> rw [hopen] <;> exact fun hne => (nomatch hne)

theorem Volume.openColumn_of_badChunk {halt : Halt StoreError}
    (h : .badChunk halt ∈ v.chunkFindings column layout chunk) :
    v.openColumn chunk column = .error halt := by
  rw [chunkFindings] at h
  cases hopen : v.openColumn chunk column with
  | error found =>
      rw [hopen] at h
      cases List.mem_singleton.mp h
      rfl
  | ok opened =>
      rw [hopen] at h
      cases opened with
      | none => cases List.eq_of_mem_replicate h
      | some c =>
          rcases List.mem_flatMap.mp h with ⟨entry, -, hentry⟩
          rw [pageFindings] at hentry
          split at hentry
          · cases List.mem_singleton.mp hentry
          · split at hentry
            · cases List.mem_singleton.mp hentry
            · rcases List.mem_map.mp hentry with ⟨_, -, hne⟩
              cases hne

theorem DiskChunk.Marred.standFor {records : List (List Triple)} (hrep : layout.maxRep < 256)
    (hdef : layout.maxDef < 256) (h : chunk.Marred v.disk column layout records) :
    Finding.StandFor (v.chunkFindings column layout chunk) records := by
  rw [Volume.chunkFindings]
  cases h with
  | missing unlisted =>
      rw [Volume.openColumn_unlisted unlisted]
      simp only
      rw [← List.map_replicate]
      exact Finding.standFor_documents _
  | @stored options _ found listed count checksum small levels burst index data =>
      rcases Volume.openColumn_burst listed count checksum small burst index data with
        ⟨hchanged, e, hopen⟩ | ⟨number, p, hnear, hopen⟩
      · -- Without documents the index is as it was.
        have hsome : records ≠ [] := by
          rintro rfl
          exact hchanged burst.index_eq_of_empty
        have hbad := Finding.StandFor.badChunk (.failed e) hsome .nil
        rw [List.append_nil] at hbad
        rw [hopen]
        exact hbad
      · rw [hopen]
        have hplaces := Column.indexOf_spec layout options records
        rw [checksum] at hplaces
        have hstand := Volume.standFor_pages (c := ⟨chunk.info.chunk, column,
          Column.indexOf layout options records, some number⟩) rfl hnear hplaces
            (small.wellFormed hrep hdef levels)
        rwa [Column.pack_flatten] at hstand

end

/-! ### Cursors -/

/-- A cursor gives some documents, one by one, and then an error. -/
inductive Cursor.Fails : Volume → Cursor → List (List Triple) → Prop where
  | error {v v' : Volume} {c c' : Cursor} {e : StoreError}
      (next : c.next v = (v', .error (.failed e), c')) : Fails v c []
  | document {v v' : Volume} {c c' : Cursor} {triples : List Triple}
      {documents : List (List Triple)} (next : c.next v = (v', .ok (some triples), c'))
      (rest : Fails v' c' documents) : Fails v c (triples :: documents)

section

variable {src : Sources} {chunks : DiskChunk → Prop} {u v : Volume} {c : Cursor}

-- The induction is on the documents in front of the first thing that is none.
theorem Cursor.fails_of_findings {documents : List (List Triple)} {bad : Finding}
    {rest : List Finding} (hv : v.Mirrors src chunks u) (hc : c.From src chunks v.disk)
    (hbad : ∀ triples, bad ≠ .document triples) (hcalm : bad ≠ .badChunk .panicked)
    (h : c.findings u = documents.map .document ++ bad :: rest) : c.Fails v documents := by
  induction documents generalizing v c with
  | nil =>
      rcases next_finds hv hc with ⟨v₁, c₁, hnext, -⟩
      rw [h] at hnext
      cases bad with
      | document triples => exact absurd rfl (hbad triples)
      | badPage e => exact .error hnext
      | badChunk halt =>
          cases halt with
          | failed e => exact .error hnext
          | panicked => exact absurd rfl hcalm
  | cons triples documents ih =>
      rcases next_finds hv hc with ⟨v₁, c₁, hnext, hleft, hv₁, hc₁, -⟩
      rw [h] at hnext hleft
      exact .document hnext (ih hv₁ hc₁ hleft)

end

section

variable {d : Disk} {column : Nat} {layout : PageLayout} {chunks : List DiskChunk}
  {parts : List (List (List Triple))}

-- Of what was changed like this nothing makes a cursor panic.
theorem DiskChunk.panicked_not_mem {v : Volume}
    (h : List.Forall₂ (DiskChunk.Marred v.disk column layout) chunks parts) :
    .badChunk .panicked ∉ chunks.flatMap (v.chunkFindings column layout) := by
  induction h with
  | nil => exact List.not_mem_nil
  | cons hchunk _ ih =>
      rw [List.flatMap_cons, List.mem_append, not_or]
      exact ⟨fun hin => hchunk.openColumn_ne_panicked (Volume.openColumn_of_badChunk hin), ih⟩

/-- The files of a column were written with checksums, chunk by chunk, and in each chunk at most
    four consecutive bytes were changed, of the file or of the entries of its index. A cursor that
    goes through the column gives the first of the documents that were written and then an error,
    or all of them. If it comes to the end without an error, it has given these documents and no
    others. -/
theorem Cursor.fails_or_readsAll (hrep : layout.maxRep < 256) (hdef : layout.maxDef < 256)
    (h : DiskChunk.Apart d chunks)
    (hmarred : List.Forall₂ (DiskChunk.Marred d column layout) chunks parts)
    (backend : ReadBackend) (capacity : Nat) :
    ((∃ before, before <+: parts.flatten ∧
        (ofChunks column layout chunks).Fails (.ofDisk d backend capacity) before) ∨
      (ofChunks column layout chunks).ReadsAll (.ofDisk d backend capacity) parts.flatten) ∧
    ∀ documents, (ofChunks column layout chunks).ReadsAll (.ofDisk d backend capacity) documents →
      documents = parts.flatten := by
  have hmirrors := Volume.mirrors_ofDisk h backend capacity
  have hfrom : (ofChunks column layout chunks).From (.ofChunks d chunks) (· ∈ chunks) d :=
    from_ofChunks _ column layout
  have hstand : ∀ {chunks : List DiskChunk} {parts : List (List (List Triple))},
      List.Forall₂ (DiskChunk.Marred d column layout) chunks parts →
        Finding.StandFor (chunks.flatMap ((Volume.ofDisk d backend capacity).chunkFindings column
          layout)) parts.flatten := by
    intro chunks parts hparts
    induction hparts with
    | nil => exact .nil
    | cons hchunk _ ih =>
        rw [List.flatMap_cons, List.flatten_cons]
        exact (DiskChunk.Marred.standFor hrep hdef hchunk).append ih
  have hiff : ∀ documents, (ofChunks column layout chunks).ReadsAll (.ofDisk d backend capacity)
      documents ↔ chunks.flatMap ((Volume.ofDisk d backend capacity).chunkFindings column layout) =
        documents.map .document := fun documents => readsAll_iff hmirrors hfrom
  rcases (hstand hmarred).documents_or with hall | ⟨before, bad, rest, hfound, hprefix, hbad⟩
  · refine ⟨Or.inr ((hiff _).mpr hall), fun documents hread => ?_⟩
    exact Finding.map_document_injective (((hiff _).mp hread).symm.trans hall)
  · have hcalm : bad ≠ .badChunk .panicked := by
      rintro rfl
      refine DiskChunk.panicked_not_mem (v := .ofDisk d backend capacity) hmarred ?_
      rw [hfound]
      exact List.mem_append_right _ List.mem_cons_self
    refine ⟨Or.inl ⟨before, hprefix, fails_of_findings hmirrors hfrom hbad hcalm hfound⟩,
      fun documents hread => ?_⟩
    have hin : bad ∈ documents.map Finding.document := by
      rw [← (hiff _).mp hread, hfound]
      exact List.mem_append_right _ List.mem_cons_self
    rcases List.mem_map.mp hin with ⟨triples, -, hsame⟩
    exact absurd hsame.symm (hbad triples)

/-- Two documents with a number each. -/
def spared : List (List Triple) :=
  [[⟨some (.int 1), 0, 1⟩], [⟨some (.int 2), 0, 1⟩]]

/-- How they are written, each on a page of its own. -/
def sparedOptions : ColumnOptions := ⟨1, .crc32⟩

/-- The files as they were written, but for four bytes that lie across the border of the pages. -/
def struck : EncodedColumn :=
  let written := Column.encode ⟨0, 1⟩ sparedOptions spared
  ⟨Disk.overwrite written.data 38 [1, 2, 3, 4], written.index⟩

/-- A disk with the files. -/
def struckDisk : Disk :=
  (Disk.empty.addFile ["0.col"] struck.data).addFile ["0.idx"] struck.index

/-- A chunk of the two documents. -/
def struckChunk : DiskChunk := ⟨[], 0, 2, [0]⟩

theorem apart_struck : DiskChunk.Apart struckDisk [struckChunk] where
  numbers := fun chunk hin other hother _ => by
    rw [List.mem_singleton.mp hin, List.mem_singleton.mp hother]
  files := fun chunk hin column hlisted => by
    rw [List.mem_singleton.mp hin] at hlisted ⊢
    rw [List.mem_singleton.mp hlisted]
    decide +kernel

theorem marred_struck : struckChunk.Marred struckDisk 0 ⟨0, 1⟩ spared :=
  have hlevels : ∀ record ∈ spared, ∀ t ∈ record, t.WithinLevels 0 1 := by
    simp [spared, Triple.WithinLevels]
  @DiskChunk.Marred.stored _ _ _ _ sparedOptions spared struck rfl rfl rfl (by decide +kernel)
    hlevels (.data (by decide) (by decide +kernel)) rfl rfl

theorem Cursor.fails_or_readsAll_struck :
    ((∃ before, before <+: spared ∧
        (ofChunks 0 ⟨0, 1⟩ [struckChunk]).Fails (.ofDisk struckDisk .positioned 8) before) ∨
      (ofChunks 0 ⟨0, 1⟩ [struckChunk]).ReadsAll (.ofDisk struckDisk .positioned 8) spared) ∧
    ∀ documents,
      (ofChunks 0 ⟨0, 1⟩ [struckChunk]).ReadsAll (.ofDisk struckDisk .positioned 8) documents →
        documents = spared :=
  fails_or_readsAll (by decide) (by decide) apart_struck
    (.cons marred_struck .nil : List.Forall₂ _ [struckChunk] [spared]) .positioned 8

end

end NestedColumns
