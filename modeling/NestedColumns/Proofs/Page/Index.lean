import NestedColumns.PageIndex
import NestedColumns.Proofs.Page.Decoding

/-!
# Reading page indexes

An index is read back from its bytes if its numbers fit their fields and its pages
follow each other without a gap.

## Main definitions

* `PageEntry.Fits`: The numbers of an entry fit their fields.
* `PageIndex.Contiguous`: Each page starts with the document after the one before.
* `PageIndex.Tiles`: The pages lie one behind the other, in the file and in the documents.

## Theorems

* `PageIndex.drop_second`, `PageIndex.drop_third`, `PageIndex.drop_fourth`: The fields of a footer.
* `PageIndex.decode_encode`: An index is read back.
-/

namespace NestedColumns

/-- The numbers of an entry fit their fields. -/
structure PageEntry.Fits (e : PageEntry) : Prop where
  offset : e.offset < 2 ^ 64
  length : e.length < 2 ^ 64
  firstRecord : e.firstRecord < 2 ^ 32
  recordCount : e.recordCount < 2 ^ 32
  valueCount : e.valueCount < 2 ^ 32

namespace PageIndex

/-- Each page starts with the document after the last one of the page before. -/
def Contiguous : Nat → PageIndex → Prop
  | _, [] => True
  | first, e :: rest => e.firstRecord = first ∧ Contiguous (first + e.recordCount) rest

/-- Pages that lie one behind the other from the byte `offset` and the document `first` on, and
    end with the last byte of a file and the last of its documents. None is empty. -/
def Tiles (bytes records : Nat) : (offset first : Nat) → PageIndex → Prop
  | offset, first, [] => offset = bytes ∧ first = records
  | offset, first, e :: rest =>
    e.offset = offset ∧ e.firstRecord = first ∧ 0 < e.length ∧ 0 < e.recordCount ∧
      Tiles bytes records (offset + e.length) (first + e.recordCount) rest

theorem length_encodeEntry (e : PageEntry) : (encodeEntry e).length = entrySize := by
  simp only [encodeEntry, List.length_append, Bytes.length_big, entrySize]

theorem length_encodeEntries (index : PageIndex) :
    (encodeEntries index).length = index.length * entrySize := by
  induction index with
  | nil => rfl
  | cons e rest ih =>
      have hcons : encodeEntries (e :: rest) = encodeEntry e ++ encodeEntries rest := rfl
      rw [hcons, List.length_append, length_encodeEntry, ih, List.length_cons, Nat.succ_mul,
        Nat.add_comm]

theorem drop_add (n m : Nat) (bytes : List UInt8) : bytes.drop (n + m) = (bytes.drop n).drop m :=
  (List.drop_drop ..).symm

theorem decodeEntry_append {e : PageEntry} (h : e.Fits) (rest : List UInt8) :
    decodeEntry (encodeEntry e ++ rest) = e := by
  have hbytes : encodeEntry e ++ rest = Bytes.big 8 e.offset ++ (Bytes.big 8 e.length ++
      (Bytes.big 4 e.firstRecord ++ (Bytes.big 4 e.recordCount ++
        (Bytes.big 4 e.valueCount ++ rest)))) := by
    simp only [encodeEntry, List.append_assoc]
  have h₁ := Bytes.length_big 8 e.offset
  have h₂ := Bytes.length_big 8 e.length
  have h₃ := Bytes.length_big 4 e.firstRecord
  have h₄ := Bytes.length_big 4 e.recordCount
  have h₅ := Bytes.length_big 4 e.valueCount
  rw [hbytes, decodeEntry, drop_add 8 8, drop_add 8 12, drop_add 8 16, List.drop_left' h₁, drop_add 8 4,
    drop_add 8 8, List.drop_left' h₂, drop_add 4 4, List.drop_left' h₃, List.drop_left' h₄,
    List.take_left' h₁, List.take_left' h₂, List.take_left' h₃, List.take_left' h₄,
    List.take_left' h₅, Bytes.ofBig_big_of_lt h.offset, Bytes.ofBig_big_of_lt h.length,
    Bytes.ofBig_big_of_lt h.firstRecord, Bytes.ofBig_big_of_lt h.recordCount,
    Bytes.ofBig_big_of_lt h.valueCount]

-- Each number of a next document fits its field, since all documents together do.
theorem decodeEntries_encodeEntries {index : PageIndex} (hf : ∀ e ∈ index, e.Fits)
    {first : Nat} (hc : Contiguous first index) (hsum : first + recordCount index < 2 ^ 32) :
    decodeEntries index.length first (encodeEntries index) = .ok index := by
  induction index generalizing first with
  | nil => rfl
  | cons e rest ih =>
      have hbytes : encodeEntries (e :: rest) = encodeEntry e ++ encodeEntries rest := rfl
      have hcount : recordCount (e :: rest) = e.recordCount + recordCount rest := by
        simp only [recordCount, List.map_cons, List.sum_cons]
      have hnext : ¬ 2 ^ 32 ≤ first + e.recordCount := by omega
      have hrest := ih (fun e he => hf e (List.mem_cons_of_mem _ he)) hc.2 (by omega)
      rw [hbytes, List.length_cons, decodeEntries]
      simp only [decodeEntry_append (hf e List.mem_cons_self), List.drop_left' (length_encodeEntry e),
        hc.1, ne_eq, not_true_eq_false, if_false, hnext]
      exact Outcome.bind_eq_ok.mpr ⟨rest, hrest, rfl⟩

/-! ### The footer -/

theorem encode_eq (checksum : ChecksumType) (index : PageIndex) :
    encode checksum index = encodeEntries index ++ (Bytes.big 4 mark ++ (Bytes.big 4 version ++
      (Bytes.big 8 index.length ++ (Bytes.big 4 checksum.code ++
        Bytes.big 8 (checksum.sum (encodeEntries index)))))) := by
  simp only [encode, List.append_assoc]

theorem length_encode (checksum : ChecksumType) (index : PageIndex) :
    (encode checksum index).length = (encodeEntries index).length + footerSize := by
  rw [encode_eq]
  simp only [List.length_append, Bytes.length_big, footerSize]

-- Where the fields of the footer start.
section

variable (a b n c : Nat) (rest : List UInt8)

theorem drop_second : (Bytes.big 4 a ++ (Bytes.big 4 b ++ rest)).drop 8 = rest := by
  rw [drop_add 4 4, List.drop_left' (Bytes.length_big 4 a), List.drop_left' (Bytes.length_big 4 b)]

theorem drop_third :
    (Bytes.big 4 a ++ (Bytes.big 4 b ++ (Bytes.big 8 n ++ rest))).drop 16 = rest := by
  rw [drop_add 8 8, drop_second, List.drop_left' (Bytes.length_big 8 n)]

theorem drop_fourth :
    (Bytes.big 4 a ++ (Bytes.big 4 b ++ (Bytes.big 8 n ++ (Bytes.big 4 c ++ rest)))).drop 20 =
      rest := by
  rw [drop_add 16 4, drop_third, List.drop_left' (Bytes.length_big 4 c)]

end

theorem checkFooter_encode (checksum : ChecksumType) {index : PageIndex}
    (hlen : index.length < 2 ^ 32) :
    checkFooter (encodeEntries index) (Bytes.big 4 mark ++ (Bytes.big 4 version ++
      (Bytes.big 8 index.length ++ (Bytes.big 4 checksum.code ++
        Bytes.big 8 (checksum.sum (encodeEntries index)))))) = .ok index.length := by
  have hmark : Bytes.ofBig (Bytes.big 4 mark) = mark := Bytes.ofBig_big_of_lt (by decide)
  have hversion : Bytes.ofBig (Bytes.big 4 version) = version := Bytes.ofBig_big_of_lt (by decide)
  have hcount : Bytes.ofBig (Bytes.big 8 index.length) = index.length :=
    Bytes.ofBig_big_of_lt (by omega)
  simp only [checkFooter, drop_second, drop_third, drop_fourth, List.take_left' (Bytes.length_big 4 _),
    List.drop_left' (Bytes.length_big 4 _), List.take_left' (Bytes.length_big 8 _), hmark, hversion,
    hcount, Bytes.ofBig_big_of_lt checksum.code_lt, Bytes.ofBig_big_of_lt (checksum.sum_lt _),
    ChecksumType.ofCode_code, ChecksumType.verify_sum, ne_eq, not_true_eq_false, if_false,
    Except.mapError, bind, Except.bind, pure, Except.pure]

theorem decode_encode (checksum : ChecksumType) {index : PageIndex} (hf : ∀ e ∈ index, e.Fits)
    (hc : Contiguous 0 index) (hsum : recordCount index < 2 ^ 32)
    (hlen : index.length < 2 ^ 32) : decode (encode checksum index) = .ok index := by
  have hentries := length_encodeEntries index
  have hlength := length_encode checksum index
  have hcut : (encode checksum index).length - footerSize = (encodeEntries index).length := by omega
  have hsize : ¬ 2 ^ 64 ≤ index.length * entrySize := by
    simp only [entrySize]
    omega
  rw [decode, if_neg (by omega), hcut, encode_eq, List.take_left' rfl, List.drop_left' rfl]
  simp only [checkFooter_encode checksum hlen]
  rw [decodeAll, if_neg hsize, if_neg (fun hne => hne hentries)]
  exact decodeEntries_encodeEntries hf hc (by omega)

end PageIndex

end NestedColumns
