import NestedColumns.Proofs.Page.Index

/-!
# Judging page indexes

What a file has to be like for its bytes to be taken for an index. The footer is looked at
first, and the entries only if their number agrees with the size of the file. The size that
the number asks for has to fit 64 bits, and the number of the document after each page has to
fit 32 bits; reading panics at the first of these that does not.

An index that is taken has exactly the entries that its footer announces, its file has room
for exactly these, and each entry starts with the document after those before it. None of
this is in doubt, since no number is ever cut to its width. What a crafted file can do is to
bring the reader down.

## Main definitions

* `PageIndex.area`, `PageIndex.footer`: The two parts of the file of an index.
* `PageIndex.announced`: The number of entries that a footer tells.
* `PageIndex.Framed`: A footer that is in order.
* `PageIndex.stored`: The entries that are in bytes.
* `PageIndex.Counted`: Each entry starts with the document after those before it.
* `PageIndex.Overruns`: The first entries cover more documents than there are numbers.

## Theorems

* `PageIndex.decodeEntries_eq_ok`, `PageIndex.decodeEntries_eq_panicked`: What becomes of the
  entries.
* `PageIndex.of_decode_eq_ok`: What is known of a file that is taken for an index.
* `PageIndex.decode_counted`: What an index is like that is taken, and when reading it panics.
-/

namespace NestedColumns

namespace PageIndex

/-! ### Entries -/

/-- The first `n` entries that are in some bytes. -/
def stored (n : Nat) (bytes : List UInt8) : PageIndex :=
  (List.range n).map fun k => decodeEntry (bytes.drop (k * entrySize))

theorem stored_succ (n : Nat) (bytes : List UInt8) :
    stored (n + 1) bytes = decodeEntry bytes :: stored n (bytes.drop entrySize) := by
  have hshift : ∀ k, bytes.drop ((k + 1) * entrySize) =
      (bytes.drop entrySize).drop (k * entrySize) := by
    intro k
    rw [List.drop_drop, Nat.succ_mul, Nat.add_comm]
  rw [stored, List.range_succ_eq_map, List.map_cons, List.map_map, Nat.zero_mul, List.drop_zero,
    stored]
  exact congrArg _ (List.map_congr_left fun k _ => congrArg decodeEntry (hshift k))

theorem length_stored (n : Nat) (bytes : List UInt8) : (stored n bytes).length = n := by
  rw [stored, List.length_map, List.length_range]

theorem recordCount_cons (e : PageEntry) (rest : PageIndex) :
    recordCount (e :: rest) = e.recordCount + recordCount rest := by
  rw [recordCount, recordCount, List.map_cons, List.sum_cons]

/-- Each entry starts with the document after those of the entries before it, where the first
    starts with the document `first`. -/
def Counted (first : Nat) (index : PageIndex) : Prop :=
  ∀ k e, index[k]? = some e → e.firstRecord = first + recordCount (index.take k)

theorem counted_nil (first : Nat) : Counted first [] := by
  intro k e he
  cases he

theorem counted_cons {first : Nat} {e : PageEntry} {rest : PageIndex} :
    Counted first (e :: rest) ↔ e.firstRecord = first ∧ Counted (first + e.recordCount) rest := by
  constructor
  · intro h
    refine ⟨h 0 e rfl, fun k found hfound => ?_⟩
    have hk := h (k + 1) found hfound
    rwa [List.take_succ_cons, recordCount_cons, ← Nat.add_assoc] at hk
  · rintro ⟨hfirst, hrest⟩ k found hfound
    cases k with
    | zero =>
        rw [List.getElem?_cons_zero, Option.some.injEq] at hfound
        rw [← hfound, hfirst]
        rfl
    | succ k =>
        rw [List.take_succ_cons, recordCount_cons, ← Nat.add_assoc]
        exact hrest k found hfound

/-- So many entries start where they should, and no number of 32 bits is left for the document
    after them. -/
def Overruns (first : Nat) (index : PageIndex) (k : Nat) : Prop :=
  k ≤ index.length ∧ Counted first (index.take k) ∧ 2 ^ 32 ≤ first + recordCount (index.take k)

theorem overruns_cons {first k : Nat} {e : PageEntry} {rest : PageIndex} :
    Overruns first (e :: rest) (k + 1) ↔
      e.firstRecord = first ∧ Overruns (first + e.recordCount) rest k := by
  rw [Overruns, Overruns, List.take_succ_cons, counted_cons, recordCount_cons, List.length_cons,
    Nat.add_le_add_iff_right, Nat.add_assoc]
  exact ⟨fun h => ⟨h.2.1.1, h.1, h.2.1.2, h.2.2⟩, fun h => ⟨h.2.1, ⟨h.1, h.2.2.1⟩, h.2.2.2⟩⟩

-- The induction is on the number of entries; `next` is the number of the first document of the
-- first of them.
theorem decodeEntries_eq_ok {n next : Nat} {bytes : List UInt8} {index : PageIndex}
    (hn : next < 2 ^ 32) : decodeEntries n next bytes = .ok index ↔
      index = stored n bytes ∧ Counted next index ∧ next + recordCount index < 2 ^ 32 := by
  induction n generalizing next bytes index with
  | zero =>
      rw [decodeEntries, Except.ok.injEq]
      constructor
      · rintro rfl
        exact ⟨rfl, counted_nil _, hn⟩
      · rintro ⟨rfl, -⟩
        rfl
  | succ n ih =>
      rw [decodeEntries, stored_succ]
      by_cases hgap : (decodeEntry bytes).firstRecord = next
      swap
      · rw [if_pos hgap]
        refine ⟨fun h => (by cases h), ?_⟩
        rintro ⟨rfl, hcounted, -⟩
        exact absurd (counted_cons.mp hcounted).1 hgap
      rw [if_neg (fun hne => hne hgap)]
      by_cases hwide : 2 ^ 32 ≤ next + (decodeEntry bytes).recordCount
      · rw [if_pos hwide]
        refine ⟨fun h => (by cases h), ?_⟩
        rintro ⟨rfl, -, hsum⟩
        rw [recordCount_cons] at hsum
        omega
      · rw [if_neg hwide, Outcome.bind_eq_ok]
        have hrest := fun rest => @ih _ (bytes.drop entrySize) rest (Nat.lt_of_not_le hwide)
        constructor
        · rintro ⟨rest, hdecode, hindex⟩
          cases hindex
          rcases (hrest rest).mp hdecode with ⟨rfl, hcounted, hsum⟩
          refine ⟨rfl, counted_cons.mpr ⟨hgap, hcounted⟩, ?_⟩
          rwa [recordCount_cons, ← Nat.add_assoc]
        · rintro ⟨rfl, hcounted, hsum⟩
          rw [recordCount_cons, ← Nat.add_assoc] at hsum
          exact ⟨_, (hrest _).mpr ⟨rfl, (counted_cons.mp hcounted).2, hsum⟩, rfl⟩

/-- Reading entries panics if and only if some of the first are in order but leave no number for
    the document after them. -/
theorem decodeEntries_eq_panicked {n next : Nat} {bytes : List UInt8} (hn : next < 2 ^ 32) :
    decodeEntries n next bytes = .error .panicked ↔ ∃ k, Overruns next (stored n bytes) k := by
  induction n generalizing next bytes with
  | zero =>
      refine ⟨fun h => (by cases h), ?_⟩
      rintro ⟨k, -, -, hsum⟩
      rw [stored, List.range_zero, List.map_nil, List.take_nil, recordCount, List.map_nil,
        List.sum_nil] at hsum
      omega
  | succ n ih =>
      have hsplit : (∃ k, Overruns next (stored (n + 1) bytes) k) ↔
          (decodeEntry bytes).firstRecord = next ∧
            ∃ k, Overruns (next + (decodeEntry bytes).recordCount)
              (stored n (bytes.drop entrySize)) k := by
        rw [stored_succ]
        constructor
        · rintro ⟨k, h⟩
          cases k with
          | zero => exact absurd h.2.2 (Nat.not_le_of_lt hn)
          | succ k => exact ⟨(overruns_cons.mp h).1, k, (overruns_cons.mp h).2⟩
        · rintro ⟨hfirst, k, h⟩
          exact ⟨k + 1, overruns_cons.mpr ⟨hfirst, h⟩⟩
      rw [hsplit, decodeEntries]
      by_cases hgap : (decodeEntry bytes).firstRecord = next
      swap
      · rw [if_pos hgap]
        exact ⟨fun h => (by cases h), fun h => absurd h.1 hgap⟩
      rw [if_neg (fun hne => hne hgap)]
      by_cases hwide : 2 ^ 32 ≤ next + (decodeEntry bytes).recordCount
      · rw [if_pos hwide]
        exact ⟨fun _ => ⟨hgap, 0, Nat.zero_le _, counted_nil _, hwide⟩, fun _ => rfl⟩
      · rw [if_neg hwide, ← ih (Nat.lt_of_not_le hwide)]
        cases decodeEntries n (next + (decodeEntry bytes).recordCount) (bytes.drop entrySize) with
        | error e => exact ⟨fun h => ⟨hgap, h⟩, fun h => h.2⟩
        | ok rest => exact ⟨fun h => (by cases h), fun h => by cases h.2⟩

/-! ### Files -/

/-- The bytes of a file that hold its entries. -/
def area (data : List UInt8) : List UInt8 :=
  data.take (data.length - footerSize)

/-- The bytes of a file behind its entries. -/
def footer (data : List UInt8) : List UInt8 :=
  data.drop (data.length - footerSize)

/-- The number of entries that the footer of a file tells. -/
def announced (data : List UInt8) : Nat :=
  Bytes.ofBig (((footer data).drop 8).take 8)

/-- The footer of a file is in order: it has the mark, the version, and the checksum of the
    entries. -/
structure Framed (data : List UInt8) : Prop where
  size : footerSize ≤ data.length
  mark : Bytes.ofBig ((footer data).take 4) = mark
  version : Bytes.ofBig (((footer data).drop 4).take 4) = version
  checksum : ∃ type, ChecksumType.ofCode (Bytes.ofBig (((footer data).drop 16).take 4)) = .ok type ∧
    type.verify (area data) (Bytes.ofBig ((footer data).drop 20)) = .ok ()

/-- What the footer of a file comes to. -/
inductive Footing (data : List UInt8) : Prop where
  /-- It is in order, and the entries decide. -/
  | framed (framed : Framed data) (judged : decode data = decodeAll (announced data) (area data))
  /-- It is not, and that is the error. -/
  | refused (unframed : ¬ Framed data) (e : IndexError) (refused : decode data = .error (.failed e))

theorem checkFooter_eq_ok {entries footer : List UInt8} {count : Nat} :
    checkFooter entries footer = .ok count ↔ Bytes.ofBig (footer.take 4) = mark ∧
      Bytes.ofBig ((footer.drop 4).take 4) = version ∧
      (∃ type, ChecksumType.ofCode (Bytes.ofBig ((footer.drop 16).take 4)) = .ok type ∧
        type.verify entries (Bytes.ofBig (footer.drop 20)) = .ok ()) ∧
      count = Bytes.ofBig ((footer.drop 8).take 8) := by
  rw [checkFooter]
  by_cases hmark : Bytes.ofBig (footer.take 4) = mark
  swap
  · rw [if_pos hmark]
    exact ⟨fun h => (by cases h), fun h => absurd h.1 hmark⟩
  rw [if_neg fun hne => hne hmark]
  by_cases hversion : Bytes.ofBig ((footer.drop 4).take 4) = version
  swap
  · dsimp only
    rw [if_pos hversion]
    exact ⟨fun h => (by cases h), fun h => absurd h.2.1 hversion⟩
  dsimp only
  rw [if_neg fun hne => hne hversion, Outcome.bind_eq_ok]
  constructor
  · rintro ⟨type, htype, h⟩
    rcases Outcome.bind_eq_ok.mp h with ⟨_, hverify, hcount⟩
    cases hcount
    exact ⟨hmark, hversion, ⟨type, Outcome.mapError_eq_ok.mp htype,
      Outcome.mapError_eq_ok.mp hverify⟩, rfl⟩
  · rintro ⟨-, -, ⟨type, htype, hverify⟩, rfl⟩
    exact ⟨type, Outcome.mapError_eq_ok.mpr htype,
      Outcome.bind_eq_ok.mpr ⟨(), Outcome.mapError_eq_ok.mpr hverify, rfl⟩⟩

theorem footing (data : List UInt8) : Footing data := by
  by_cases hsize : data.length < footerSize
  · exact .refused (fun h => absurd h.size (by omega)) .tooSmall (if_pos hsize)
  cases hfooter : checkFooter (area data) (footer data) with
  | error e =>
      refine .refused (fun h => ?_) e ?_
      · have hok := checkFooter_eq_ok.mpr ⟨h.mark, h.version, h.checksum, rfl⟩
        cases hfooter.symm.trans hok
      · rw [area, footer] at hfooter
        simp only [decode, if_neg hsize, hfooter]
  | ok count =>
      rcases checkFooter_eq_ok.mp hfooter with ⟨hmark, hversion, hchecksum, rfl⟩
      refine .framed ⟨by omega, hmark, hversion, hchecksum⟩ ?_
      rw [area, footer] at hfooter
      simp only [decode, if_neg hsize, hfooter]
      rfl

/-! ### Verdicts -/

/-- A file that is not refused with an error has a footer in order. -/
theorem framed_of_decode {data : List UInt8} (h : ∀ e, decode data ≠ .error (.failed e)) :
    Framed data := by
  cases footing data with
  | framed hframed _ => exact hframed
  | refused _ e hrefused => exact absurd hrefused (h e)

/-- A file that is taken for an index has a footer in order and room for exactly the entries
    that it announces. Each entry starts with the document after those before it, and there is a
    number for the document after them all. -/
theorem of_decode_eq_ok {data : List UInt8} {index : PageIndex} (h : decode data = .ok index) :
    Framed data ∧ (area data).length = announced data * entrySize ∧
      index = stored (announced data) (area data) ∧ Counted 0 index ∧
        recordCount index < 2 ^ 32 := by
  cases footing data with
  | framed hframed hdecode =>
      rw [hdecode, decodeAll] at h
      split at h
      · cases h
      · split at h
        · cases h
        · next hlength =>
          rcases (decodeEntries_eq_ok (Nat.two_pow_pos 32)).mp h with ⟨hindex, hcounted, hsum⟩
          rw [Nat.zero_add] at hsum
          exact ⟨hframed, Decidable.not_not.mp hlength, hindex, hcounted, hsum⟩
  | refused _ e hdecode => cases h.symm.trans hdecode

/-- Reading a file panics if and only if its footer is in order, and either the size of the entries
    that it announces does not fit 64 bits, or it is that of the file and some of the first entries
    cover all documents that there are numbers for. -/
theorem decode_eq_panicked {data : List UInt8} : decode data = .error .panicked ↔ Framed data ∧
    (2 ^ 64 ≤ announced data * entrySize ∨
      (area data).length = announced data * entrySize ∧
        ∃ k, Overruns 0 (stored (announced data) (area data)) k) := by
  cases footing data with
  | framed hframed hdecode =>
      rw [hdecode, decodeAll]
      by_cases hsize : 2 ^ 64 ≤ announced data * entrySize
      · rw [if_pos hsize]
        exact ⟨fun _ => ⟨hframed, Or.inl hsize⟩, fun _ => rfl⟩
      rw [if_neg hsize]
      by_cases hlength : (area data).length = announced data * entrySize
      · rw [if_neg fun hne => hne hlength, decodeEntries_eq_panicked (Nat.two_pow_pos 32)]
        exact ⟨fun h => ⟨hframed, Or.inr ⟨hlength, h⟩⟩, fun h => (h.2.resolve_left hsize).2⟩
      · rw [if_pos hlength]
        exact ⟨fun h => (by cases h), fun h => absurd (h.2.resolve_left hsize).1 hlength⟩
  | refused hunframed e hdecode =>
      rw [hdecode]
      exact ⟨fun h => (by cases h), fun h => absurd h.1 hunframed⟩

/-- An index that is taken has as many entries as its footer announces, and its file has room for
    exactly these, each of which starts with the document after those before it. Reading panics if
    and only if the footer is in order, and either the size of the entries does not fit 64 bits, or
    it is that of the file and after some of the first entries, which all start where they should,
    no number of 32 bits is left for the next document. -/
theorem decode_counted (data : List UInt8) :
    (∀ index, decode data = .ok index →
      index.length = announced data ∧ (area data).length = announced data * entrySize ∧
        Counted 0 index) ∧
      (decode data = .error .panicked ↔ Framed data ∧
        (2 ^ 64 ≤ announced data * entrySize ∨
          (area data).length = announced data * entrySize ∧
            ∃ k, Overruns 0 (stored (announced data) (area data)) k)) := by
  refine ⟨fun index h => ?_, decode_eq_panicked⟩
  rcases of_decode_eq_ok h with ⟨-, hroom, hindex, hcounted, -⟩
  exact ⟨hindex ▸ length_stored .., hroom, hcounted⟩

/-- Two pages with a hundred bytes each. -/
def twoPages : PageIndex :=
  [⟨0, 100, 0, 10, 20⟩, ⟨100, 100, 10, 5, 10⟩]

/-- A footer that announces `2 ^ 62` entries, and no entries. -/
def boundless : List UInt8 :=
  Bytes.big 4 mark ++ Bytes.big 4 version ++ Bytes.big 8 (2 ^ 62) ++ Bytes.big 4 0 ++ Bytes.big 8 0

-- The second page starts with the document after the ten of the first. A footer without entries
-- is enough for a panic.
theorem decode_counted_twoPages :
    (decode (encode .crc32 twoPages) = .ok twoPages ∧ Counted 0 twoPages) ∧
      decode boundless = .error .panicked := by
  have htaken : decode (encode .crc32 twoPages) = .ok twoPages := by decide +kernel
  have hframed : Framed boundless :=
    ⟨by decide, by decide +kernel, by decide +kernel, .none, by decide +kernel, by decide +kernel⟩
  exact ⟨⟨htaken, ((decode_counted _).1 twoPages htaken).2.2⟩,
    (decode_counted boundless).2.mpr ⟨hframed, Or.inl (by decide +kernel)⟩⟩

/-- Three pages, of which the first two cover `2 ^ 32` documents. -/
def overfull : PageIndex :=
  [⟨0, 1, 0, 2 ^ 31, 0⟩, ⟨1, 1, 2 ^ 31, 2 ^ 31, 0⟩, ⟨2, 1, 0, 1, 0⟩]

-- The third page starts with the first document again, but that is not what reading stops at.
theorem decode_panics_overfull : decode (encode .none overfull) = .error .panicked := by
  decide +kernel

end PageIndex

end NestedColumns
