import NestedColumns.Page.Decode
import NestedColumns.Proofs.Outcome
import NestedColumns.Proofs.Text.Utf8

/-!
# Reading what pages hold

A page is read back from its bytes if its numbers fit their fields: the counts and
the lengths of strings are below `2 ^ 32`, the levels within those of the column,
which fit a byte, and a value is there exactly at the highest definition level. Each
part is read back in front of whatever follows it.

## Main definitions

* `Triple.Short`: The string of an entry, if it is one, has a length that fits.
* `Page.WellFormed`: A page whose numbers fit their fields.

## Theorems

* `DataValue.decode_encode`: A value is read back.
* `Page.decode_body`: The documents of a page are read back.
* `Page.verified_withChecksum`: A page passes its own check.
-/

namespace NestedColumns

namespace Bytes

theorem ofLittle_little_of_lt {width n : Nat} (h : n < 256 ^ width) :
    ofLittle (little width n) = n := by
  rw [ofLittle_little, Nat.mod_eq_of_lt h]

theorem ofBig_big_of_lt {width n : Nat} (h : n < 256 ^ width) : ofBig (big width n) = n := by
  rw [ofBig_big, Nat.mod_eq_of_lt h]

theorem split?_append {n : Nat} {bytes : List UInt8} (h : bytes.length = n) (rest : List UInt8) :
    split? n (bytes ++ rest) = some (bytes, rest) := by
  have hle : n ≤ (bytes ++ rest).length := by
    rw [List.length_append]
    omega
  rw [split?, if_pos hle, List.take_left' h, List.drop_left' h]

end Bytes

/-- The string of an entry, if it is one, is shorter than `2 ^ 32` bytes. -/
def Triple.Short (t : Triple) : Prop :=
  ∀ s, t.value = some (.string s) → (Utf8.encode s.toList).length < 2 ^ 32

instance (t : Triple) : Decidable t.Short :=
  match hv : t.value with
  | some (.string s) =>
    decidable_of_iff ((Utf8.encode s.toList).length < 2 ^ 32)
      ⟨fun h s' hs => by cases hv.symm.trans hs; exact h, fun h => h s hv⟩
  | none => .isTrue fun s hs => by cases hv.symm.trans hs
  | some (.bool _) => .isTrue fun s hs => by cases hv.symm.trans hs
  | some (.int _) => .isTrue fun s hs => by cases hv.symm.trans hs
  | some (.float _) => .isTrue fun s hs => by cases hv.symm.trans hs

namespace DataValue

theorem need_append {n : Nat} {bytes : List UInt8} (h : bytes.length = n) (rest : List UInt8) :
    need n (bytes ++ rest) = .ok (bytes, rest) := by
  rw [need, Bytes.split?_append h]

theorem decode_encode (v : DataValue)
    (hs : ∀ s, v = .string s → (Utf8.encode s.toList).length < 2 ^ 32) (rest : List UInt8) :
    decode (encode v ++ rest) = .ok (v, rest) := by
  cases v with
  | bool b =>
      cases b <;> rfl
  | int n =>
      have hlt : n.toUInt64.toNat < 256 ^ 8 := n.toUInt64.toNat_lt
      have hneed := need_append (Bytes.length_little 8 n.toUInt64.toNat) rest
      have hvalue : (UInt64.ofNat n.toUInt64.toNat).toInt64 = n := by
        rw [UInt64.ofNat_toNat, Int64.toInt64_toUInt64]
      rw [encode, List.cons_append, decode]
      simp only [UInt8.reduceToNat]
      rw [hneed]
      simp only [bind, Except.bind, Bytes.ofLittle_little_of_lt hlt, hvalue]
      rfl
  | float d =>
      have hlt : d.bits.toNat < 256 ^ 8 := d.bits.toNat_lt
      have hneed := need_append (Bytes.length_little 8 d.bits.toNat) rest
      rw [encode, List.cons_append, decode]
      simp only [UInt8.reduceToNat]
      rw [hneed]
      simp only [bind, Except.bind, Bytes.ofLittle_little_of_lt hlt, UInt64.ofNat_toNat]
      rfl
  | string s =>
      have hlt : (Utf8.encode s.toList).length < 256 ^ 4 := hs s rfl
      have hlength := need_append (Bytes.length_little 4 (Utf8.encode s.toList).length)
        (Utf8.encode s.toList ++ rest)
      have htext : need (Utf8.encode s.toList).length (Utf8.encode s.toList ++ rest) =
          .ok (Utf8.encode s.toList, rest) := need_append rfl rest
      rw [encode, List.cons_append, decode]
      simp only [UInt8.reduceToNat, List.append_assoc]
      rw [hlength]
      simp only [bind, Except.bind, Bytes.ofLittle_little_of_lt hlt]
      rw [htext]
      simp only [Utf8.read?_encode, String.ofList_toList]
      rfl

end DataValue

namespace Page

/-- A page whose levels are those of its column and whose numbers fit their fields. -/
structure WellFormed (layout : PageLayout) (page : Page) : Prop where
  maxRep : layout.maxRep < 256
  maxDef : layout.maxDef < 256
  records : page.length < 2 ^ 32
  entries : page.flatten.length < 2 ^ 32
  levels : ∀ t ∈ page.flatten, t.WithinLevels layout.maxRep layout.maxDef
  short : ∀ t ∈ page.flatten, t.Short

theorem decodeCounts_append (page : Page) (h : ∀ triples ∈ page, triples.length < 2 ^ 32)
    (rest : List UInt8) :
    decodeCounts page.length
      (page.flatMap (fun triples => Bytes.little 4 triples.length) ++ rest) =
      page.map (·.length) := by
  induction page with
  | nil => rfl
  | cons triples page ih =>
      have hlt : triples.length < 256 ^ 4 := h triples List.mem_cons_self
      have hfour := Bytes.length_little 4 triples.length
      rw [List.length_cons, decodeCounts, List.flatMap_cons, List.append_assoc,
        List.take_left' hfour, List.drop_left' hfour, Bytes.ofLittle_little_of_lt hlt,
        ih fun more hm => h more (List.mem_cons_of_mem _ hm), List.map_cons]

theorem length_decodeCounts (n : Nat) (bytes : List UInt8) : (decodeCounts n bytes).length = n := by
  induction n generalizing bytes with
  | zero => rfl
  | succ n ih => rw [decodeCounts, List.length_cons, ih]

theorem length_cut {α : Type} (counts : List Nat) (xs : List α) :
    (cut counts xs).length = counts.length := by
  induction counts generalizing xs with
  | nil => rfl
  | cons n counts ih => rw [cut, List.length_cons, List.length_cons, ih]

theorem withChecksum_eq (checksum : ChecksumType) (body : List UInt8) :
    withChecksum checksum body = withKind body ++
      (Bytes.big 4 checksum.code ++ Bytes.big 8 (checksum.sum (withKind body))) := by
  rw [withChecksum, List.append_assoc]

theorem length_withKind (body : List UInt8) : (withKind body).length = body.length + 4 := by
  rw [withKind, List.length_append, Bytes.length_big]

theorem length_withChecksum (checksum : ChecksumType) (body : List UInt8) :
    (withChecksum checksum body).length = body.length + trailerSize := by
  rw [withChecksum_eq, List.length_append, List.length_append, length_withKind, Bytes.length_big,
    Bytes.length_big, trailerSize]

theorem length_counts (page : Page) :
    (page.flatMap fun triples => Bytes.little 4 triples.length).length = 4 * page.length := by
  induction page with
  | nil => rfl
  | cons triples page ih =>
      rw [List.flatMap_cons, List.length_append, ih, Bytes.length_little, List.length_cons]
      omega

theorem cut_flatten {α : Type} (pieces : List (List α)) :
    cut (pieces.map (·.length)) pieces.flatten = pieces := by
  induction pieces with
  | nil => rfl
  | cons piece pieces ih =>
      rw [List.map_cons, List.flatten_cons, cut, List.take_left' rfl, List.drop_left' rfl, ih]

-- A value is taken for those entries that have one, which are the deepest ones.
theorem decodeTriples_valueBytes {layout : PageLayout} (triples : List Triple)
    (hl : ∀ t ∈ triples, t.WithinLevels layout.maxRep layout.maxDef)
    (hs : ∀ t ∈ triples, t.Short) :
    decodeTriples layout (triples.map fun t => (t.rep, t.level)) (valueBytes triples) =
      .ok triples := by
  induction triples with
  | nil => rfl
  | cons t triples ih =>
      have hrest := ih (fun t ht => hl t (List.mem_cons_of_mem _ ht))
        (fun t ht => hs t (List.mem_cons_of_mem _ ht))
      rcases hl t List.mem_cons_self with ⟨hrep, hlevel, hvalue⟩
      have hin : ¬ (layout.maxRep < t.rep ∨ layout.maxDef < t.level) := by omega
      rw [List.map_cons, decodeTriples, if_neg hin, valueBytes, List.flatMap_cons]
      rcases t with ⟨value, rep, level⟩
      cases value with
      | none =>
          have hbelow : level ≠ layout.maxDef := fun h => by
            have hsome := hvalue.mpr h
            cases hsome
          rw [if_neg hbelow, Option.map_none, Option.getD_none, List.nil_append]
          exact Outcome.bind_eq_ok.mpr ⟨triples, hrest, rfl⟩
      | some v =>
          have hdeep : level = layout.maxDef := hvalue.mp rfl
          have hshort := hs _ List.mem_cons_self
          have hdecode := DataValue.decode_encode v (fun s h => hshort s (congrArg some h))
            (valueBytes triples)
          rw [if_pos hdeep, Option.map_some, Option.getD_some]
          exact Outcome.bind_eq_ok.mpr ⟨_, hdecode, Outcome.bind_eq_ok.mpr ⟨triples, hrest, rfl⟩⟩

-- The levels of all entries, each a byte.
theorem map_toNat_map_ofNat {triples : List Triple} {f : Triple → Nat}
    (h : ∀ t ∈ triples, f t < 256) :
    (triples.map fun t => UInt8.ofNat (f t)).map UInt8.toNat = triples.map f := by
  rw [List.map_map]
  exact List.map_congr_left fun t ht => Utf8.toNat_ofNat_of_lt (h t ht)

theorem decode_header (layout : PageLayout) (n m : Nat) (pageRep pageDef : UInt8)
    (rest : List UInt8) :
    decode layout (Bytes.little 4 n ++ (Bytes.little 4 m ++ pageRep :: pageDef :: rest)) =
      let records := Bytes.ofLittle (Bytes.little 4 n)
      let entries := Bytes.ofLittle (Bytes.little 4 m)
      if (pageRep.toNat, pageDef.toNat) ≠ (layout.maxRep, layout.maxDef) then
        .error (.levels pageRep.toNat pageDef.toNat layout.maxRep layout.maxDef)
      else
        let repSize := if layout.maxRep = 0 then 0 else entries
        if rest.length < 4 * records + repSize + entries then .error .truncated
        else
          let counts := decodeCounts records rest
          if counts.sum ≠ entries then .error .counts
          else do
            let rest := rest.drop (4 * records)
            let reps :=
              if layout.maxRep = 0 then List.replicate entries 0
              else (rest.take entries).map UInt8.toNat
            let rest := rest.drop repSize
            let levels := (rest.take entries).map UInt8.toNat
            let triples ← decodeTriples layout (reps.zip levels) (rest.drop entries)
            return cut counts triples :=
  rfl

theorem length_repBytes (layout : PageLayout) (triples : List Triple) :
    (repBytes layout triples).length = if layout.maxRep = 0 then 0 else triples.length := by
  rw [repBytes]
  split
  · rfl
  · rw [List.length_map]

-- Where no repetition levels are written, they are all zero.
theorem reps_eq {layout : PageLayout} {triples : List Triple} (hr : layout.maxRep < 256)
    (h : ∀ t ∈ triples, t.rep ≤ layout.maxRep) (rest : List UInt8) :
    (if layout.maxRep = 0 then List.replicate triples.length 0
      else ((repBytes layout triples ++ rest).take triples.length).map UInt8.toNat) =
      triples.map (·.rep) := by
  by_cases hzero : layout.maxRep = 0
  · rw [if_pos hzero, eq_comm, List.eq_replicate_iff, List.length_map]
    refine ⟨rfl, fun rep hrep => ?_⟩
    rcases List.mem_map.mp hrep with ⟨t, ht, rfl⟩
    have hle := h t ht
    omega
  · have hlength : (repBytes layout triples).length = triples.length := by
      rw [length_repBytes, if_neg hzero]
    rw [if_neg hzero, List.take_left' hlength, repBytes, if_neg hzero]
    refine map_toNat_map_ofNat fun t ht => ?_
    have hle := h t ht
    omega

theorem decode_body {layout : PageLayout} {page : Page} (h : WellFormed layout page) :
    decode layout (body layout page) = .ok page := by
  have hbody : body layout page = Bytes.little 4 page.length ++
      (Bytes.little 4 page.flatten.length ++ UInt8.ofNat layout.maxRep ::
        UInt8.ofNat layout.maxDef :: (page.flatMap (fun triples => Bytes.little 4 triples.length) ++
          (repBytes layout page.flatten ++ (page.flatten.map (fun t => UInt8.ofNat t.level) ++
            valueBytes page.flatten)))) := by
    simp only [body, List.append_assoc, List.cons_append, List.nil_append]
  have hrecords : page.length < 256 ^ 4 := h.records
  have hentries : page.flatten.length < 256 ^ 4 := h.entries
  have hcounts := decodeCounts_append page (fun triples hm => by
    have hle := (List.sublist_flatten_of_mem hm).length_le
    omega)
  have hlevels : (page.flatten.map fun t => UInt8.ofNat t.level).length = page.flatten.length :=
    List.length_map ..
  have hdepths : (page.flatten.map fun t => UInt8.ofNat t.level).map UInt8.toNat =
      page.flatten.map (·.level) := by
    refine map_toNat_map_ofNat fun t ht => ?_
    have hle := (h.levels t ht).2.1
    have hlt := h.maxDef
    omega
  rw [hbody, decode_header]
  simp only [Bytes.ofLittle_little_of_lt hrecords, Bytes.ofLittle_little_of_lt hentries,
    Utf8.toNat_ofNat_of_lt h.maxRep, Utf8.toNat_ofNat_of_lt h.maxDef, ne_eq, not_true_eq_false,
    if_false, hcounts]
  have hsize := length_repBytes layout page.flatten
  have hlong : ¬ (page.flatMap (fun triples => Bytes.little 4 triples.length) ++
      (repBytes layout page.flatten ++ (page.flatten.map (fun t => UInt8.ofNat t.level) ++
        valueBytes page.flatten))).length <
      4 * page.length + (if layout.maxRep = 0 then 0 else page.flatten.length) +
        page.flatten.length := by
    rw [List.length_append, List.length_append, List.length_append, length_counts, hsize, hlevels]
    omega
  have hsum : (page.map (·.length)).sum = page.flatten.length := List.length_flatten.symm
  rw [if_neg hlong, hsum, if_neg (fun hne => hne rfl), List.drop_left' (length_counts page),
    reps_eq h.maxRep (fun t ht => (h.levels t ht).1), List.drop_left' hsize,
    List.take_left' hlevels, List.drop_left' hlevels, hdepths, List.zip_map']
  refine Outcome.bind_eq_ok.mpr ⟨page.flatten, ?_, congrArg Except.ok (cut_flatten page)⟩
  exact decodeTriples_valueBytes page.flatten h.levels h.short

end Page

/-! ### Checksums -/

namespace ChecksumType

theorem verify_sum (checksum : ChecksumType) (data : List UInt8) :
    checksum.verify data (checksum.sum data) = .ok () := by
  cases checksum with
  | none => rfl
  | crc32 => rw [ChecksumType.verify, if_pos rfl]

theorem sum_lt (checksum : ChecksumType) (data : List UInt8) : checksum.sum data < 256 ^ 8 := by
  cases checksum with
  | none => exact Nat.pow_pos (by decide)
  | crc32 =>
      have hlt := (Crc32.ofBytes data).toNat_lt
      rw [ChecksumType.sum]
      omega

theorem code_lt (checksum : ChecksumType) : checksum.code < 256 ^ 4 := by
  cases checksum <;> decide

theorem ofCode_code (checksum : ChecksumType) : ofCode checksum.code = .ok checksum := by
  cases checksum <;> rfl

end ChecksumType

theorem Page.verified_withChecksum (checksum : ChecksumType) (body : List UInt8) :
    verified (withChecksum checksum body) = .ok body := by
  have hdata : withChecksum checksum body = body ++ (Bytes.big 4 kind ++
      (Bytes.big 4 checksum.code ++ Bytes.big 8 (checksum.sum (withKind body)))) := by
    simp only [withChecksum, withKind, List.append_assoc]
  have hlength : (withChecksum checksum body).length = body.length + trailerSize := by
    rw [hdata]
    simp only [List.length_append, Bytes.length_big, trailerSize]
  have htrailer : (withChecksum checksum body).length - trailerSize = body.length := by omega
  have hkind : Bytes.ofBig (Bytes.big 4 kind) = kind := Bytes.ofBig_big_of_lt (by decide)
  have hsums : (withChecksum checksum body).take ((withChecksum checksum body).length - checksumSize) =
      withKind body := by
    have hcut : (withChecksum checksum body).length - checksumSize = (withKind body).length := by
      rw [hlength, withKind, List.length_append, Bytes.length_big]
      simp only [trailerSize, checksumSize]
      omega
    rw [hcut, withChecksum, List.append_assoc, List.take_left' rfl]
  have hdrop : (withChecksum checksum body).drop body.length = Bytes.big 4 kind ++
      (Bytes.big 4 checksum.code ++ Bytes.big 8 (checksum.sum (withKind body))) := by
    rw [hdata, List.drop_left' rfl]
  have htake : (withChecksum checksum body).take body.length = body := by
    rw [hdata, List.take_left' rfl]
  have hfour := Bytes.length_big 4 kind
  have hcode := Bytes.length_big 4 checksum.code
  have hrest : (Bytes.big 4 kind ++ (Bytes.big 4 checksum.code ++
      Bytes.big 8 (checksum.sum (withKind body)))).drop 8 =
        Bytes.big 8 (checksum.sum (withKind body)) := by
    rw [← List.append_assoc, List.drop_left']
    rw [List.length_append, hfour, hcode]
  rw [verified, if_neg (by omega), htrailer, hdrop, htake, hsums]
  simp only [hrest, List.take_left' hfour, List.drop_left' hfour, List.take_left' hcode, hkind,
    Bytes.ofBig_big_of_lt checksum.code_lt, Bytes.ofBig_big_of_lt (checksum.sum_lt _),
    ChecksumType.ofCode_code, ne_eq, not_true_eq_false, if_false, Except.mapError, bind,
    Except.bind, ChecksumType.verify_sum]
  rfl

end NestedColumns
