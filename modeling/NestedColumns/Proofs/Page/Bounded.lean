import NestedColumns.Proofs.Page.Judging

/-!
# Pages within bounds

Reading a page takes bytes from lists by counts and lengths that come from the page itself. Here
every such access is checked: bytes are taken only if they are there, an entry of a list is looked
up by its index, and a size is added up only as far as a 64-bit number holds it. An access that is
not in order has no result at all, which is not the same as an error.

Whatever bytes a page has, reading it like this has a result, and it is the one of `Page.decode`.
Its documents lie one behind the other in one list of entries, with the number of entries of each
beside it.

## Main definitions

* `Checked.fetch`, `Checked.fetchAt`, `Checked.slice?`, `Checked.size`: The accesses.
* `Flat`, `Flat.read`: The entries of a page with the counts of its documents.

## Theorems

* `DataValue.read_eq`: Reading a value stays within bounds.
* `Flat.read_eq`: Reading a page stays within bounds.
* `Page.decode_withinLevels`: The levels of a page that is read are those of the column.
-/

namespace NestedColumns

namespace Checked

variable {ε α β : Type}

/-- The first `n` bytes, which have to be there, and the rest. -/
def fetch (n : Nat) (bytes : List UInt8) : Checked ε (List UInt8 × List UInt8) :=
  ExceptT.lift (Bytes.split? n bytes)

/-- The entry at an index, which has to be there. -/
def fetchAt (xs : List α) (i : Nat) : Checked ε α :=
  ExceptT.lift xs[i]?

/-- The entries from one index up to another, which have to be there. -/
def slice? (xs : List α) (start stop : Nat) : Option (List α) :=
  if start ≤ stop ∧ stop ≤ xs.length then some ((xs.drop start).take (stop - start)) else none

/-- A size, which has to be a 64-bit number. -/
def size (n : Nat) : Checked ε Nat :=
  ExceptT.lift (if n < 2 ^ 64 then some n else none)

theorem ofExcept_bind (x : Except ε α) (f : α → Except ε β) :
    ofExcept (x >>= f) = ofExcept x >>= fun a => ofExcept (f a) := by
  cases x <;> rfl

-- What is not out of bounds is taken, and what follows is done with it.
theorem lift_bind (a : α) (f : α → Checked ε β) :
    ((liftM (some a) : Checked ε α) >>= f) = f a :=
  rfl

theorem fetch_of_le {n : Nat} {bytes : List UInt8} (h : n ≤ bytes.length) :
    (fetch n bytes : Checked ε _) = pure (bytes.take n, bytes.drop n) := by
  rw [fetch, Bytes.split?, if_pos h]
  rfl

theorem fetch_append (xs ys : List UInt8) :
    (fetch xs.length (xs ++ ys) : Checked ε _) = pure (xs, ys) := by
  rw [fetch_of_le (by rw [List.length_append]; omega), List.take_left' rfl, List.drop_left' rfl]

theorem fetchAt_of_lt {xs : List α} {i : Nat} (h : i < xs.length) :
    (fetchAt xs i : Checked ε α) = pure xs[i] := by
  rw [fetchAt, List.getElem?_eq_getElem h]
  rfl

theorem size_of_lt {n : Nat} (h : n < 2 ^ 64) : (size n : Checked ε Nat) = pure n := by
  rw [size, if_pos h]
  rfl

end Checked

open Checked

theorem Bytes.ofLittle_lt (bytes : List UInt8) : ofLittle bytes < 256 ^ bytes.length := by
  induction bytes with
  | nil => exact Nat.one_pos
  | cons b rest ih =>
      have hb := b.toNat_lt
      rw [ofLittle, List.length_cons, Nat.pow_succ]
      omega

/-! ### Values -/

namespace DataValue

/-- So many bytes are left of the values. -/
def require (n : Nat) (bytes : List UInt8) : Checked PageError Unit :=
  if bytes.length < n then throw .valueTruncated else pure ()

/-- A value and the bytes after it, with every access checked. -/
def read (bytes : List UInt8) : Checked PageError (DataValue × List UInt8) := do
  require 1 bytes
  let tag ← fetch 1 bytes
  match Bytes.ofLittle tag.1 with
  | 0 => do
    require 1 tag.2
    let b ← fetch 1 tag.2
    return (.bool (b.1 != [0]), b.2)
  | 1 => do
    require 8 tag.2
    let n ← fetch 8 tag.2
    return (.int (UInt64.ofNat (Bytes.ofLittle n.1)).toInt64, n.2)
  | 2 => do
    require 8 tag.2
    let d ← fetch 8 tag.2
    return (.float ⟨UInt64.ofNat (Bytes.ofLittle d.1)⟩, d.2)
  | 3 => do
    require 4 tag.2
    let length ← fetch 4 tag.2
    require (Bytes.ofLittle length.1) length.2
    let text ← fetch (Bytes.ofLittle length.1) length.2
    match Utf8.read? text.1 with
    | some s => return (.string (String.ofList s), text.2)
    | none => throw .valueText
  | other => throw (.unknownTag other)

-- What was required is there to be fetched.
theorem require_fetch (n : Nat) (bytes : List UInt8)
    (f : List UInt8 × List UInt8 → Checked PageError (DataValue × List UInt8)) :
    (do require n bytes; let parts ← fetch n bytes; f parts) =
      ofExcept (need n bytes) >>= f := by
  rw [require, need, Bytes.split?]
  by_cases h : n ≤ bytes.length
  · rw [if_neg (by omega), fetch_of_le h, if_pos h]
    rfl
  · rw [if_pos (by omega), if_neg h]
    rfl

-- The same number of bytes is taken either way, and what is made of them is the same.
theorem require_fetch_eq {n : Nat} {bytes : List UInt8}
    {f : List UInt8 × List UInt8 → Checked PageError (DataValue × List UInt8)}
    {g : List UInt8 × List UInt8 → Except PageError (DataValue × List UInt8)}
    (h : ∀ parts, f parts = ofExcept (g parts)) :
    (do require n bytes; let parts ← fetch n bytes; f parts) = ofExcept (need n bytes >>= g) := by
  rw [require_fetch, ofExcept_bind, funext h]

theorem read_eq (bytes : List UInt8) : read bytes = ofExcept (decode bytes) := by
  rw [read, require_fetch]
  cases bytes with
  | nil => rfl
  | cons tag rest =>
      have htag : need 1 (tag :: rest) = .ok ([tag], rest) :=
        need_append (show [tag].length = 1 from rfl) rest
      have hone : Bytes.ofLittle [tag] = tag.toNat := by
        rw [Bytes.ofLittle, Bytes.ofLittle, Nat.mul_zero, Nat.add_zero]
      rw [htag, decode]
      show (match Bytes.ofLittle [tag] with | 0 => _ | 1 => _ | 2 => _ | 3 => _ | _ => _) = _
      rw [hone]
      generalize tag.toNat = code
      rcases code with _ | _ | _ | _ | code
      · exact require_fetch_eq fun _ => rfl
      · exact require_fetch_eq fun _ => rfl
      · exact require_fetch_eq fun _ => rfl
      · refine require_fetch_eq fun length => require_fetch_eq fun text => ?_
        dsimp only
        cases Utf8.read? text.1 <;> rfl
      · rfl

end DataValue

/-! ### Pages -/

/-- The entries of a page one behind the other, and how many each document has. -/
structure Flat where
  counts : List Nat
  triples : List Triple
  deriving DecidableEq, Repr

namespace Flat

/-- The documents of a page one behind the other. -/
def ofPage (page : Page) : Flat :=
  ⟨page.map List.length, page.flatten⟩

/-- So many numbers of four bytes each, and the bytes after them. -/
def fetchCounts : Nat → List UInt8 → Checked PageError (List Nat × List UInt8)
  | 0, bytes => pure ([], bytes)
  | n + 1, bytes => do
    let count ← fetch 4 bytes
    let others ← fetchCounts n count.2
    return (Bytes.ofLittle count.1 :: others.1, others.2)

/-- The sum of some counts and what they add up to before. -/
def sumFrom : Nat → List Nat → Checked PageError Nat
  | total, [] => pure total
  | total, n :: rest => do
    let total ← size (total + n)
    sumFrom total rest

/-- The repetition level of the entry with index `i`, looked up among those of all entries. -/
def repAt (layout : PageLayout) (reps : List UInt8) (i : Nat) : Checked PageError Nat :=
  if 0 < layout.maxRep then UInt8.toNat <$> fetchAt reps i else pure 0

/-- The entries of a page from the one with index `i` on. -/
def readTriples (layout : PageLayout) (reps : List UInt8) :
    Nat → List UInt8 → List UInt8 → Checked PageError (List Triple)
  | _, [], [] => pure []
  | _, [], _ :: _ => throw .trailingBytes
  | i, level :: levels, values => do
    let rep ← repAt layout reps i
    if layout.maxRep < rep ∨ layout.maxDef < level.toNat then throw .levelTooHigh
    else if level.toNat = layout.maxDef then do
      let value ← DataValue.read values
      let rest ← readTriples layout reps (i + 1) levels value.2
      return ⟨some value.1, rep, level.toNat⟩ :: rest
    else do
      let rest ← readTriples layout reps (i + 1) levels values
      return .absent rep level.toNat :: rest

/-- The entries of a page whose counts are known, from where its levels start. -/
def readLevels (layout : PageLayout) (repSize entries : Nat) (counts : List Nat)
    (bytes : List UInt8) : Checked PageError Flat := do
  let reps ← fetch repSize bytes
  let levels ← fetch entries reps.2
  let triples ← readTriples layout reps.1 0 levels.1 levels.2
  return ⟨counts, triples⟩

/-- The documents and entries of a page, from where its counts start. -/
def readCounts (layout : PageLayout) (records entries : Nat) (bytes : List UInt8) :
    Checked PageError Flat := do
  let repSize := if layout.maxRep = 0 then 0 else entries
  let needed ← size (4 * records + repSize + entries)
  if bytes.length < needed then throw .truncated
  else do
    let counts ← fetchCounts records bytes
    let total ← sumFrom 0 counts.1
    if total ≠ entries then throw .counts
    else readLevels layout repSize entries counts.1 counts.2

/-- The entries of the body of a page and the counts of its documents, with every access
    checked. -/
def read (layout : PageLayout) (body : List UInt8) : Checked PageError Flat :=
  if body.length < Page.headerSize then throw .noHeader
  else do
    let records ← fetch 4 body
    let entries ← fetch 4 records.2
    let pageRep ← fetch 1 entries.2
    let pageDef ← fetch 1 pageRep.2
    let (rep, level) := (Bytes.ofLittle pageRep.1, Bytes.ofLittle pageDef.1)
    if (rep, level) ≠ (layout.maxRep, layout.maxDef) then
      throw (.levels rep level layout.maxRep layout.maxDef)
    else
      readCounts layout (Bytes.ofLittle records.1) (Bytes.ofLittle entries.1) pageDef.2

theorem fetchCounts_eq {n : Nat} {bytes : List UInt8} (h : 4 * n ≤ bytes.length) :
    fetchCounts n bytes = pure (Page.decodeCounts n bytes, bytes.drop (4 * n)) := by
  induction n generalizing bytes with
  | zero => rfl
  | succ n ih =>
      have hrest : 4 * n ≤ (bytes.drop 4).length := by
        rw [List.length_drop]
        omega
      rw [fetchCounts, fetch_of_le (by omega), pure_bind, ih hrest, pure_bind, List.drop_drop,
        Page.decodeCounts, Nat.mul_succ, Nat.add_comm 4]

-- None of the counts is larger than its field, and there are not more of them than one can say.
theorem sumFrom_eq {counts : List Nat} {total : Nat} (hc : ∀ n ∈ counts, n < 2 ^ 32)
    (h : total + 2 ^ 32 * counts.length < 2 ^ 64) :
    sumFrom total counts = pure (total + counts.sum) := by
  induction counts generalizing total with
  | nil => rfl
  | cons n counts ih =>
      rcases List.forall_mem_cons.mp hc with ⟨hn, hrest⟩
      rw [List.length_cons] at h
      rw [sumFrom, size_of_lt (by omega), pure_bind, ih hrest (by omega), List.sum_cons,
        Nat.add_assoc]

theorem lt_of_mem_decodeCounts {n count : Nat} {bytes : List UInt8}
    (h : count ∈ Page.decodeCounts n bytes) : count < 2 ^ 32 := by
  induction n generalizing bytes with
  | zero => cases h
  | succ n ih =>
      rw [Page.decodeCounts, List.mem_cons] at h
      rcases h with rfl | h
      · have hlt := Bytes.ofLittle_lt (bytes.take 4)
        exact Nat.lt_of_lt_of_le hlt (Nat.pow_le_pow_right (by decide) (List.length_take_le 4 bytes))
      · exact ih h

/-- The levels of the entries from the one with index `i` on. Where no repetition levels are
    written they are zero. -/
def levelsFrom (layout : PageLayout) (reps : List UInt8) (i : Nat) (levels : List UInt8) :
    List (Nat × Nat) :=
  (if layout.maxRep = 0 then List.replicate levels.length 0
    else (reps.drop i).map UInt8.toNat).zip (levels.map UInt8.toNat)

theorem length_levelsFrom {layout : PageLayout} {reps : List UInt8} {i : Nat} {levels : List UInt8}
    (h : 0 < layout.maxRep → i + levels.length ≤ reps.length) :
    (levelsFrom layout reps i levels).length = levels.length := by
  rw [levelsFrom, List.length_zip, List.length_map]
  refine Nat.min_eq_right ?_
  by_cases hzero : layout.maxRep = 0
  · rw [if_pos hzero]
    exact Nat.le_of_eq List.length_replicate.symm
  · have hle := h (by omega)
    rw [if_neg hzero, List.length_map, List.length_drop]
    omega

-- The induction is on the entries, of which each has a repetition level to look up.
theorem readTriples_eq {layout : PageLayout} {reps : List UInt8} {i : Nat} {levels : List UInt8}
    (h : 0 < layout.maxRep → i + levels.length ≤ reps.length) (values : List UInt8) :
    readTriples layout reps i levels values =
      ofExcept (Page.decodeTriples layout (levelsFrom layout reps i levels) values) := by
  induction levels generalizing i values with
  | nil =>
      rw [levelsFrom, List.map_nil, List.zip_nil_right]
      cases values <;> rfl
  | cons level levels ih =>
      have hrest : 0 < layout.maxRep → i + 1 + levels.length ≤ reps.length := fun hpos => by
        have hle := h hpos
        rw [List.length_cons] at hle
        omega
      have hstep : ∃ rep, repAt layout reps i = pure rep ∧
          levelsFrom layout reps i (level :: levels) =
            (rep, level.toNat) :: levelsFrom layout reps (i + 1) levels := by
        by_cases hzero : layout.maxRep = 0
        · refine ⟨0, by rw [repAt, if_neg (by omega)], ?_⟩
          rw [levelsFrom, levelsFrom, if_pos hzero, if_pos hzero, List.length_cons,
            List.replicate_succ, List.map_cons, List.zip_cons_cons]
        · have hlt : i < reps.length := by
            have hle := h (by omega)
            rw [List.length_cons] at hle
            omega
          refine ⟨reps[i].toNat, ?_, ?_⟩
          · rw [repAt, if_pos (by omega), fetchAt_of_lt hlt, map_pure]
          · rw [levelsFrom, levelsFrom, if_neg hzero, if_neg hzero, List.drop_eq_getElem_cons hlt,
              List.map_cons, List.map_cons, List.zip_cons_cons]
      rcases hstep with ⟨rep, hrep, hlevels⟩
      rw [readTriples, hrep, hlevels, pure_bind, Page.decodeTriples]
      by_cases hhigh : layout.maxRep < rep ∨ layout.maxDef < level.toNat
      · rw [if_pos hhigh, if_pos hhigh]
        rfl
      · rw [if_neg hhigh, if_neg hhigh]
        by_cases hdeep : level.toNat = layout.maxDef
        · rw [if_pos hdeep, if_pos hdeep, DataValue.read_eq, ofExcept_bind]
          congr
          funext value
          rw [ih hrest, ofExcept_bind]
          rfl
        · rw [if_neg hdeep, if_neg hdeep, ih hrest, ofExcept_bind]
          rfl

end Flat

namespace Page

/-! ### What is read -/

theorem map_length_cut {α : Type} {counts : List Nat} {xs : List α} (h : counts.sum ≤ xs.length) :
    (cut counts xs).map List.length = counts := by
  induction counts generalizing xs with
  | nil => rfl
  | cons n counts ih =>
      rw [List.sum_cons] at h
      have hrest : counts.sum ≤ (xs.drop n).length := by
        rw [List.length_drop]
        omega
      rw [cut, List.map_cons, ih hrest, List.length_take, Nat.min_eq_left (by omega)]

theorem flatten_cut {α : Type} (counts : List Nat) (xs : List α) :
    (cut counts xs).flatten = xs.take counts.sum := by
  induction counts generalizing xs with
  | nil => rfl
  | cons n counts ih => rw [cut, List.flatten_cons, ih, List.sum_cons, List.take_add]

-- There is an entry for each pair of levels, and its levels were compared with those of the column.
theorem of_decodeTriples {layout : PageLayout} {levels : List (Nat × Nat)} {values : List UInt8}
    {triples : List Triple} (h : decodeTriples layout levels values = .ok triples) :
    triples.length = levels.length ∧
      ∀ t ∈ triples, t.WithinLevels layout.maxRep layout.maxDef := by
  induction levels generalizing values triples with
  | nil =>
      cases values with
      | nil =>
          cases h
          exact ⟨rfl, fun t ht => absurd ht List.not_mem_nil⟩
      | cons => cases h
  | cons pair levels ih =>
      rcases pair with ⟨rep, level⟩
      rw [decodeTriples, ite_eq_iff] at h
      rcases h with ⟨-, h⟩ | ⟨hin, h⟩
      · cases h
      have hrep : rep ≤ layout.maxRep := Nat.le_of_not_lt fun hlt => hin (Or.inl hlt)
      have hlevel : level ≤ layout.maxDef := Nat.le_of_not_lt fun hlt => hin (Or.inr hlt)
      rw [ite_eq_iff] at h
      rcases h with ⟨hdeep, h⟩ | ⟨hnot, h⟩
      · rcases Outcome.bind_eq_ok.mp h with ⟨⟨v, rest⟩, -, hmore⟩
        rcases Outcome.bind_eq_ok.mp hmore with ⟨others, hothers, hlast⟩
        cases hlast
        rcases ih hothers with ⟨hlength, hwithin⟩
        exact ⟨congrArg (· + 1) hlength,
          List.forall_mem_cons.mpr ⟨⟨hrep, hlevel, iff_of_true rfl hdeep⟩, hwithin⟩⟩
      · rcases Outcome.bind_eq_ok.mp h with ⟨others, hothers, hlast⟩
        cases hlast
        rcases ih hothers with ⟨hlength, hwithin⟩
        exact ⟨congrArg (· + 1) hlength, List.forall_mem_cons.mpr
          ⟨⟨hrep, hlevel, iff_of_false Bool.false_ne_true hnot⟩, hwithin⟩⟩

theorem decode_of_short {layout : PageLayout} {body : List UInt8} (h : body.length < headerSize) :
    decode layout body = .error .noHeader := by
  unfold decode
  split
  · simp only [List.length_cons, headerSize] at h
    omega
  · rfl

-- A body that is long enough starts with ten bytes.
theorem exists_header {body : List UInt8} (h : headerSize ≤ body.length) :
    ∃ r₀ r₁ r₂ r₃ v₀ v₁ v₂ v₃ pageRep pageDef rest,
      body = r₀ :: r₁ :: r₂ :: r₃ :: v₀ :: v₁ :: v₂ :: v₃ :: pageRep :: pageDef :: rest := by
  rcases body with _ | ⟨r₀, _ | ⟨r₁, _ | ⟨r₂, _ | ⟨r₃, _ | ⟨v₀, _ | ⟨v₁, _ | ⟨v₂, _ | ⟨v₃,
    _ | ⟨pageRep, _ | ⟨pageDef, rest⟩⟩⟩⟩⟩⟩⟩⟩⟩⟩
  all_goals first
    | exact ⟨_, _, _, _, _, _, _, _, _, _, _, rfl⟩
    | simp only [headerSize, List.length_cons, List.length_nil] at h
      omega

end Page

namespace Flat

theorem readLevels_eq {layout : PageLayout} {repSize entries : Nat} {counts : List Nat}
    {bytes : List UInt8} (hrep : repSize = if layout.maxRep = 0 then 0 else entries)
    (hroom : repSize + entries ≤ bytes.length) (hsum : counts.sum = entries) :
    readLevels layout repSize entries counts bytes = ofExcept ((do
      let triples ← Page.decodeTriples layout ((if layout.maxRep = 0 then List.replicate entries 0
        else (bytes.take entries).map UInt8.toNat).zip
          (((bytes.drop repSize).take entries).map UInt8.toNat)) ((bytes.drop repSize).drop entries)
      return Page.cut counts triples).map ofPage) := by
  have hbehind : entries ≤ (bytes.drop repSize).length := by
    rw [List.length_drop]
    omega
  have hlength : ((bytes.drop repSize).take entries).length = entries := by
    rw [List.length_take, Nat.min_eq_left hbehind]
  have hfrom : levelsFrom layout (bytes.take repSize) 0 ((bytes.drop repSize).take entries) =
      (if layout.maxRep = 0 then List.replicate entries 0
        else (bytes.take entries).map UInt8.toNat).zip
          (((bytes.drop repSize).take entries).map UInt8.toNat) := by
    rw [levelsFrom, hlength, List.drop_zero]
    by_cases hzero : layout.maxRep = 0
    · rw [if_pos hzero, if_pos hzero]
    · rw [if_neg hzero] at hrep
      rw [if_neg hzero, if_neg hzero, hrep]
  have hreps : 0 < layout.maxRep →
      0 + ((bytes.drop repSize).take entries).length ≤ (bytes.take repSize).length := fun hpos => by
    rw [if_neg (Nat.ne_of_gt hpos)] at hrep
    rw [hlength, List.length_take, hrep]
    omega
  have hpairs := length_levelsFrom hreps
  rw [readLevels, fetch_of_le (Nat.le_trans (Nat.le_add_right ..) hroom), pure_bind,
    fetch_of_le hbehind, pure_bind, readTriples_eq hreps, ← hfrom]
  cases htriples : Page.decodeTriples layout
      (levelsFrom layout (bytes.take repSize) 0 ((bytes.drop repSize).take entries))
      ((bytes.drop repSize).drop entries) with
  | error e => rfl
  | ok triples =>
      have hall : counts.sum = triples.length := by
        rw [(Page.of_decodeTriples htriples).1, hpairs, hlength, hsum]
      have hflat : ofPage (Page.cut counts triples) = ⟨counts, triples⟩ := by
        rw [ofPage, Page.map_length_cut (Nat.le_of_eq hall), Page.flatten_cut, hall, List.take_length]
      show pure _ = Checked.ofExcept (Except.ok (ofPage (Page.cut counts triples)))
      rw [hflat]
      rfl

-- The counts fit 64 bits together, and what is needed for them and the levels is there.
theorem readCounts_eq {layout : PageLayout} {records entries : Nat} (hr : records < 2 ^ 32)
    (hv : entries < 2 ^ 32) (bytes : List UInt8) :
    readCounts layout records entries bytes = ofExcept (Except.map ofPage
      (let repSize := if layout.maxRep = 0 then 0 else entries
      if bytes.length < 4 * records + repSize + entries then .error .truncated
      else
        let counts := Page.decodeCounts records bytes
        if counts.sum ≠ entries then .error .counts
        else do
          let rest := bytes.drop (4 * records)
          let reps :=
            if layout.maxRep = 0 then List.replicate entries 0
            else (rest.take entries).map UInt8.toNat
          let rest := rest.drop repSize
          let levels := (rest.take entries).map UInt8.toNat
          let triples ← Page.decodeTriples layout (reps.zip levels) (rest.drop entries)
          return Page.cut counts triples)) := by
  have hle : (if layout.maxRep = 0 then 0 else entries) ≤ entries := by
    split <;> omega
  have hcounts : ∀ n ∈ Page.decodeCounts records bytes, n < 2 ^ 32 := fun n hn =>
    lt_of_mem_decodeCounts hn
  have htotal : 0 + 2 ^ 32 * (Page.decodeCounts records bytes).length < 2 ^ 64 := by
    rw [Page.length_decodeCounts]
    omega
  rw [readCounts, size_of_lt (by omega), pure_bind]
  simp only
  by_cases hlong : bytes.length < 4 * records + (if layout.maxRep = 0 then 0 else entries) + entries
  · rw [if_pos hlong, if_pos hlong]
    rfl
  rw [if_neg hlong, if_neg hlong, fetchCounts_eq (by omega), pure_bind, sumFrom_eq hcounts htotal,
    pure_bind, Nat.zero_add]
  by_cases hsum : (Page.decodeCounts records bytes).sum ≠ entries
  · rw [if_pos hsum, if_pos hsum]
    rfl
  rw [if_neg hsum, if_neg hsum]
  have hroom : (if layout.maxRep = 0 then 0 else entries) + entries ≤
      (bytes.drop (4 * records)).length := by
    rw [List.length_drop]
    omega
  exact readLevels_eq rfl hroom (Decidable.not_not.mp hsum)

/-- Reading the body of a page stays within bounds, whatever it holds. -/
theorem read_eq (layout : PageLayout) (body : List UInt8) :
    read layout body = ofExcept ((Page.decode layout body).map ofPage) := by
  rw [read]
  by_cases hshort : body.length < Page.headerSize
  · rw [if_pos hshort, Page.decode_of_short hshort]
    rfl
  rcases Page.exists_header (Nat.le_of_not_lt hshort) with
    ⟨r₀, r₁, r₂, r₃, v₀, v₁, v₂, v₃, pageRep, pageDef, rest, rfl⟩
  have hbyte : ∀ b : UInt8, Bytes.ofLittle [b] = b.toNat := fun b => by
    rw [Bytes.ofLittle, Bytes.ofLittle, Nat.mul_zero, Nat.add_zero]
  have hfour : ∀ a b c d : UInt8, Bytes.ofLittle [a, b, c, d] < 2 ^ 32 := fun a b c d => by
    have hlt : Bytes.ofLittle [a, b, c, d] < 256 ^ 4 := Bytes.ofLittle_lt [a, b, c, d]
    omega
  have hrecords : fetch 4 (r₀ :: r₁ :: r₂ :: r₃ :: v₀ :: v₁ :: v₂ :: v₃ :: pageRep :: pageDef :: rest) =
      (pure ([r₀, r₁, r₂, r₃], v₀ :: v₁ :: v₂ :: v₃ :: pageRep :: pageDef :: rest) :
        Checked PageError _) := fetch_append [r₀, r₁, r₂, r₃] _
  have hentries : fetch 4 (v₀ :: v₁ :: v₂ :: v₃ :: pageRep :: pageDef :: rest) =
      (pure ([v₀, v₁, v₂, v₃], pageRep :: pageDef :: rest) : Checked PageError _) :=
    fetch_append [v₀, v₁, v₂, v₃] _
  have hrep : fetch 1 (pageRep :: pageDef :: rest) =
      (pure ([pageRep], pageDef :: rest) : Checked PageError _) := fetch_append [pageRep] _
  have hdef : fetch 1 (pageDef :: rest) = (pure ([pageDef], rest) : Checked PageError _) :=
    fetch_append [pageDef] rest
  rw [if_neg hshort, Page.decode, hrecords, pure_bind, hentries, pure_bind, hrep, pure_bind, hdef,
    pure_bind]
  simp only [hbyte]
  by_cases hlevels : (pageRep.toNat, pageDef.toNat) ≠ (layout.maxRep, layout.maxDef)
  · rw [if_pos hlevels, if_pos hlevels]
    rfl
  · rw [if_neg hlevels, if_neg hlevels, readCounts_eq (hfour ..) (hfour ..)]

end Flat

/-- A page that is read has the levels of its column. -/
theorem Page.decode_withinLevels {layout : PageLayout} {body : List UInt8} {page : Page}
    (h : decode layout body = .ok page) :
    ∀ t ∈ page.flatten, t.WithinLevels layout.maxRep layout.maxDef := by
  unfold decode at h
  split at h
  · rw [ite_eq_iff] at h
    rcases h with ⟨-, h⟩ | ⟨-, h⟩
    · cases h
    simp only at h
    rw [ite_eq_iff] at h
    rcases h with ⟨-, h⟩ | ⟨-, h⟩
    · cases h
    rw [ite_eq_iff] at h
    rcases h with ⟨-, h⟩ | ⟨-, h⟩
    · cases h
    rcases Outcome.bind_eq_ok.mp h with ⟨triples, htriples, hpage⟩
    cases hpage
    intro t ht
    rw [flatten_cut] at ht
    exact (of_decodeTriples htriples).2 t (List.mem_of_mem_take ht)
  · cases h

end NestedColumns
