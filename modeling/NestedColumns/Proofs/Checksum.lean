import Mathlib.Data.UInt
import NestedColumns.Checksum
import NestedColumns.Disk
import NestedColumns.Numerals

/-!
# Short changes and the CRC-32

A change of at most four consecutive bytes, wherever it is and however long the data, is seen in
the CRC-32.

Dividing out a bit is linear, and no two states are taken to the same one. So two runs over the
same bytes keep their states apart, and while the bytes differ, what the states differ by is
divided like a state. For the states to agree again, the bytes that are still to come have to make
up for the whole difference, which is then those very bytes (`Crc32.word`): a difference of no bits
is made up for by no change, as long as there is room for the bytes in a state.

## Main definitions

* `Bytes.Near`: Two byte strings that agree but for four bytes from some position on.
* `Crc32.word`: Four bytes as a state.

## Theorems

* `Crc32.shift_xor`, `Crc32.shift_injective`: Dividing out a bit is linear and injective.
* `Crc32.foldl_step_agree`: What two states differ by when some bytes take them to the same one.
* `Crc32.ofBytes_near`: Byte strings that are near each other have the same CRC-32 only if they are
  the same.
-/

namespace NestedColumns

/-! ### Near byte strings -/

namespace Bytes

/-- Two byte strings of the same length that agree but for four bytes from `p` on. -/
structure Near (p : Nat) (xs ys : List UInt8) : Prop where
  length : ys.length = xs.length
  before : ys.take p = xs.take p
  after : ys.drop (p + 4) = xs.drop (p + 4)

variable {p n : Nat} {xs ys : List UInt8}

theorem Near.take_of_le (h : Near p xs ys) (hn : n ≤ p) : ys.take n = xs.take n := by
  have htake := congrArg (List.take n) h.before
  rwa [List.take_take, List.take_take, Nat.min_eq_left hn] at htake

theorem Near.drop_of_le (h : Near p xs ys) (hn : p + 4 ≤ n) : ys.drop n = xs.drop n := by
  have hdrop := congrArg (List.drop (n - (p + 4))) h.after
  rwa [List.drop_drop, List.drop_drop, Nat.add_sub_cancel' hn] at hdrop

theorem Near.take (h : Near p xs ys) (n : Nat) : Near p (xs.take n) (ys.take n) where
  length := by rw [List.length_take, List.length_take, h.length]
  before := by
    rw [List.take_take, List.take_take, Nat.min_comm, ← List.take_take, ← List.take_take,
      h.before]
  after := by rw [List.drop_take, List.drop_take, h.after]

-- What is left of the four bytes still starts where they did, or at the front.
theorem Near.drop (h : Near p xs ys) (n : Nat) : Near (p - n) (xs.drop n) (ys.drop n) where
  length := by rw [List.length_drop, List.length_drop, h.length]
  before := by
    by_cases hn : n ≤ p
    · rw [List.take_drop, List.take_drop, Nat.add_sub_cancel' hn, h.before]
    · rw [Nat.sub_eq_zero_of_le (Nat.le_of_not_le hn), List.take_zero, List.take_zero]
  after := by
    rw [List.drop_drop, List.drop_drop, h.drop_of_le (by omega)]

theorem drop_overwrite {position : Nat} {bytes : List UInt8}
    (inside : position + bytes.length ≤ xs.length) (hn : position + bytes.length ≤ n) :
    (Disk.overwrite xs position bytes).drop n = xs.drop n := by
  have hgap : position - xs.length = 0 := by omega
  have hfront : (xs.take position ++ bytes).length = position + bytes.length := by
    rw [List.length_append, List.length_take]
    omega
  rw [Disk.overwrite, hgap, List.replicate_zero, List.append_nil, List.drop_append,
    List.drop_eq_nil_of_le (hfront ▸ hn), hfront, List.nil_append, List.drop_drop,
    Nat.add_sub_cancel' hn]

-- Bytes are written over others.
theorem near_overwrite {position : Nat} {bytes : List UInt8} (short : bytes.length ≤ 4)
    (inside : position + bytes.length ≤ xs.length) :
    Near position xs (Disk.overwrite xs position bytes) := by
  have hgap : position - xs.length = 0 := by omega
  have hfront : (xs.take position).length = position := by
    rw [List.length_take]
    omega
  have hbytes : Disk.overwrite xs position bytes =
      xs.take position ++ (bytes ++ xs.drop (position + bytes.length)) := by
    rw [Disk.overwrite, hgap, List.replicate_zero, List.append_nil, List.append_assoc]
  refine ⟨?_, ?_, drop_overwrite inside (by omega)⟩
  · rw [hbytes, List.length_append, List.length_append, hfront, List.length_drop]
    omega
  · rw [hbytes, List.take_left' hfront]

end Bytes

/-! ### Dividing out bits -/

namespace Crc32

theorem shift_eq (state : UInt32) :
    shift state = (state >>> 1) ^^^ (if state.toNat % 2 = 1 then 0xEDB88320 else 0) := by
  have hlow : state &&& 1 = 1 ↔ state.toNat % 2 = 1 := by
    rw [← UInt32.toNat_inj, UInt32.toNat_and]
    exact Eq.congr_left (Nat.and_one_is_mod state.toNat)
  rw [shift]
  by_cases hodd : state.toNat % 2 = 1
  · rw [if_pos hodd, if_pos (hlow.mpr hodd)]
  · rw [if_neg hodd, if_neg fun h => hodd (hlow.mp h), UInt32.xor_zero]

theorem shift_xor (a b : UInt32) : shift (a ^^^ b) = shift a ^^^ shift b := by
  have hodd : (a ^^^ b).toNat % 2 = (a.toNat % 2) ^^^ (b.toNat % 2) := by
    rw [UInt32.toNat_xor]
    exact Nat.xor_mod_two_pow (n := 1)
  have hpolynomial : (if (a ^^^ b).toNat % 2 = 1 then (0xEDB88320 : UInt32) else 0) =
      (if a.toNat % 2 = 1 then 0xEDB88320 else 0) ^^^ (if b.toNat % 2 = 1 then 0xEDB88320 else 0) := by
    rw [hodd]
    rcases Nat.mod_two_eq_zero_or_one a.toNat with ha | ha <;>
      rcases Nat.mod_two_eq_zero_or_one b.toNat with hb | hb <;> rw [ha, hb] <;> rfl
  rw [shift_eq, shift_eq, shift_eq, UInt32.shiftRight_xor, hpolynomial]
  ac_rfl

-- The polynomial has the highest bit, which no state has that was shifted.
theorem shift_eq_zero {state : UInt32} (h : shift state = 0) : state = 0 := by
  have hhalf : (state >>> 1).toNat = state.toNat / 2 := UInt32.toNat_shiftRight ..
  have hlt := state.toNat_lt
  rw [shift_eq, UInt32.xor_eq_zero_iff] at h
  have hnat := congrArg UInt32.toNat h
  rw [hhalf] at hnat
  by_cases hodd : state.toNat % 2 = 1
  · rw [if_pos hodd, show (0xEDB88320 : UInt32).toNat = 0xEDB88320 from rfl] at hnat
    omega
  · rw [if_neg hodd, UInt32.toNat_zero] at hnat
    rw [← UInt32.toNat_inj, UInt32.toNat_zero]
    omega

theorem shift_injective {a b : UInt32} (h : shift a = shift b) : a = b := by
  rw [← UInt32.xor_eq_zero_iff] at h ⊢
  exact shift_eq_zero (shift_xor a b ▸ h)

theorem shifts_xor (n : Nat) (a b : UInt32) : shifts n (a ^^^ b) = shifts n a ^^^ shifts n b := by
  induction n generalizing a b with
  | zero => rfl
  | succ n ih => rw [shifts, shifts, shifts, shift_xor, ih]

theorem shifts_injective {n : Nat} {a b : UInt32} (h : shifts n a = shifts n b) : a = b := by
  induction n generalizing a b with
  | zero => exact h
  | succ n ih => exact shift_injective (ih h)

-- Nothing is divided out of a state whose lowest bits are not set.
theorem shifts_of_toNat {n : Nat} {a b : UInt32} (h : a.toNat = 2 ^ n * b.toNat) :
    shifts n a = b := by
  induction n generalizing a with
  | zero => rwa [Nat.pow_zero, Nat.one_mul, UInt32.toNat_inj] at h
  | succ n ih =>
      rw [Nat.pow_succ'] at h
      have heven : a.toNat % 2 = 0 := by
        rw [h, Nat.mul_assoc, Nat.mul_mod_right]
      have hhalf : (a >>> 1).toNat = a.toNat / 2 := UInt32.toNat_shiftRight ..
      have hshift : shift a = a >>> 1 := by
        rw [shift_eq, heven, if_neg (by decide), UInt32.xor_zero]
      rw [shifts, hshift]
      refine ih ?_
      rw [hhalf, h, Nat.mul_assoc, Nat.mul_div_cancel_left _ (by decide)]

/-! ### Bytes that make up for a difference -/

/-- Four bytes as a state, the first of them lowest. -/
def word : List UInt8 → UInt32
  | [] => 0
  | b :: rest => b.toUInt32 ^^^ (word rest <<< 8)

theorem toNat_word_lt {bytes : List UInt8} (h : bytes.length ≤ 4) :
    (word bytes).toNat < 2 ^ (8 * bytes.length) := by
  induction bytes with
  | nil => exact Nat.one_pos
  | cons b rest ih =>
      rw [List.length_cons] at h ⊢
      have hrest := ih (by omega)
      have hb : b.toUInt32.toNat < 2 ^ (8 * (rest.length + 1)) :=
        Nat.lt_of_lt_of_le b.toNat_lt (Nat.pow_le_pow_right (by decide) (by omega))
      have hshift : (word rest <<< 8).toNat ≤ (word rest).toNat * 2 ^ 8 := by
        rw [UInt32.toNat_shiftLeft, Nat.shiftLeft_eq]
        exact Nat.mod_le ..
      rw [word, UInt32.toNat_xor]
      refine Nat.xor_lt_two_pow hb (Nat.lt_of_le_of_lt hshift ?_)
      rw [Nat.mul_add, Nat.pow_add]
      exact Nat.mul_lt_mul_of_pos_right hrest (by decide)

-- There is room to shift the state of three bytes.
theorem toNat_word_shift {bytes : List UInt8} (h : bytes.length ≤ 3) :
    (word bytes <<< 8).toNat = 2 ^ 8 * (word bytes).toNat := by
  have hlt := toNat_word_lt (Nat.le_succ_of_le h)
  have hle : 2 ^ (8 * bytes.length) ≤ 2 ^ 24 := Nat.pow_le_pow_right (by decide) (by omega)
  rw [UInt32.toNat_shiftLeft, show (8 : UInt32).toNat % 32 = 8 from rfl, Nat.shiftLeft_eq,
    Nat.mod_eq_of_lt (by omega), Nat.mul_comm]

theorem eq_zero_of_word {bytes : List UInt8} (h : bytes.length ≤ 4) (hw : word bytes = 0) :
    ∀ b ∈ bytes, b = 0 := by
  induction bytes with
  | nil => exact fun b hb => absurd hb List.not_mem_nil
  | cons b rest ih =>
      rw [List.length_cons] at h
      have hrest := toNat_word_shift (Nat.le_of_succ_le_succ h)
      have hlt := b.toNat_lt
      rw [word, UInt32.xor_eq_zero_iff, ← UInt32.toNat_inj, UInt8.toNat_toUInt32, hrest] at hw
      refine List.forall_mem_cons.mpr ⟨?_, ih (by omega) ?_⟩
      · rw [← UInt8.toNat_inj, UInt8.toNat_zero]
        omega
      · rw [← UInt32.toNat_inj, UInt32.toNat_zero]
        omega

-- The induction is on the bytes, from the last one backwards: the bytes after the first make up
-- for what is left of the difference when the first was divided out.
theorem foldl_step_agree {xs ys : List UInt8} {s t : UInt32} (hlength : xs.length = ys.length)
    (hshort : xs.length ≤ 4) (h : xs.foldl step s = ys.foldl step t) :
    s ^^^ t = word (List.zipWith (· ^^^ ·) xs ys) := by
  induction xs generalizing ys s t with
  | nil =>
      rw [List.length_nil, eq_comm, List.length_eq_zero_iff] at hlength
      subst hlength
      exact UInt32.xor_eq_zero_iff.mpr h
  | cons x xs ih =>
      rcases ys with _ | ⟨y, ys⟩
      · cases hlength
      rw [List.length_cons, List.length_cons, Nat.add_right_cancel_iff] at hlength
      rw [List.length_cons] at hshort
      have hrest := ih hlength (by omega) h
      have hzip : (List.zipWith (· ^^^ ·) xs ys).length ≤ 3 := by
        rw [List.length_zipWith]
        omega
      rw [step, step, ← shifts_xor, ← shifts_of_toNat (toNat_word_shift hzip)] at hrest
      rw [List.zipWith_cons_cons, word, ← shifts_injective hrest, UInt8.toUInt32_xor]
      have hcancel : s ^^^ t = (x.toUInt32 ^^^ x.toUInt32) ^^^ (y.toUInt32 ^^^ y.toUInt32) ^^^
          (s ^^^ t) := by
        rw [UInt32.xor_self, UInt32.xor_self, UInt32.xor_zero, UInt32.zero_xor]
      rw [hcancel]
      ac_rfl

theorem foldl_step_injective {bytes : List UInt8} {s t : UInt32}
    (h : bytes.foldl step s = bytes.foldl step t) : s = t := by
  induction bytes generalizing s t with
  | nil => exact h
  | cons b rest ih => exact (UInt32.xor_left_inj b.toUInt32).mp (shifts_injective (ih h))

theorem eq_of_zipWith_xor {xs ys : List UInt8} (hlength : xs.length = ys.length)
    (h : ∀ b ∈ List.zipWith (· ^^^ ·) xs ys, b = 0) : xs = ys := by
  induction xs generalizing ys with
  | nil =>
      rw [List.length_nil, eq_comm, List.length_eq_zero_iff] at hlength
      rw [hlength]
  | cons x xs ih =>
      rcases ys with _ | ⟨y, ys⟩
      · cases hlength
      rw [List.zipWith_cons_cons, List.forall_mem_cons] at h
      rw [UInt8.xor_eq_zero_iff.mp h.1, ih (Nat.add_right_cancel hlength) h.2]

-- Of four bytes between the same bytes, none can be changed alone.
theorem ofBytes_between {before after xs ys : List UInt8} (hlength : xs.length = ys.length)
    (hshort : xs.length ≤ 4)
    (h : ofBytes (before ++ (xs ++ after)) = ofBytes (before ++ (ys ++ after))) : xs = ys := by
  rw [ofBytes, ofBytes, UInt32.xor_left_inj, List.foldl_append, List.foldl_append,
    List.foldl_append, List.foldl_append] at h
  have hword := foldl_step_agree hlength hshort (foldl_step_injective h)
  rw [UInt32.xor_self] at hword
  refine eq_of_zipWith_xor hlength (eq_zero_of_word ?_ hword.symm)
  rw [List.length_zipWith]
  omega

/-- Byte strings that differ in at most four consecutive bytes have different checksums. -/
theorem ofBytes_near {p : Nat} {xs ys : List UInt8} (h : Bytes.Near p xs ys)
    (hsum : ofBytes ys = ofBytes xs) : ys = xs := by
  have hparts : ∀ bytes : List UInt8,
      bytes = bytes.take p ++ ((bytes.drop p).take 4 ++ bytes.drop (p + 4)) := fun bytes => by
    rw [← List.drop_drop, List.take_append_drop, List.take_append_drop]
  have hlength : ((ys.drop p).take 4).length = ((xs.drop p).take 4).length := by
    rw [List.length_take, List.length_take, List.length_drop, List.length_drop, h.length]
  rw [hparts ys, hparts xs, h.before, h.after] at hsum ⊢
  rw [ofBytes_between hlength (List.length_take_le 4 _) hsum]

end Crc32

end NestedColumns
