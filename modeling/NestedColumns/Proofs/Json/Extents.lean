import NestedColumns.Json.Reader
import NestedColumns.Proofs.Json.Words
import NestedColumns.Proofs.Outcome

/-!
# How far words reach

What is taken for a word at the start of a text is taken for the same word before any other
text: no more than that part is looked at. Only a number shows where it ends by the character
behind it, so what follows a number must not be a part of it.

A reader is seen here as a relation between a text and what is left of it. A reader made of
others relates its text to the text they leave one after another, and it reaches as far as
they do together.

## Main definitions

* `Json.Takes`: How far a reader reaches.
* `Json.Firm`: A scan that finds what it found before any other text.

## Theorems

* `Json.Takes.chain`: Readers one after another.
* `Json.takes_skipBlanks`, `Json.takes_scanLiteral`: Blanks and literals.
* `Json.scanStringFrom_step`: One character of a string.
* `Json.firm_scanString`, `Json.takes_passString`: Strings, and those that nobody reads.
-/

namespace NestedColumns

namespace Json

/-- A reader takes at least so many characters, and before any text that may follow it takes
    the same ones. -/
def Takes (least : Nat) (follows : List Char → Prop) (reads : List Char → List Char → Prop) :
    Prop :=
  ∀ cs rest : List Char, reads cs rest → ∃ text, least ≤ text.length ∧ cs = text ++ rest ∧
    ∀ more, follows more → reads (text ++ more) more

/-- Anything may follow. -/
def Anything (_ : List Char) : Prop := True

/-- A scan finds what it found, before any text that may follow. -/
def Firm {α : Type} (follows : List Char → Prop) (scan : List Char → Scan α) : Prop :=
  ∀ a, Takes 1 follows fun cs rest => scan cs = .ok (a, rest)

section Takes

variable {α β : Type} {ι : Sort*} {m n : Nat} {follows follows' : List Char → Prop}
  {reads reads' : List Char → List Char → Prop} {cs rest : List Char}

theorem Takes.congr (h : Takes n follows reads) (heq : ∀ cs rest, reads' cs rest ↔ reads cs rest) :
    Takes n follows reads' := by
  intro cs rest hread
  rcases h _ _ ((heq cs rest).mp hread) with ⟨text, hlength, hcs, hmore⟩
  exact ⟨text, hlength, hcs, fun more hfollows => (heq _ _).mpr (hmore more hfollows)⟩

theorem Takes.weaken (h : Takes n follows reads) (hn : m ≤ n)
    (hfollows : ∀ more, follows' more → follows more) : Takes m follows' reads := by
  intro cs rest hread
  rcases h _ _ hread with ⟨text, hlength, hcs, hmore⟩
  exact ⟨text, Nat.le_trans hn hlength, hcs, fun more hf => hmore more (hfollows more hf)⟩

theorem Takes.either (h : Takes n follows reads) (h' : Takes n follows reads') :
    Takes n follows fun cs rest => reads cs rest ∨ reads' cs rest := by
  rintro cs rest (hread | hread)
  · rcases h _ _ hread with ⟨text, hlength, hcs, hmore⟩
    exact ⟨text, hlength, hcs, fun more hf => Or.inl (hmore more hf)⟩
  · rcases h' _ _ hread with ⟨text, hlength, hcs, hmore⟩
    exact ⟨text, hlength, hcs, fun more hf => Or.inr (hmore more hf)⟩

theorem Takes.some {reads : ι → List Char → List Char → Prop} (h : ∀ i, Takes n follows (reads i)) :
    Takes n follows fun cs rest => ∃ i, reads i cs rest := by
  rintro cs rest ⟨i, hread⟩
  rcases h i _ _ hread with ⟨text, hlength, hcs, hmore⟩
  exact ⟨text, hlength, hcs, fun more hf => ⟨i, hmore more hf⟩⟩

theorem Takes.given {p : Prop} (h : p → Takes n follows reads) :
    Takes n follows fun cs rest => p ∧ reads cs rest := by
  rintro cs rest ⟨hp, hread⟩
  rcases h hp _ _ hread with ⟨text, hlength, hcs, hmore⟩
  exact ⟨text, hlength, hcs, fun more hf => ⟨hp, hmore more hf⟩⟩

/-- Readers one after another reach as far as they do together, if what the second one takes
    may follow the first. -/
theorem Takes.chain (h : Takes m follows reads) (h' : Takes n follows' reads')
    (hbetween : ∀ {cs text rest}, reads cs (text ++ rest) → reads' (text ++ rest) rest →
      n ≤ text.length → ∀ more, follows' more → follows (text ++ more)) :
    Takes (m + n) follows' fun cs rest => ∃ mid, reads cs mid ∧ reads' mid rest := by
  rintro cs rest ⟨mid, hread, hread'⟩
  rcases h' _ _ hread' with ⟨text', hlength', rfl, hmore'⟩
  rcases h _ _ hread with ⟨text, hlength, rfl, hmore⟩
  refine ⟨text ++ text', ?_, (List.append_assoc ..).symm, fun more hf => ⟨text' ++ more, ?_, ?_⟩⟩
  · rw [List.length_append]
    exact Nat.add_le_add hlength hlength'
  · rw [List.append_assoc]
    exact hmore _ (hbetween hread hread' hlength' more hf)
  · exact hmore' more hf

theorem Takes.before (h : Takes m Anything reads) (h' : Takes n follows' reads') :
    Takes (m + n) follows' fun cs rest => ∃ mid, reads cs mid ∧ reads' mid rest :=
  h.chain h' fun _ _ _ _ _ => trivial

theorem Takes.length_le (h : Takes n follows reads) (hread : reads cs rest) :
    rest.length + n ≤ cs.length := by
  rcases h _ _ hread with ⟨text, hlength, rfl, -⟩
  rw [List.length_append]
  omega

theorem Firm.weaken {scan : List Char → Scan α} (h : Firm follows scan)
    (hfollows : ∀ more, follows' more → follows more) : Firm follows' scan :=
  fun a => (h a).weaken (Nat.le_refl 1) hfollows

theorem Firm.anyway {scan : List Char → Scan α} (h : Firm Anything scan) : Firm follows scan :=
  h.weaken fun _ _ => trivial

theorem Firm.map {scan : List Char → Scan α} (h : Firm follows scan) (f : α → β) :
    Firm follows fun cs => (scan cs).map fun (a, rest) => (f a, rest) := by
  intro b
  refine (Takes.some fun a => Takes.given (p := f a = b) fun _ => h a).congr fun cs rest => ?_
  rw [Outcome.map_eq_ok]
  constructor
  · rintro ⟨⟨a, rest'⟩, hok, heq⟩
    rw [Prod.mk.injEq] at heq
    rcases heq with ⟨hb, rfl⟩
    exact ⟨a, hb, hok⟩
  · rintro ⟨a, hb, hok⟩
    exact ⟨(a, rest), hok, congrArg (·, rest) hb⟩

end Takes

/-! ### Blanks -/

variable {follows : List Char → Prop} {cs rest : List Char} {n : Nat}

theorem skipBlanks_eq_cons {c : Char} (h : skipBlanks cs = c :: rest) :
    ∃ blanks, (∀ b ∈ blanks, isBlank b = true) ∧ isBlank c = false ∧ cs = blanks ++ c :: rest := by
  induction cs with
  | nil => cases h
  | cons b cs ih =>
      rw [skipBlanks] at h
      by_cases hb : isBlank b = true
      · rw [if_pos hb] at h
        rcases ih h with ⟨blanks, hblanks, hc, rfl⟩
        exact ⟨b :: blanks, List.forall_mem_cons.mpr ⟨hb, hblanks⟩, hc, rfl⟩
      · rw [if_neg hb, List.cons.injEq] at h
        rw [h.1, Bool.not_eq_true] at hb
        exact ⟨[], fun _ hin => absurd hin List.not_mem_nil, hb, by rw [h.1, h.2]; rfl⟩

theorem skipBlanks_append {blanks : List Char} {c : Char} (hblanks : ∀ b ∈ blanks, isBlank b = true)
    (hc : isBlank c = false) (more : List Char) :
    skipBlanks (blanks ++ c :: more) = c :: more := by
  induction blanks with
  | nil => rw [List.nil_append, skipBlanks, hc, if_neg Bool.false_ne_true]
  | cons b blanks ih =>
      rw [List.cons_append, skipBlanks, if_pos (hblanks b List.mem_cons_self),
        ih fun b hin => hblanks b (List.mem_cons_of_mem _ hin)]

theorem takes_skipBlanks (c : Char) :
    Takes 1 Anything fun cs rest => skipBlanks cs = c :: rest := by
  intro cs rest h
  rcases skipBlanks_eq_cons h with ⟨blanks, hblanks, hc, rfl⟩
  refine ⟨blanks ++ [c], ?_, ?_, fun more _ => ?_⟩
  · rw [List.length_append, List.length_singleton]
    exact Nat.le_add_left 1 _
  · rw [List.append_assoc, List.singleton_append]
  · change skipBlanks _ = _
    rw [List.append_assoc, List.singleton_append, skipBlanks_append hblanks hc]

/-- What a reader takes behind blanks. -/
theorem Takes.afterBlanks {reads : List Char → List Char → Prop} (h : Takes (n + 1) follows reads) :
    Takes (n + 1) follows fun cs rest => reads (skipBlanks cs) rest := by
  intro cs rest hread
  rcases h _ _ hread with ⟨text, hlength, hcs, hmore⟩
  cases text with
  | nil => exact absurd hlength (Nat.not_succ_le_zero n)
  | cons c text =>
      rw [List.cons_append] at hcs
      rcases skipBlanks_eq_cons hcs with ⟨blanks, hblanks, hc, rfl⟩
      refine ⟨blanks ++ c :: text, ?_, ?_, fun more hf => ?_⟩
      · rw [List.length_append]
        exact Nat.le_trans hlength (Nat.le_add_left _ _)
      · rw [List.append_assoc, List.cons_append]
      · change reads (skipBlanks _) more
        rw [List.append_assoc, List.cons_append, skipBlanks_append hblanks hc]
        exact hmore more hf

theorem apart_of_skipBlanks {c : Char} (h : skipBlanks cs = c :: rest) (hc : Apart [c]) :
    Apart cs := by
  rcases skipBlanks_eq_cons h with ⟨blanks, hblanks, -, rfl⟩
  cases blanks with
  | nil => exact apart_cons rest (hc c rfl)
  | cons b blanks =>
      have hb := hblanks b List.mem_cons_self
      simp only [isBlank, Bool.or_eq_true, beq_iff_eq] at hb
      refine apart_cons _ ?_
      rcases hb with ((rfl | rfl) | rfl) | rfl <;> decide

/-- What is taken from a text that is no part of a number is none either. -/
theorem Apart.taken {text : List Char} (h : Apart (text ++ rest)) (hlength : 1 ≤ text.length)
    (more : List Char) : Apart (text ++ more) := by
  cases text with
  | nil => exact absurd hlength (Nat.not_succ_le_zero 0)
  | cons c text => exact apart_cons _ (h c rfl)

/-! ### Literals and strings -/

theorem scanWord_eq_ok {word : List Char} : scanWord word cs = .ok rest ↔ cs = word ++ rest := by
  induction word generalizing cs with
  | nil =>
      rw [scanWord, Except.ok.injEq]
      rfl
  | cons expected word ih =>
      cases cs with
      | nil =>
          rw [scanWord]
          simp only [reduceCtorEq, List.cons_append]
      | cons c cs =>
          rw [scanWord, List.cons_append, List.cons.injEq]
          by_cases hc : c = expected
          · rw [if_pos hc, ih, and_iff_right hc]
          · rw [if_neg hc]
            simp only [reduceCtorEq, hc, false_and]

theorem takes_scanWord (word : List Char) :
    Takes word.length Anything fun cs rest => scanWord word cs = .ok rest := by
  intro cs rest h
  exact ⟨word, Nat.le_refl _, scanWord_eq_ok.mp h, fun more _ => scanWord_eq_ok.mpr rfl⟩

theorem takes_scanLiteral (first : Char) (v : Json) :
    Takes 1 Anything fun cs rest => scanLiteral first cs = some (.ok (v, rest)) := by
  have hword : ∀ (word : List Char) (value : Json), 1 ≤ word.length →
      Takes 1 Anything fun cs rest =>
        Option.some ((scanWord word cs).map (value, ·)) = Option.some (.ok (v, rest)) := by
    intro word value hlength
    refine (Takes.given (p := value = v) fun _ =>
      (takes_scanWord word).weaken hlength fun _ h => h).congr fun cs rest => ?_
    rw [Option.some.injEq, Outcome.map_eq_ok]
    simp only [Prod.mk.injEq]
    constructor
    · rintro ⟨rest', hok, hv, rfl⟩
      exact ⟨hv, hok⟩
    · rintro ⟨hv, hok⟩
      exact ⟨rest, hok, hv, rfl⟩
  intro cs rest h
  unfold scanLiteral at h ⊢
  split at h
  · exact hword _ _ (by decide) cs rest h
  · exact hword _ _ (by decide) cs rest h
  · exact hword _ _ (by decide) cs rest h
  · cases h

-- Only these letters begin a literal.
theorem scanLiteral_first {c : Char} {scanned : Scan Json} (h : scanLiteral c cs = some scanned) :
    c = 'n' ∨ c = 't' ∨ c = 'f' := by
  unfold scanLiteral at h
  split at h
  · exact Or.inl rfl
  · exact Or.inr (Or.inl rfl)
  · exact Or.inr (Or.inr rfl)
  · cases h

/-- How many characters the reader of a string still takes at least. -/
def StringState.owed : StringState → Nat
  | .digits owed _ _ => owed
  | _ => 1

theorem hexQuad_append {text : List Char} (h : 4 ≤ text.length) (more more' : List Char) :
    hexQuad (text ++ more) = hexQuad (text ++ more') := by
  rw [hexQuad, hexQuad, List.take_append_of_le_length h, List.take_append_of_le_length h]

/-- A string ends with a quote, or the reader takes one character and goes on in another state.
    It does the same before other characters, if the digits of an escape are still there. -/
theorem scanStringFrom_step {state : StringState} {read : List Char} {c : Char} {s : String}
    (h : scanStringFrom state read (c :: cs) = .ok (s, rest)) :
    state = .plain ∧ c = '"' ∧ String.ofList read.reverse = s ∧ cs = rest ∨
      ∃ state' read', scanStringFrom state' read' cs = .ok (s, rest) ∧
        state.owed ≤ state'.owed + 1 ∧
        ∀ cs', (4 ≤ state'.owed → hexQuad cs' = hexQuad cs) →
          scanStringFrom state read (c :: cs') = scanStringFrom state' read' cs' := by
  rw [or_iff_not_imp_left]
  intro hends
  cases state with
  | plain =>
      rw [scanStringFrom] at h
      split at h
      · next hquote =>
        rw [Except.ok.injEq, Prod.mk.injEq] at h
        exact absurd ⟨rfl, hquote, h⟩ hends
      · next hquote =>
        split at h
        · next hslash =>
          refine ⟨_, _, h, by decide, fun cs' _ => ?_⟩
          rw [scanStringFrom, if_neg hquote, if_pos hslash]
        · next hslash =>
          split at h
          · cases h
          · next hcontrol =>
            refine ⟨_, _, h, by decide, fun cs' _ => ?_⟩
            rw [scanStringFrom, if_neg hquote, if_neg hslash, if_neg hcontrol]
  | escape =>
      rw [scanStringFrom] at h
      split at h
      · next hu =>
        split at h
        · cases h
        · next value hhex =>
          refine ⟨_, _, h, by decide, fun cs' hsame => ?_⟩
          rw [scanStringFrom, if_pos hu, hsame (Nat.le_refl 4), hhex]
      · next hu =>
        split at h
        · next letter hletter =>
          refine ⟨_, _, h, by decide, fun cs' _ => ?_⟩
          rw [scanStringFrom, if_neg hu, hletter]
        · cases h
  | digits owed value leading =>
      rw [scanStringFrom] at h
      by_cases howed : 1 < owed
      · simp only [if_pos howed] at h
        refine ⟨_, _, h, by simp only [StringState.owed]; omega, fun cs' _ => ?_⟩
        rw [scanStringFrom]
        simp only [if_pos howed]
      · have hlast : owed ≤ 1 + 1 := by omega
        simp only [if_neg howed] at h
        split at h
        · cases h
        · next character hunits =>
          refine ⟨_, _, h, hlast, fun cs' _ => ?_⟩
          rw [scanStringFrom]
          simp only [if_neg howed, hunits]
        · next half hunits =>
          refine ⟨_, _, h, hlast, fun cs' _ => ?_⟩
          rw [scanStringFrom]
          simp only [if_neg howed, hunits]
  | pair leading =>
      rw [scanStringFrom] at h
      split at h
      · next hslash =>
        refine ⟨_, _, h, Nat.le_succ 1, fun cs' _ => ?_⟩
        rw [scanStringFrom, if_pos hslash]
      · cases h
  | pairEscape leading =>
      rw [scanStringFrom] at h
      split at h
      · next hu =>
        split at h
        · cases h
        · next value hhex =>
          refine ⟨_, _, h, (by decide : 1 ≤ 4 + 1), fun cs' hsame => ?_⟩
          rw [scanStringFrom, if_pos hu, hsame (Nat.le_refl 4), hhex]
      · cases h

-- The induction is on the characters. The digits of an escape are looked at before they are
-- taken, so they have to be counted among those that are.
theorem takes_scanStringFrom (state : StringState) (read : List Char) (s : String) :
    Takes state.owed Anything fun cs rest => scanStringFrom state read cs = .ok (s, rest) := by
  intro cs rest h
  induction cs generalizing state read with
  | nil => cases state <;> cases h
  | cons c cs ih =>
      rcases scanStringFrom_step h with ⟨rfl, rfl, rfl, rfl⟩ | ⟨state', read', hrest, howed, hsame⟩
      · refine ⟨['"'], Nat.le_refl 1, rfl, fun more _ => ?_⟩
        change scanStringFrom .plain read ('"' :: more) = _
        rw [scanStringFrom, if_pos rfl]
      · rcases ih state' read' hrest with ⟨text, hlength, hcs, hmore⟩
        refine ⟨c :: text, Nat.le_trans howed (Nat.succ_le_succ hlength), by rw [hcs]; rfl, ?_⟩
        intro more hany
        have hquad : 4 ≤ state'.owed → hexQuad (text ++ more) = hexQuad cs := fun hfour => by
          rw [hcs]
          exact hexQuad_append (Nat.le_trans hfour hlength) _ _
        rw [List.cons_append, hsame _ hquad]
        exact hmore more hany

theorem firm_scanString : Firm Anything scanString :=
  fun s => takes_scanStringFrom .plain [] s

/-- How many characters at the start of a text are hexadecimal digits. -/
def hexDigits (cs : List Char) : Nat :=
  (cs.takeWhile fun c => (hexValue? c).isSome).length

theorem isSome_of_mapM {α β : Type} {f : α → Option β} {xs : List α} {ys : List β}
    (h : xs.mapM f = some ys) : ∀ x ∈ xs, (f x).isSome = true := by
  induction xs generalizing ys with
  | nil => exact fun x hx => absurd hx List.not_mem_nil
  | cons x xs ih =>
      rw [List.mapM_cons] at h
      cases hx : f x with
      | none =>
          rw [hx] at h
          cases h
      | some y =>
          rw [hx] at h
          cases hxs : xs.mapM f with
          | none =>
              rw [hxs] at h
              cases h
          | some ys => exact List.forall_mem_cons.mpr ⟨by rw [hx]; rfl, ih hxs⟩

theorem utf8Size_of_hexValue? {c : Char} (h : (hexValue? c).isSome = true) : c.utf8Size = 1 := by
  have hle : c.val.toNat ≤ 0x7f := by
    rw [hexValue?] at h
    split at h
    · next hc => exact Nat.le_trans (UInt32.le_iff_toNat_le.mp hc.2) (by decide)
    · split at h
      · next hc => exact Nat.le_trans (UInt32.le_iff_toNat_le.mp hc.2) (by decide)
      · split at h
        · next hc => exact Nat.le_trans (UInt32.le_iff_toNat_le.mp hc.2) (by decide)
        · cases h
  rw [Char.utf8Size, if_pos (UInt32.le_iff_toNat_le.mpr hle)]

theorem four_le_hexDigits {value : Nat} (h : hexQuad cs = .ok value) : 4 ≤ hexDigits cs := by
  rw [hexQuad] at h
  split at h
  · cases h
  · next hsize =>
    cases hdigits : (cs.take 4).mapM hexValue? with
    | none =>
        rw [hdigits] at h
        cases h
    | some digits =>
        have hall := isSome_of_mapM hdigits
        have hones : (cs.take 4).map Char.utf8Size = List.replicate (cs.take 4).length 1 :=
          List.eq_replicate_iff.mpr ⟨List.length_map _, fun size hmem => by
            rcases List.mem_map.mp hmem with ⟨c, hc, rfl⟩
            exact utf8Size_of_hexValue? (hall c hc)⟩
        rw [hones, List.sum_replicate_nat, Nat.mul_one] at hsize
        have htake : cs.takeWhile (fun c => (hexValue? c).isSome) =
            cs.take 4 ++ (cs.drop 4).takeWhile fun c => (hexValue? c).isSome := by
          rw [← List.takeWhile_append_of_pos hall, List.take_append_drop]
        rw [hexDigits, htake, List.length_append]
        omega

-- Digits of an escape are taken as characters like others, so a string that nobody reads
-- does not end among them.
theorem passString_reach (h : passString cs = .ok rest) :
    ∃ text, hexDigits cs < text.length ∧ cs = text ++ rest ∧
      ∀ more, passString (text ++ more) = .ok more := by
  fun_induction passString cs with
  | case1 => cases h
  | case2 tail =>
      cases h
      exact ⟨['"'], Nat.zero_lt_one, rfl, fun more => rfl⟩
  | case3 tail fault hquad => cases h
  | case4 tail value hquad ih =>
      rcases ih h with ⟨text, hlength, rfl, hmore⟩
      have hfour := four_le_hexDigits hquad
      refine ⟨'\\' :: 'u' :: text, Nat.zero_lt_succ _, rfl, fun more => ?_⟩
      have hsame : hexQuad (text ++ more) = .ok value :=
        (hexQuad_append (by omega) more rest).trans hquad
      rw [List.cons_append, List.cons_append, passString, if_pos rfl, hsame]
      exact hmore more
  | case5 c tail hu hletter ih =>
      rcases ih h with ⟨text, hlength, rfl, hmore⟩
      refine ⟨'\\' :: c :: text, Nat.zero_lt_succ _, rfl, fun more => ?_⟩
      rw [List.cons_append, List.cons_append, passString, if_neg hu, if_pos hletter]
      exact hmore more
  | case6 c tail hu hletter => cases h
  | case7 tail hquote hescape => cases h
  | case8 c tail hquote hescape hslash hcontrol => cases h
  | case9 c tail hquote hescape hslash hcontrol ih =>
      rcases ih h with ⟨text, hlength, rfl, hmore⟩
      refine ⟨c :: text, ?_, rfl, fun more => ?_⟩
      · rw [hexDigits, List.takeWhile_cons]
        split
        · exact Nat.succ_lt_succ hlength
        · exact Nat.zero_lt_succ _
      · rw [List.cons_append, passString, if_neg hslash, if_neg hcontrol]
        · exact hmore more
        · exact hquote
        · rintro c' tail' rfl -
          exact hslash rfl

theorem takes_passString : Takes 1 Anything fun cs rest => passString cs = .ok rest := by
  intro cs rest h
  rcases passString_reach h with ⟨text, hlength, hcs, hmore⟩
  exact ⟨text, Nat.one_le_iff_ne_zero.mpr (Nat.ne_zero_of_lt hlength), hcs,
    fun more _ => hmore more⟩

end Json

end NestedColumns
