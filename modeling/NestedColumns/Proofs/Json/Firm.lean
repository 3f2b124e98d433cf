import NestedColumns.Proofs.Json.Passing

/-!
# How far readers reach

A reader put together from others that find what they found before any other text does so too.
A string, an array, a structure and an alternative show where they end; a number does not, but
inside of brackets it is followed by a comma or by a bracket that closes.

## Main definitions

* `Json.Reader.Firm`: A reader that finds what it found before any other text.

## Theorems

* `Json.Reader.firm_list`, `Json.Reader.firm_fields`: Arrays and structures.
* `Json.Reader.firm_tagged`: Alternatives.
* `Json.Reader.takes_next_tagged`: Alternatives one after another.
-/

namespace NestedColumns

namespace Json

variable {α σ : Type} {follows : List Char → Prop} {cs rest mid : List Char}

namespace Reader

/-! ### Words -/

/-- A reader finds what it found, before any text that may follow. -/
def Firm (follows : List Char → Prop) (reader : Reader α) : Prop :=
  ∀ room, Json.Firm follows (reader room)

variable {β γ : Type} {reader : Reader α} {room : Nat}

theorem Firm.map (h : reader.Firm follows) (f : α → β) : (reader.map f).Firm follows :=
  fun room => Json.Firm.map (h room) f

theorem Firm.anyway (h : reader.Firm Anything) : reader.Firm follows :=
  fun room => Json.Firm.anyway (h room)

theorem string_eq_ok {s : String} : string room cs = .ok (s, rest) ↔
    ∃ mid, skipBlanks cs = '"' :: mid ∧ scanString mid = .ok (s, rest) := by
  rw [string]
  split
  · next mid heq => rw [heq]; simp only [List.cons.injEq, true_and, exists_eq_left']
  · next hno =>
    simp only [reduceCtorEq, false_iff]
    rintro ⟨mid, heq, -⟩
    exact hno mid heq

theorem firm_string : string.Firm Anything := fun _ s =>
  (((takes_skipBlanks '"').before (firm_scanString s)).weaken (by decide) fun _ h => h).congr
    fun _ _ => string_eq_ok

theorem null_eq_ok {u : Unit} : null room cs = .ok (u, rest) ↔
    ∃ mid, skipBlanks cs = 'n' :: mid ∧ scanWord "ull".toList mid = .ok rest := by
  rw [null]
  split
  · next mid heq =>
    rw [heq, Outcome.map_eq_ok]
    simp only [Prod.mk.injEq, true_and, List.cons.injEq, exists_eq_left', exists_eq_right]
  · next hno =>
    simp only [reduceCtorEq, false_iff]
    rintro ⟨mid, heq, -⟩
    exact hno mid heq

theorem firm_null : null.Firm Anything := fun _ _ =>
  (((takes_skipBlanks 'n').before (takes_scanWord "ull".toList)).weaken (by decide)
    fun _ h => h).congr fun _ _ => null_eq_ok

theorem natBelow_eq_ok {bound n : Nat} : natBelow bound room cs = .ok (n, rest) ↔
    ∃ i : Int, (0 ≤ i ∧ i < bound ∧ i.toNat = n) ∧
      scanNumber (skipBlanks cs) = .ok (.whole i, rest) := by
  unfold natBelow
  constructor
  · intro h
    split at h
    · cases h
    · next c tail heq =>
      split at h
      · split at h
        · cases h
        · next i rest' hnumber =>
          split at h
          · next hrange =>
            cases h
            rw [heq]
            exact ⟨i, ⟨hrange.1, hrange.2, rfl⟩, hnumber⟩
          · cases h
        · cases h
      · cases h
  · rintro ⟨i, ⟨hlow, hhigh, rfl⟩, hnumber⟩
    rcases scanNumber_eq_ok.mp hnumber with ⟨_, _, _, _, -, hspelled⟩
    rcases hspelled.head with ⟨c, tail, heq, hc⟩
    rw [heq] at hnumber
    simp only [heq, if_pos hc, hnumber, if_pos (And.intro hlow hhigh)]

theorem firm_natBelow (bound : Nat) : (natBelow bound).Firm Apart := fun _ _ =>
  (Takes.some fun i => Takes.given fun _ => (firm_scanNumber (.whole i)).afterBlanks).congr
    fun _ _ => natBelow_eq_ok

/-! ### Lists and structures -/

theorem list_eq_ok {item : Reader α} (hitem : item.Firm Apart) {as : List α} :
    list item room cs = .ok (as, rest) ↔ ∃ inner, room = inner + 1 ∧
      ∃ mid, skipBlanks cs = '[' :: mid ∧
        ∃ fuel, scanItems (item inner) fuel true [] mid = .ok (as, rest) := by
  unfold list
  constructor
  · intro h
    split at h
    · cases h
    · next mid inner heq => exact ⟨inner, rfl, mid, heq, _, h⟩
    · cases h
  · rintro ⟨inner, rfl, mid, heq, fuel, h⟩
    rw [heq]
    exact scanItems_fuel (hitem inner) h (Nat.lt_succ_self _)

theorem firm_list {item : Reader α} (hitem : item.Firm Apart) : (list item).Firm Anything :=
  fun _ as => (Takes.some fun inner => Takes.given fun _ =>
    ((takes_skipBlanks '[').before (Takes.some fun fuel =>
      takes_scanItems (hitem inner) fuel true [] as)).weaken (by decide) fun _ h => h).congr
    fun _ _ => list_eq_ok hitem

section Fields

variable {fields : List (Field σ)} {first : Bool} {state last start : σ}

theorem scanInOrder_nil : scanInOrder [] room first state cs = .ok (last, rest) ↔
    last = state ∧ skipBlanks cs = ']' :: rest := by
  have hend : endItems cs = .ok rest ↔ skipBlanks cs = ']' :: rest := by
    rw [endItems]
    split
    · next heq => rw [heq]; simp only [reduceCtorEq]
    · next heq => rw [heq, Except.ok.injEq, List.cons.injEq, and_iff_right rfl]
    · next hne heq =>
      rw [heq]
      simp only [reduceCtorEq, false_iff]
      exact fun hcons => hne (List.cons.inj hcons).1
  rw [scanInOrder, Outcome.map_eq_ok, ← hend]
  constructor
  · rintro ⟨rest', hok, heq⟩
    cases heq
    exact ⟨rfl, hok⟩
  · rintro ⟨rfl, hok⟩
    exact ⟨rest, hok, rfl⟩

theorem scanInOrder_cons {field : Field σ} :
    scanInOrder (field :: fields) room first state cs = .ok (last, rest) ↔
      ∃ state' mid, nextItem first cs = .ok (.more mid) ∧ ∃ mid',
        field.read state room mid = .ok (state', mid') ∧
          scanInOrder fields room false state' mid' = .ok (last, rest) := by
  rw [scanInOrder]
  constructor
  · intro h
    split at h
    · cases h
    · cases h
    · next mid hnext =>
      split at h
      · cases h
      · next state' mid' hread => exact ⟨state', mid, hnext, mid', hread, h⟩
  · rintro ⟨state', mid, hnext, mid', hread, h⟩
    simp only [hnext, hread, h]

theorem apart_of_scanInOrder (h : scanInOrder fields room false state cs = .ok (last, rest)) :
    Apart cs := by
  cases fields with
  | nil => exact apart_of_skipBlanks (scanInOrder_nil.mp h).2 (apart_square [])
  | cons field fields =>
      rcases scanInOrder_cons.mp h with ⟨state', mid, hmore, -⟩
      rcases nextItem_more.mp hmore with ⟨hfirst, -⟩ | ⟨-, tail, hcomma, -⟩
      · cases hfirst
      · exact apart_of_skipBlanks hcomma (apart_comma [])

theorem takes_scanInOrder (hfields : ∀ field ∈ fields, ∀ state, (field.read state).Firm Apart)
    (first : Bool) (state : σ) :
    Takes 1 Anything fun cs rest => scanInOrder fields room first state cs = .ok (last, rest) := by
  induction fields generalizing first state with
  | nil => exact (Takes.given fun _ => takes_skipBlanks ']').congr fun _ _ => scanInOrder_nil
  | cons field fields ih =>
      refine Takes.congr (Takes.some fun state' => ?_) fun _ _ => scanInOrder_cons
      have hrest := (hfields field List.mem_cons_self state room state').chain
        (ih (fun field hin => hfields field (List.mem_cons_of_mem _ hin)) false state')
        fun _ h hlength more _ => (apart_of_scanInOrder h).taken hlength more
      refine ((takes_nextItem first).chain hrest fun hnext _ hlength more _ => ?_).weaken
        (by decide) fun _ h => h
      exact (starts_of_nextItem hnext).taken (by omega) more

theorem firm_scanField (hfields : ∀ field ∈ fields, ∀ state, (field.read state).Firm Apart)
    (state : σ) (name : String) : Json.Firm Apart (scanField fields room state name) := by
  unfold scanField
  split
  · next field hfind =>
    split
    · exact fun _ _ _ h => nomatch h
    · exact Json.Firm.afterColon (hfields field (List.mem_of_find?_eq_some hfind) state room)
  · refine Json.Firm.afterColon fun state' => ?_
    refine (Takes.given (p := state = state') fun _ => takes_passValue).congr fun cs rest => ?_
    rw [Outcome.map_eq_ok]
    constructor
    · rintro ⟨rest', hok, heq⟩
      cases heq
      exact ⟨rfl, hok⟩
    · rintro ⟨rfl, hok⟩
      exact ⟨rest, hok, rfl⟩

theorem fields_eq_ok (hfields : ∀ field ∈ fields, ∀ state, (field.read state).Firm Apart) :
    Reader.fields fields start room cs = .ok (last, rest) ↔ ∃ inner, room = inner + 1 ∧
      ((∃ mid, skipBlanks cs = '[' :: mid ∧
        scanInOrder fields inner true start mid = .ok (last, rest)) ∨
      ∃ mid, skipBlanks cs = '\x7b' :: mid ∧
        ∃ fuel, scanMembers (scanField fields inner) fuel true start mid = .ok (last, rest)) := by
  unfold Reader.fields
  constructor
  · intro h
    split at h
    · cases h
    · next mid inner heq => exact ⟨inner, rfl, Or.inl ⟨mid, heq, h⟩⟩
    · cases h
    · next mid inner heq => exact ⟨inner, rfl, Or.inr ⟨mid, heq, _, h⟩⟩
    · cases h
  · rintro ⟨inner, rfl, ⟨mid, heq, h⟩ | ⟨mid, heq, fuel, h⟩⟩
    · rw [heq]
      exact h
    · rw [heq]
      exact scanMembers_fuel (firm_scanField hfields) h (Nat.lt_succ_self _)

theorem firm_fields (hfields : ∀ field ∈ fields, ∀ state, (field.read state).Firm Apart)
    (start : σ) : (Reader.fields fields start).Firm Anything := by
  intro room last
  refine Takes.congr (Takes.some fun inner => Takes.given fun _ => Takes.either ?_ ?_)
    fun _ _ => fields_eq_ok hfields
  · exact ((takes_skipBlanks '[').before (takes_scanInOrder hfields true start)).weaken (by decide)
      fun _ h => h
  · exact ((takes_skipBlanks '\x7b').before (Takes.some fun fuel =>
      takes_scanMembers (firm_scanField hfields) fuel true start last)).weaken (by decide)
      fun _ h => h

end Fields

theorem firm_complete {reader : Reader (Option α)} (h : reader.Firm follows) :
    (complete reader).Firm follows := by
  intro room a
  refine (h room (some a)).congr fun cs rest => ?_
  unfold complete
  constructor
  · intro hok
    split at hok
    · next hread =>
      cases hok
      exact hread
    · cases hok
    · cases hok
  · intro hread
    rw [hread]

theorem firm_one (name : String) (h : reader.Firm Apart) : (one name reader).Firm Anything := by
  refine firm_complete (firm_fields ?_ _)
  intro field hin state
  rw [List.mem_singleton.mp hin]
  exact h.map some

theorem firm_two {reader' : Reader β} (name name' : String) (h : reader.Firm Apart)
    (h' : reader'.Firm Apart) : (two name reader name' reader').Firm Anything := by
  refine firm_complete ((firm_fields ?_ _).map _)
  intro field hin state
  rcases List.mem_pair.mp hin with rfl | rfl
  · exact h.map fun a => (some a, state.2)
  · exact h'.map fun b => (state.1, some b)

theorem firm_three {reader' : Reader β} {reader'' : Reader γ} (name name' name'' : String)
    (h : reader.Firm Apart) (h' : reader'.Firm Apart) (h'' : reader''.Firm Apart) :
    (three name reader name' reader' name'' reader'').Firm Anything := by
  refine firm_complete ((firm_fields ?_ _).map _)
  intro field hin state
  rcases List.mem_cons.mp hin with rfl | hin
  · exact h.map fun a => (some a, state.2)
  · rcases List.mem_pair.mp hin with rfl | rfl
    · exact h'.map fun b => (state.1, some b, state.2.2)
    · exact h''.map fun c => (state.1, state.2.1, some c)

/-! ### Alternatives -/

theorem endTagged_eq_ok {a b : α} : endTagged a cs = .ok (b, rest) ↔
    a = b ∧ skipBlanks cs = '\x7d' :: rest := by
  rw [endTagged]
  split
  · next tail heq => rw [heq, Except.ok.injEq, Prod.mk.injEq, List.cons.injEq, and_iff_right rfl]
  · next hno =>
    simp only [reduceCtorEq, false_iff]
    exact fun h => hno rest h.2

theorem tagged_eq_ok {variants : List (String × Variant α)} {a : α} :
    tagged variants room cs = .ok (a, rest) ↔
      (∃ inner, room = inner + 1 ∧ ∃ tag variant, variants.lookup tag = some variant ∧
        ∃ mid, skipBlanks cs = '\x7b' :: mid ∧ ∃ mid', string inner mid = .ok (tag, mid') ∧
          ∃ mid'', afterColon (variant.reader inner) mid' = .ok (a, mid'') ∧
            skipBlanks mid'' = '\x7d' :: rest) ∨
      ∃ tag, variants.lookup tag = some (.bare a) ∧
        ∃ mid, skipBlanks cs = '"' :: mid ∧ scanString mid = .ok (tag, rest) := by
  unfold tagged
  constructor
  · intro h
    split at h
    · cases h
    · cases h
    · next mid inner heq =>
      split at h
      · cases h
      · next tag mid' htag =>
        split at h
        · cases h
        · next variant hlookup =>
          split at h
          · cases h
          · next a' mid'' hvalue =>
            rcases endTagged_eq_ok.mp h with ⟨rfl, hend⟩
            exact Or.inl
              ⟨inner, rfl, tag, variant, hlookup, mid, heq, mid', htag, mid'', hvalue, hend⟩
    · next mid heq =>
      split at h
      · cases h
      · next tag mid' htag =>
        split at h
        · next hlookup =>
          cases h
          exact Or.inr ⟨tag, hlookup, mid, heq, htag⟩
        · cases h
    · cases h
  · rintro (⟨inner, rfl, tag, variant, hlookup, mid, heq, mid', htag, mid'', hvalue, hend⟩ |
      ⟨tag, hlookup, mid, heq, htag⟩)
    · rw [heq]
      simp only [htag, hlookup, hvalue]
      exact endTagged_eq_ok.mpr ⟨rfl, hend⟩
    · rw [heq]
      cases room <;> simp only [htag, hlookup]

theorem firm_tagged {variants : List (String × Variant α)}
    (h : ∀ v ∈ variants, v.2.reader.Firm Apart) : (tagged variants).Firm Anything := by
  have hlookup : ∀ {tag variant}, variants.lookup tag = some variant →
      variant.reader.Firm Apart := by
    intro tag variant hlookup
    rcases List.lookup_eq_some_iff.mp hlookup with ⟨before, after, heq, -⟩
    exact h (tag, variant) (heq ▸ List.mem_append_right _ List.mem_cons_self)
  intro room a
  refine Takes.congr (Takes.either (Takes.some fun inner => Takes.given fun _ =>
    Takes.some fun tag => Takes.some fun variant => Takes.given fun hfound => ?_)
    (Takes.some fun tag => Takes.given fun _ => ?_)) fun _ _ => tagged_eq_ok
  · have hvalue := (Json.Firm.afterColon (hlookup hfound inner) a).chain
      (takes_skipBlanks '\x7d') fun _ hend hlength more _ =>
        (apart_of_skipBlanks hend (apart_curly [])).taken hlength more
    exact ((takes_skipBlanks '\x7b').before ((firm_string inner tag).before hvalue)).weaken
      (by decide) fun _ h => h
  · exact ((takes_skipBlanks '"').before (firm_scanString tag)).weaken (by decide) fun _ h => h

theorem firm_bare (a : α) : (Variant.bare a).reader.Firm follows :=
  (firm_null.map fun _ => a).anyway

theorem firm_holding (h : reader.Firm follows) (f : α → β) :
    (Variant.holding (reader.map f)).reader.Firm follows :=
  h.map f

/-! ### Values one after another -/

theorem skipBlanks_skipBlanks (cs : List Char) : skipBlanks (skipBlanks cs) = skipBlanks cs := by
  cases h : skipBlanks cs with
  | nil => rfl
  | cons c tail =>
      rcases skipBlanks_eq_cons h with ⟨-, -, hblank, -⟩
      exact skipBlanks_cons hblank tail

-- A value that starts with a bracket or a quote shows where it ends.
theorem next_eq_ok {a : α} (hblanks : ∀ cs, reader maxNesting (skipBlanks cs) = reader maxNesting cs)
    (hhead : reader maxNesting cs = .ok (a, rest) →
      ∃ c tail, skipBlanks cs = c :: tail ∧ isDelimited c = true) :
    next reader cs = .ok (some (a, rest)) ↔ reader maxNesting cs = .ok (a, rest) := by
  unfold next
  constructor
  · intro h
    split at h
    · cases h
    · next c tail heq =>
      split at h
      · cases h
      · next a' rest' hread =>
        split at h
        · cases h
          rwa [← heq, hblanks] at hread
        · cases h
  · intro h
    rcases hhead h with ⟨c, tail, heq, hdelimited⟩
    rw [← hblanks, heq] at h
    rw [heq]
    simp only [h, hdelimited, Bool.true_or, if_true]

theorem next_tagged_eq_ok {variants : List (String × Variant α)} {a : α} :
    next (tagged variants) cs = .ok (some (a, rest)) ↔
      tagged variants maxNesting cs = .ok (a, rest) := by
  refine next_eq_ok (fun cs => ?_) fun h => ?_
  · unfold tagged
    rw [skipBlanks_skipBlanks]
  · rcases tagged_eq_ok.mp h with ⟨-, -, -, -, -, mid, heq, -⟩ | ⟨-, -, mid, heq, -⟩
    · exact ⟨'\x7b', mid, heq, rfl⟩
    · exact ⟨'"', mid, heq, rfl⟩

theorem takes_next_tagged {variants : List (String × Variant α)}
    (h : ∀ v ∈ variants, v.2.reader.Firm Apart) (a : α) :
    Takes 1 Anything fun cs rest => next (tagged variants) cs = .ok (some (a, rest)) :=
  (firm_tagged h maxNesting a).congr fun _ _ => next_tagged_eq_ok

end Reader

end Json

end NestedColumns
