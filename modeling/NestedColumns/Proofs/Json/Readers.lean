import NestedColumns.Proofs.Json.Reading
import NestedColumns.Schema.Text

/-!
# Readers of printed values

A reader for a value reads back its text if the brackets that it opens at once are as many
as the reader may open, and if its numbers are below the bounds of the reader. Else the text
is malformed. A reader that is put together from others does so if they do.

## Main definitions

* `Json.Reader.Reads`: A reader reads back the text of a value if it can.

## Theorems

* `Json.Reader.reads_string`, `Json.Reader.reads_natBelow`: Readers of words.
* `Json.Reader.Reads.list`, `Json.Reader.Reads.one`, `Json.Reader.Reads.two`,
  `Json.Reader.Reads.three`, `Json.Reader.Reads.tagged`: Readers put together.
-/

namespace NestedColumns

namespace Json

theorem starts_string (s : String) : Starts (Json.string s).print :=
  ⟨'"', _, rfl, rfl, by decide⟩

theorem starts_array (items : List Json) : Starts (Json.array items).print :=
  ⟨'[', _, rfl, rfl, by decide⟩

theorem starts_object (members : List (String × Json)) : Starts (Json.object members).print :=
  ⟨'\x7b', _, rfl, rfl, by decide⟩

theorem print_ofNat (n : Nat) : (ofNat n).print = Nat.toDigits 10 n := by
  have hprint : (ofNat n).print = n.repr.toList := rfl
  rw [hprint, Nat.toList_repr]

theorem exists_first_digit (n : Nat) :
    ∃ c rest, Nat.toDigits 10 n = c :: rest ∧ isDigit c = true := by
  cases hdigits : Nat.toDigits 10 n with
  | nil => exact absurd hdigits Nat.toDigits_ne_nil
  | cons c rest =>
      exact ⟨c, rest, rfl, isDigit_of_mem_toDigits n c (hdigits ▸ List.mem_cons_self)⟩

theorem starts_ofNat (n : Nat) : Starts (ofNat n).print := by
  rcases exists_first_digit n with ⟨c, rest, hdigits, hc⟩
  refine ⟨c, rest, by rw [print_ofNat, hdigits], ?_, ?_⟩
  · rw [← Bool.not_eq_true]
    intro hblank
    simp only [isBlank, Bool.or_eq_true, beq_iff_eq] at hblank
    rcases hblank with ((rfl | rfl) | rfl) | rfl <;> revert hc <;> decide
  · rintro rfl
    revert hc
    decide

theorem isDelimited_digit {c : Char} (hc : isDigit c = true) : Reader.isDelimited c = false := by
  rw [← Bool.not_eq_true]
  intro hdelimited
  simp only [Reader.isDelimited, Bool.or_eq_true, beq_iff_eq] at hdelimited
  rcases hdelimited with (rfl | rfl) | rfl <;> revert hc <;> decide

namespace Reader

/-- A reader that may open so many brackets reads back the text of a value if that opens
    no more and `ok` holds. -/
structure Reads {α : Type} (reader : Reader α) (room : Nat) (v : Json) (ok : Prop) (a : α) :
    Prop where
  starts : Starts v.print
  scans : Scans (reader room) v.print (v.nesting ≤ room ∧ ok) a

variable {α β γ σ : Type} {reader : Reader α} {room : Nat} {v : Json} {ok : Prop} {a : α}

-- Without brackets to open nothing with parts is read.
theorem scans_zero {scan : List Char → Scan α} {text : List Char}
    (h : ∀ rest, scan (text ++ rest) = .error .malformed) (hok : ¬ ok) : Scans scan text ok a :=
  ⟨fun rest _ => Or.inr ⟨hok, h rest⟩, fun hyes => absurd hyes hok⟩

/-! ### Words -/

theorem reads_string (room : Nat) (s : String) : string.Reads room (.string s) True s where
  starts := starts_string s
  scans := by
    have hstep : ∀ cs, string room ('"' :: cs) = scanString cs := fun _ => rfl
    refine ⟨fun rest _ => Or.inl ⟨⟨Nat.zero_le _, trivial⟩, ?_⟩, fun _ part hcut => Or.inl ?_⟩
    · rw [print, quoted_append, hstep, scanString_quoted]
    · rcases cut_cons hcut with rfl | ⟨more, rfl, hmore⟩
      · rfl
      · rw [hstep, scanString_cut hmore]

theorem natBelow_digits {bound : Nat} (hb : bound ≤ 2 ^ 64) (room n : Nat) {rest : List Char}
    (hr : Apart rest) :
    n < bound ∧ natBelow bound room (Nat.toDigits 10 n ++ rest) = .ok (n, rest) ∨
      ¬ n < bound ∧ natBelow bound room (Nat.toDigits 10 n ++ rest) = .error .malformed := by
  rcases exists_first_digit n with ⟨c, digits, hdigits, hc⟩
  have hblank : skipBlanks (c :: (digits ++ rest)) = c :: (digits ++ rest) := by
    rcases starts_ofNat n with ⟨c', rest', htext, hblank, -⟩
    rw [print_ofNat, hdigits, List.cons.injEq] at htext
    rw [← htext.1] at hblank
    exact skipBlanks_cons hblank _
  have hnumber := scanNumber_digits n hr
  rw [hdigits, List.cons_append] at hnumber
  rw [hdigits, List.cons_append, natBelow, hblank]
  simp only [hc, or_true, if_true, hnumber]
  rw [← hdigits]
  rcases ofParts_digits n with ⟨hn, hparts⟩ | ⟨hn, hparts | ⟨d, hparts⟩⟩
  · rw [hparts]
    simp only [Except.map]
    by_cases hbound : n < bound
    · rw [if_pos ⟨Int.natCast_nonneg n, Int.ofNat_lt.mpr hbound⟩, Int.toNat_natCast]
      exact Or.inl ⟨hbound, rfl⟩
    · rw [if_neg fun h => hbound (Int.ofNat_lt.mp h.2)]
      exact Or.inr ⟨hbound, rfl⟩
  · rw [hparts]
    exact Or.inr ⟨fun h => absurd h (by omega), rfl⟩
  · rw [hparts]
    exact Or.inr ⟨fun h => absurd h (by omega), rfl⟩

-- What a cut leaves of a number is below the bound as well.
theorem reads_natBelow {bound : Nat} (hb : bound ≤ 2 ^ 64) (room n : Nat) :
    (natBelow bound).Reads room (ofNat n) (n < bound) n where
  starts := starts_ofNat n
  scans := by
    have hroom : (ofNat n).nesting ≤ room := Nat.zero_le _
    rw [print_ofNat]
    refine ⟨fun rest hr => ?_, fun hok part hcut => ?_⟩
    · rcases natBelow_digits hb room n hr with ⟨hbound, hread⟩ | ⟨hnot, hread⟩
      · exact Or.inl ⟨⟨hroom, hbound⟩, hread⟩
      · exact Or.inr ⟨fun h => hnot h.2, hread⟩
    · by_cases hnil : part = []
      · rw [hnil]
        exact Or.inl rfl
      · rcases exists_of_prefix_digits hcut.1 hnil with ⟨m, hm, rfl⟩
        rcases exists_first_digit n with ⟨c, digits, hdigits, hc⟩
        refine Or.inr ⟨?_, m, ?_⟩
        · rw [hdigits, List.head?_cons, Option.all_some]
          exact isDelimited_digit hc
        · rcases natBelow_digits hb room m apart_nil with ⟨-, hread⟩ | ⟨hnot, -⟩
          · rwa [List.append_nil] at hread
          · exact absurd (Nat.lt_of_le_of_lt hm hok.2) hnot

theorem Reads.map (h : reader.Reads room v ok a) (f : α → β) :
    (reader.map f).Reads room v ok (f a) where
  starts := h.starts
  scans := by
    refine ⟨fun rest hr => ?_, fun hok part hcut => (h.scans.cut hok part hcut).map f⟩
    rcases h.scans.whole rest hr with ⟨hok, hscan⟩ | ⟨hnot, hscan⟩
    · refine Or.inl ⟨hok, ?_⟩
      rw [Reader.map, hscan]
      rfl
    · refine Or.inr ⟨hnot, ?_⟩
      rw [Reader.map, hscan]
      rfl

theorem Reads.complete {reader : Reader (Option α)} (h : reader.Reads room v ok (some a))
    (hhead : v.print.head?.all isDelimited = true) : (complete reader).Reads room v ok a where
  starts := h.starts
  scans := by
    refine ⟨fun rest hr => ?_, fun hok part hcut => Or.inl ?_⟩
    · rcases h.scans.whole rest hr with ⟨hok, hscan⟩ | ⟨hnot, hscan⟩
      · refine Or.inl ⟨hok, ?_⟩
        rw [Reader.complete, hscan]
      · refine Or.inr ⟨hnot, ?_⟩
        rw [Reader.complete, hscan]
    · have hout := (h.scans.cut hok part hcut).incomplete hhead
      rw [Reader.complete, hout]

/-! ### Lists -/

theorem Reads.list {items : List β} {json : β → Json} {oks : β → Prop} {value : β → α}
    (h : ∀ inner, room = inner + 1 → ∀ b ∈ items, reader.Reads inner (json b) (oks b) (value b)) :
    (list reader).Reads room (.array (items.map json)) (∀ b ∈ items, oks b)
      (items.map value) where
  starts := starts_array _
  scans := by
    have hprint : (Json.array (items.map json)).print =
        '[' :: (commaSeparated (items.map fun b => (json b).print) ++ [']']) := by
      rw [print, printItems_eq, List.map_map]
      rfl
    rw [hprint]
    cases room with
    | zero =>
        refine scans_zero (fun rest => rfl) fun hok => ?_
        have hle := hok.1
        rw [nesting] at hle
        omega
    | succ inner =>
        have hitems := h inner rfl
        have hlength : ∀ rest, items.length <
            (commaSeparated (items.map fun b => (json b).print) ++ ']' :: rest).length + 1 := by
          intro rest
          have hne : ∀ text ∈ items.map fun b => (json b).print, text ≠ [] := by
            intro text htext
            rcases List.mem_map.mp htext with ⟨b, hb, rfl⟩
            exact (hitems b hb).starts.ne_nil
          have hle := length_le_commaSeparated hne
          rw [List.length_map] at hle
          rw [List.length_append]
          omega
        have hnesting : (∀ b ∈ items, (json b).nesting ≤ inner ∧ oks b) ↔
            (Json.array (items.map json)).nesting ≤ inner + 1 ∧ ∀ b ∈ items, oks b := by
          rw [nesting, Nat.add_le_add_iff_right, nestingItems_le, List.forall_mem_map]
          exact ⟨fun h => ⟨fun b hb => (h b hb).1, fun b hb => (h b hb).2⟩,
            fun h b hb => ⟨h.1 b hb, h.2 b hb⟩⟩
        have hstep : ∀ cs, Reader.list reader (inner + 1) ('[' :: cs) =
            scanItems (reader inner) (cs.length + 1) true [] cs := fun _ => rfl
        refine ⟨fun rest _ => ?_, fun hok part hcut => Or.inl ?_⟩
        · have hspec := scanItems_spec (fun b hb => (hitems b hb).starts)
            (fun b hb => (hitems b hb).scans) (hlength rest) rest
          rw [hnesting] at hspec
          rw [List.cons_append, List.append_assoc, List.singleton_append, hstep]
          exact hspec
        · rcases cut_cons hcut with rfl | ⟨more, rfl, hmore⟩
          · rfl
          · rw [hstep]
            exact scanItems_cut (fun b hb => (hitems b hb).starts)
              (fun b hb => (hitems b hb).scans) (hnesting.mpr hok) hmore (Nat.lt_succ_self _)

/-! ### Structures -/

theorem scans_scanField {fields : List (Field σ)} {field : Field σ} {name : String}
    {state state' : σ} (hfield : fields.find? (·.name == name) = some field)
    (hset : field.isSet state = false) (h : (field.read state).Reads room v ok state') :
    Scans (scanField fields room state name) (':' :: v.print) (v.nesting ≤ room ∧ ok) state' := by
  have hcolon : ∀ cs, scanField fields room state name cs =
      afterColon (field.read state room) cs := by
    intro cs
    rw [scanField, hfield]
    simp only [hset, Bool.false_eq_true, if_false]
  have hstep : ∀ cs, afterColon (field.read state room) (':' :: cs) = field.read state room cs :=
    fun _ => rfl
  refine ⟨fun rest hr => ?_, fun hok part hcut => ?_⟩
  · rw [hcolon, List.cons_append, hstep]
    exact h.scans.whole rest hr
  · rw [hcolon]
    rcases cut_cons hcut with rfl | ⟨more, rfl, hmore⟩
    · exact Or.inl rfl
    · rw [hstep]
      exact (h.scans.cut hok more hmore).imp_right fun hout => ⟨rfl, hout.2⟩

theorem reads_fields {fields : List (Field σ)} {start last : σ} {members : List (String × Json)}
    (h : ∀ inner, room = inner + 1 → ∃ oks,
      Members (scanField fields inner) start (members.map fun m => (m.1, m.2.print)) oks last ∧
        (oks ↔ nestingMembers members ≤ inner ∧ ok)) :
    (Reader.fields fields start).Reads room (.object members) ok last where
  starts := starts_object _
  scans := by
    have hprint : (Json.object members).print =
        '\x7b' :: (commaSeparated ((members.map fun m => (m.1, m.2.print)).map memberText) ++
          ['\x7d']) := by
      rw [print, printMembers_eq, List.map_map]
      rfl
    rw [hprint]
    cases room with
    | zero =>
        refine scans_zero (fun rest => rfl) fun hok => ?_
        have hle := hok.1
        rw [nesting] at hle
        omega
    | succ inner =>
        rcases h inner rfl with ⟨oks, hmembers, hoks⟩
        have hlength : ∀ rest, (members.map fun m => (m.1, m.2.print)).length <
            (commaSeparated ((members.map fun m => (m.1, m.2.print)).map memberText) ++
              '\x7d' :: rest).length + 1 := by
          intro rest
          have hne : ∀ text ∈ (members.map fun m => (m.1, m.2.print)).map memberText,
              text ≠ [] := by
            intro text htext
            rcases List.mem_map.mp htext with ⟨m, -, rfl⟩
            exact List.cons_ne_nil _ _
          have hle := length_le_commaSeparated hne
          rw [List.length_map] at hle
          rw [List.length_append]
          omega
        have hnesting : oks ↔ (Json.object members).nesting ≤ inner + 1 ∧ ok := by
          rw [nesting, Nat.add_le_add_iff_right]
          exact hoks
        have hstep : ∀ cs, Reader.fields fields start (inner + 1) ('\x7b' :: cs) =
            scanMembers (scanField fields inner) (cs.length + 1) true start cs := fun _ => rfl
        refine ⟨fun rest _ => ?_, fun hok part hcut => Or.inl ?_⟩
        · have hspec := scanMembers_spec hmembers (hlength rest) rest
          rw [hnesting] at hspec
          rw [List.cons_append, List.append_assoc, List.singleton_append, hstep]
          exact hspec
        · rcases cut_cons hcut with rfl | ⟨more, rfl, hmore⟩
          · rfl
          · rw [hstep]
            exact scanMembers_cut hmembers (hnesting.mpr hok) hmore (Nat.lt_succ_self _)

section

variable {first second third : Field σ} {rest : List (Field σ)} {name : String}

theorem find?_first (h : first.name = name) :
    (first :: rest).find? (·.name == name) = some first :=
  List.find?_cons_of_pos (by rw [h, beq_self_eq_true])

theorem find?_second (hne : first.name ≠ name) (h : second.name = name) :
    (first :: second :: rest).find? (·.name == name) = some second := by
  rw [List.find?_cons_of_neg (by rwa [beq_iff_eq]), find?_first h]

theorem find?_third (hne : first.name ≠ name) (hne' : second.name ≠ name) (h : third.name = name) :
    (first :: second :: third :: rest).find? (·.name == name) = some third := by
  rw [List.find?_cons_of_neg (by rwa [beq_iff_eq]), find?_second hne' h]

end

theorem Reads.one {name : String}
    (h : ∀ inner, room = inner + 1 → reader.Reads inner v ok a) :
    (one name reader).Reads room (.object [(name, v)]) ok a := by
  refine Reads.complete (reads_fields fun inner hinner => ?_) rfl
  have hfirst := (h inner hinner).map some
  refine ⟨_, .cons (scans_scanField (find?_first rfl) rfl hfirst) (.nil _), ?_⟩
  rw [and_true, nestingMembers, nestingMembers, Nat.max_zero]

variable {reader₁ : Reader α} {reader₂ : Reader β} {reader₃ : Reader γ} {v₁ v₂ v₃ : Json}
  {ok₁ ok₂ ok₃ : Prop} {a₁ : α} {a₂ : β} {a₃ : γ} {name₁ name₂ name₃ : String}

-- The state holds the fields that were read so far.
theorem Reads.two (hne : name₁ ≠ name₂)
    (h₁ : ∀ inner, room = inner + 1 → reader₁.Reads inner v₁ ok₁ a₁)
    (h₂ : ∀ inner, room = inner + 1 → reader₂.Reads inner v₂ ok₂ a₂) :
    (two name₁ reader₁ name₂ reader₂).Reads room (.object [(name₁, v₁), (name₂, v₂)])
      (ok₁ ∧ ok₂) (a₁, a₂) := by
  refine Reads.complete
    (Reads.map (a := (some a₁, some a₂)) (reads_fields fun inner hinner => ?_) _) rfl
  have hfirst := (h₁ inner hinner).map fun a => (some a, (none : Option β))
  have hsecond := (h₂ inner hinner).map fun b => (some a₁, some b)
  refine ⟨_, .cons (scans_scanField (find?_first rfl) rfl hfirst)
    (.cons (scans_scanField (find?_second hne rfl) rfl hsecond) (.nil _)), ?_⟩
  rw [nestingMembers, nestingMembers, nestingMembers, Nat.max_zero, Nat.max_le]
  constructor
  · rintro ⟨⟨hv₁, hok₁⟩, ⟨hv₂, hok₂⟩, -⟩
    exact ⟨⟨hv₁, hv₂⟩, hok₁, hok₂⟩
  · rintro ⟨⟨hv₁, hv₂⟩, hok₁, hok₂⟩
    exact ⟨⟨hv₁, hok₁⟩, ⟨hv₂, hok₂⟩, trivial⟩

theorem Reads.three (hne : name₁ ≠ name₂) (hne' : name₁ ≠ name₃) (hne'' : name₂ ≠ name₃)
    (h₁ : ∀ inner, room = inner + 1 → reader₁.Reads inner v₁ ok₁ a₁)
    (h₂ : ∀ inner, room = inner + 1 → reader₂.Reads inner v₂ ok₂ a₂)
    (h₃ : ∀ inner, room = inner + 1 → reader₃.Reads inner v₃ ok₃ a₃) :
    (three name₁ reader₁ name₂ reader₂ name₃ reader₃).Reads room
      (.object [(name₁, v₁), (name₂, v₂), (name₃, v₃)]) (ok₁ ∧ ok₂ ∧ ok₃) (a₁, a₂, a₃) := by
  refine Reads.complete (Reads.map (a := (some a₁, some a₂, some a₃))
    (reads_fields fun inner hinner => ?_) _) rfl
  have hfirst := (h₁ inner hinner).map fun a => (some a, (none : Option β), (none : Option γ))
  have hsecond := (h₂ inner hinner).map fun b => (some a₁, some b, (none : Option γ))
  have hthird := (h₃ inner hinner).map fun c => (some a₁, some a₂, some c)
  refine ⟨_, .cons (scans_scanField (find?_first rfl) rfl hfirst)
    (.cons (scans_scanField (find?_second hne rfl) rfl hsecond)
      (.cons (scans_scanField (find?_third hne' hne'' rfl) rfl hthird) (.nil _))), ?_⟩
  rw [nestingMembers, nestingMembers, nestingMembers, nestingMembers, Nat.max_zero, Nat.max_le,
    Nat.max_le]
  constructor
  · rintro ⟨⟨hv₁, hok₁⟩, ⟨hv₂, hok₂⟩, ⟨hv₃, hok₃⟩, -⟩
    exact ⟨⟨hv₁, hv₂, hv₃⟩, hok₁, hok₂, hok₃⟩
  · rintro ⟨⟨hv₁, hv₂, hv₃⟩, hok₁, hok₂, hok₃⟩
    exact ⟨⟨hv₁, hok₁⟩, ⟨hv₂, hok₂⟩, ⟨hv₃, hok₃⟩, trivial⟩

/-! ### Alternatives -/

-- Behind its opening bracket an alternative is a tag, a colon, and the value.
theorem tagged_open (variants : List (String × Variant α)) (room : Nat) (cs : List Char) :
    tagged variants (room + 1) ('\x7b' :: cs) =
      match string room cs with
      | .error fault => .error fault
      | .ok (tag, rest) =>
        match variants.lookup tag with
        | none => .error .malformed
        | some variant =>
          match afterColon (variant.reader room) rest with
          | .error fault => .error fault
          | .ok (a, rest) => endTagged a rest := rfl

theorem tagged_holding {variants : List (String × Variant α)} {tag : String}
    (hlookup : variants.lookup tag = some (.holding reader)) (room : Nat) {rest : List Char}
    (hr : Apart rest) : tagged variants (room + 1) ('\x7b' :: (quoted tag ++ rest)) =
      match afterColon (reader room) rest with
      | .error fault => .error fault
      | .ok (a, rest) => endTagged a rest := by
  have htag : string room (quoted tag ++ rest) = .ok (tag, rest) :=
    (reads_string room tag).scans.read ⟨Nat.zero_le _, trivial⟩ hr
  rw [tagged_open, htag]
  simp only [hlookup]
  rfl

theorem Reads.tagged {variants : List (String × Variant α)} {tag : String}
    (hlookup : variants.lookup tag = some (.holding reader))
    (h : ∀ inner, room = inner + 1 → reader.Reads inner v ok a) :
    (tagged variants).Reads room (.object [(tag, v)]) ok a where
  starts := starts_object _
  scans := by
    have hnesting : (Json.object [(tag, v)]).nesting = v.nesting + 1 := by
      rw [nesting, nestingMembers, nestingMembers, Nat.max_zero]
    have hprint : (Json.object [(tag, v)]).print =
        '\x7b' :: (quoted tag ++ (':' :: (v.print ++ ['\x7d']))) := by
      have hone : (Json.object [(tag, v)]).print =
          '\x7b' :: ((quoted tag ++ ':' :: v.print) ++ ['\x7d']) := rfl
      rw [hone, List.append_assoc, List.cons_append]
    rw [hnesting, hprint]
    cases room with
    | zero =>
        refine scans_zero (fun rest => rfl) fun hok => ?_
        have hle := hok.1
        omega
    | succ inner =>
        have hreads := h inner rfl
        have hcolon : ∀ cs, afterColon (reader inner) (':' :: cs) = reader inner cs := fun _ => rfl
        rw [Nat.add_le_add_iff_right]
        refine ⟨fun rest _ => ?_, fun hok part hcut => Or.inl ?_⟩
        · rw [List.cons_append, List.append_assoc, List.cons_append, List.append_assoc,
            List.singleton_append, tagged_holding hlookup inner (apart_cons _ (by decide)), hcolon]
          rcases hreads.scans.whole ('\x7d' :: rest) (apart_curly rest) with
            ⟨hok, hscan⟩ | ⟨hnot, hscan⟩
          · rw [hscan]
            exact Or.inl ⟨hok, rfl⟩
          · rw [hscan]
            exact Or.inr ⟨hnot, rfl⟩
        · rcases cut_cons hcut with rfl | ⟨more, rfl, hmore⟩
          · rfl
          · rcases cut_append hmore with hin | ⟨after, rfl, hafter⟩
            · have hout := ((reads_string inner tag).scans.cut ⟨Nat.zero_le _, trivial⟩ more
                hin).incomplete rfl
              rw [tagged_open, hout]
            · have hapart : Apart after := by
                rcases cut_cons hafter with rfl | ⟨left, rfl, -⟩
                · exact apart_nil
                · exact apart_cons _ (by decide)
              rw [tagged_holding hlookup inner hapart]
              rcases cut_cons hafter with rfl | ⟨left, rfl, hleft⟩
              · rfl
              · rw [hcolon]
                rcases cut_append hleft with hin | ⟨last, rfl, hlast⟩
                · rcases hreads.scans.cut hok left hin with hout | ⟨-, b, hout⟩
                  · rw [hout]
                  · rw [hout]
                    rfl
                · rw [cut_singleton hlast, hreads.scans.read hok apart_nil]
                  rfl

theorem tagged_string (variants : List (String × Variant α)) (room : Nat) (cs : List Char) :
    tagged variants room ('"' :: cs) =
      match scanString cs with
      | .error fault => .error fault
      | .ok (tag, rest) =>
        match variants.lookup tag with
        | some (.bare a) => .ok (a, rest)
        | _ => .error .malformed := by
  cases room <;> rfl

theorem reads_bare {variants : List (String × Variant α)} {tag : String}
    (hlookup : variants.lookup tag = some (.bare a)) (room : Nat) :
    (tagged variants).Reads room (.string tag) True a where
  starts := starts_string tag
  scans := by
    refine ⟨fun rest _ => Or.inl ⟨⟨Nat.zero_le _, trivial⟩, ?_⟩, fun _ part hcut => Or.inl ?_⟩
    · rw [print, quoted_append, tagged_string, scanString_quoted]
      simp only [hlookup]
    · rcases cut_cons hcut with rfl | ⟨more, rfl, hmore⟩
      · cases room <;> rfl
      · rw [tagged_string, scanString_cut hmore]

end Reader

end Json

end NestedColumns
