import NestedColumns.Json.Reader
import NestedColumns.Proofs.Json.Words

/-!
# Reading printed arrays and objects

A value that was printed is read back by a reader for it if the brackets it opens at once
are as many as the reader may open, and if its numbers are below the bounds of the reader.
If it is not read back it is malformed, and never looks like one that the text cuts off.

A value that is read back and then cut off is found to be incomplete. Only what is left of
a number may look like a value, and then nothing follows it, so whatever it is a part of is
incomplete.

All of this is true of arrays and objects if it is true of what is in them.

## Main definitions

* `Json.nesting`: How many brackets the text of a value opens at once.
* `Json.RunsOut`: What reading a text that is cut off may come to.
* `Json.Scans`: A text is read up to its end, or malformed.
* `Json.Members`: The members of an object are read one after another.

## Theorems

* `Json.scanItems_spec`, `Json.scanItems_cut`: The items of an array.
* `Json.scanMembers_spec`, `Json.scanMembers_cut`: The members of an object.
-/

namespace NestedColumns

namespace Json

mutual

/-- How many brackets the text of a value opens at once. -/
def nesting : Json → Nat
  | .array items => nestingItems items + 1
  | .object members => nestingMembers members + 1
  | _ => 0

/-- How many brackets the items of an array open at once. -/
def nestingItems : List Json → Nat
  | [] => 0
  | item :: rest => max (nesting item) (nestingItems rest)

/-- How many brackets the members of an object open at once. -/
def nestingMembers : List (String × Json) → Nat
  | [] => 0
  | (_, value) :: rest => max (nesting value) (nestingMembers rest)

end

theorem nestingItems_le {items : List Json} {room : Nat} :
    nestingItems items ≤ room ↔ ∀ v ∈ items, nesting v ≤ room := by
  induction items with
  | nil => simp only [nestingItems, Nat.zero_le, List.not_mem_nil, false_implies, implies_true]
  | cons item rest ih => rw [nestingItems, Nat.max_le, ih, List.forall_mem_cons]

theorem printItems_eq (items : List Json) : printItems items = items.map print := by
  induction items with
  | nil => rfl
  | cons item rest ih => rw [printItems, ih, List.map_cons]

/-- The text of a value, which is preceded by a comma. -/
def commaBefore (text : List Char) : List Char := ',' :: text

theorem commaSeparated_cons (text : List Char) (rest : List (List Char)) :
    commaSeparated (text :: rest) = text ++ rest.flatMap commaBefore := by
  induction rest generalizing text with
  | nil => rw [commaSeparated, List.flatMap_nil, List.append_nil]
  | cons next rest ih =>
      rw [commaSeparated, ih, List.flatMap_cons, commaBefore, List.cons_append]
      intro h
      cases h

theorem length_le_commaSeparated {texts : List (List Char)} (h : ∀ text ∈ texts, text ≠ []) :
    texts.length ≤ (commaSeparated texts).length := by
  have hrest : ∀ rest : List (List Char), rest.length ≤ (rest.flatMap commaBefore).length := by
    intro rest
    induction rest with
    | nil => exact Nat.le_refl _
    | cons text rest ih =>
        rw [List.flatMap_cons, commaBefore, List.length_cons, List.length_append, List.length_cons]
        omega
  cases texts with
  | nil => exact Nat.le_refl _
  | cons text rest =>
      have hpos := List.length_pos_iff.mpr (h text List.mem_cons_self)
      have hmore := hrest rest
      rw [commaSeparated_cons, List.length_cons, List.length_append]
      omega

/-! ### Parts of a text -/

/-- A text starts with a character that is no blank and closes no array. -/
def Starts (text : List Char) : Prop :=
  ∃ c rest, text = c :: rest ∧ isBlank c = false ∧ c ≠ ']'

/-- What reading a part of a text may come to: it is incomplete, unless the text does not
    show where it ends. -/
def RunsOut {α : Type} (text : List Char) (result : Scan α) : Prop :=
  result = .error .incomplete ∨
    text.head?.all Reader.isDelimited = false ∧ ∃ a, result = .ok (a, [])

/-- A text is read up to its end if `ok` holds, and is malformed if it does not. If it is
    read, a part of it runs out. -/
structure Scans {α : Type} (scan : List Char → Scan α) (text : List Char) (ok : Prop) (a : α) :
    Prop where
  whole : ∀ rest, Apart rest → ok ∧ scan (text ++ rest) = .ok (a, rest) ∨
    ¬ ok ∧ scan (text ++ rest) = .error .malformed
  cut : ok → ∀ part, Cut part text → RunsOut text (scan part)

variable {α β σ : Type} {text : List Char}

theorem skipBlanks_cons {c : Char} (h : isBlank c = false) (rest : List Char) :
    skipBlanks (c :: rest) = c :: rest := by
  rw [skipBlanks, h, if_neg Bool.false_ne_true]

theorem Starts.ne_nil (h : Starts text) : text ≠ [] := by
  rcases h with ⟨c, rest, rfl, -⟩
  exact List.cons_ne_nil _ _

theorem Starts.nextItem_first (h : Starts text) (rest : List Char) :
    nextItem true (text ++ rest) = .ok (.more (text ++ rest)) := by
  rcases h with ⟨c, tail, rfl, hblank, hne⟩
  rw [nextItem, List.cons_append, skipBlanks_cons hblank]
  simp only [if_true]

theorem nextItem_comma (text : List Char) : nextItem false (',' :: text) =
    match skipBlanks text with
    | [] => .error .incomplete
    | ']' :: _ => .error .malformed
    | rest => .ok (.more rest) :=
  rfl

theorem Starts.nextItem_next (h : Starts text) (rest : List Char) :
    nextItem false (',' :: (text ++ rest)) = .ok (.more (text ++ rest)) := by
  rcases h with ⟨c, tail, rfl, hblank, hne⟩
  rw [nextItem_comma, List.cons_append, skipBlanks_cons hblank]
  split
  · next heq => cases heq
  · next heq => exact absurd (List.cons.inj heq).1 hne
  · rfl

theorem apart_comma (rest : List Char) : Apart (',' :: rest) :=
  apart_cons rest (by decide)

theorem apart_square (rest : List Char) : Apart (']' :: rest) :=
  apart_cons rest (by decide)

theorem apart_curly (rest : List Char) : Apart ('\x7d' :: rest) :=
  apart_cons rest (by decide)

theorem RunsOut.map {text : List Char} {result : Scan α} (h : RunsOut text result) (f : α → β) :
    RunsOut text (result.map fun (a, rest) => (f a, rest)) := by
  rcases h with hout | ⟨hhead, a, hout⟩
  · rw [hout]
    exact Or.inl rfl
  · rw [hout]
    exact Or.inr ⟨hhead, f a, rfl⟩

-- A text that shows where it ends is never taken for a shorter one.
theorem RunsOut.incomplete {text : List Char} {result : Scan α} (h : RunsOut text result)
    (hhead : text.head?.all Reader.isDelimited = true) : result = .error .incomplete := by
  rcases h with hout | ⟨hnot, -⟩
  · exact hout
  · rw [hhead] at hnot
    cases hnot

-- The start of a text that is apart is so too.
theorem Apart.cut {part rest : List Char} (h : Apart rest) (hcut : Cut part rest) :
    Apart part := by
  cases rest with
  | nil => exact absurd hcut not_cut_nil
  | cons c rest =>
      rcases cut_cons hcut with rfl | ⟨more, rfl, -⟩
      · exact apart_nil
      · exact apart_cons _ (h c rfl)

theorem Starts.cut {part : List Char} (h : Starts text) (hcut : Cut part text) :
    part = [] ∨ Starts part := by
  rcases h with ⟨c, rest, rfl, hc⟩
  rcases cut_cons hcut with hnil | ⟨more, hmore, -⟩
  · exact Or.inl hnil
  · exact Or.inr ⟨c, more, hmore, hc⟩

-- A text that is read is read whatever follows.
theorem Scans.read {scan : List Char → Scan α} {ok : Prop} {a : α} (h : Scans scan text ok a)
    (hok : ok) {rest : List Char} (hr : Apart rest) : scan (text ++ rest) = .ok (a, rest) := by
  rcases h.whole rest hr with ⟨-, hscan⟩ | ⟨hnot, -⟩
  · exact hscan
  · exact absurd hok hnot

/-! ### Items of an array -/

section

variable {item : List Char → Scan α} {items : List β} {texts : β → List Char} {ok : β → Prop}
  {value : β → α}

theorem apart_items (items : List β) (texts : β → List Char) (rest : List Char) :
    Apart ((items.flatMap fun b => commaBefore (texts b)) ++ ']' :: rest) := by
  cases items with
  | nil => exact apart_square rest
  | cons b items => exact apart_comma _

-- The induction is on the items that are left, each with a comma before it.
theorem scanItems_rest (hstarts : ∀ b ∈ items, Starts (texts b))
    (hitems : ∀ b ∈ items, Scans item (texts b) (ok b) (value b)) {fuel : Nat}
    (hfuel : items.length < fuel) (read : List α) (rest : List Char) :
    (∀ b ∈ items, ok b) ∧
        scanItems item fuel false read
          ((items.flatMap fun b => commaBefore (texts b)) ++ ']' :: rest) =
            .ok (read.reverse ++ items.map value, rest) ∨
      ¬ (∀ b ∈ items, ok b) ∧
        scanItems item fuel false read
          ((items.flatMap fun b => commaBefore (texts b)) ++ ']' :: rest) = .error .malformed := by
  induction items generalizing fuel read with
  | nil =>
      cases fuel with
      | zero => exact absurd hfuel (Nat.lt_irrefl _)
      | succ fuel =>
          refine Or.inl ⟨fun _ hb => absurd hb List.not_mem_nil, ?_⟩
          rw [List.map_nil, List.append_nil]
          rfl
  | cons b items ih =>
      cases fuel with
      | zero => exact absurd hfuel (Nat.not_lt_zero _)
      | succ fuel =>
          rw [List.length_cons, Nat.add_lt_add_iff_right] at hfuel
          have hnext := (hstarts b List.mem_cons_self).nextItem_next
            ((items.flatMap fun b => commaBefore (texts b)) ++ ']' :: rest)
          rw [List.flatMap_cons, commaBefore, List.cons_append, List.cons_append, List.append_assoc,
            scanItems, hnext, List.forall_mem_cons]
          rcases (hitems b List.mem_cons_self).whole _ (apart_items items texts rest) with
            ⟨hok, hscan⟩ | ⟨hnot, hscan⟩
          · simp only [hscan]
            rcases ih (fun b hb => hstarts b (List.mem_cons_of_mem _ hb))
              (fun b hb => hitems b (List.mem_cons_of_mem _ hb)) hfuel (value b :: read) with
              ⟨hall, hrest⟩ | ⟨hnot, hrest⟩
            · refine Or.inl ⟨⟨hok, hall⟩, ?_⟩
              rw [hrest, List.reverse_cons, List.append_assoc, List.singleton_append,
                List.map_cons]
            · exact Or.inr ⟨fun h => hnot h.2, hrest⟩
          · simp only [hscan]
            exact Or.inr ⟨fun h => hnot h.1, trivial⟩

theorem scanItems_spec (hstarts : ∀ b ∈ items, Starts (texts b))
    (hitems : ∀ b ∈ items, Scans item (texts b) (ok b) (value b)) {fuel : Nat}
    (hfuel : items.length < fuel) (rest : List Char) :
    (∀ b ∈ items, ok b) ∧
        scanItems item fuel true [] (commaSeparated (items.map texts) ++ ']' :: rest) =
            .ok (items.map value, rest) ∨
      ¬ (∀ b ∈ items, ok b) ∧
        scanItems item fuel true [] (commaSeparated (items.map texts) ++ ']' :: rest) =
          .error .malformed := by
  cases fuel with
  | zero => exact absurd hfuel (Nat.not_lt_zero _)
  | succ fuel =>
      cases items with
      | nil => exact Or.inl ⟨fun _ hb => absurd hb List.not_mem_nil, rfl⟩
      | cons b items =>
          rw [List.length_cons, Nat.add_lt_add_iff_right] at hfuel
          have hfirst := (hstarts b List.mem_cons_self).nextItem_first
            ((items.flatMap fun b => commaBefore (texts b)) ++ ']' :: rest)
          rw [List.map_cons, commaSeparated_cons, List.flatMap_map, List.append_assoc, scanItems,
            hfirst, List.forall_mem_cons]
          rcases (hitems b List.mem_cons_self).whole _ (apart_items items texts rest) with
            ⟨hok, hscan⟩ | ⟨hnot, hscan⟩
          · simp only [hscan]
            rcases scanItems_rest (fun b hb => hstarts b (List.mem_cons_of_mem _ hb))
              (fun b hb => hitems b (List.mem_cons_of_mem _ hb)) hfuel [value b] rest with
              ⟨hall, hrest⟩ | ⟨hnot, hrest⟩
            · exact Or.inl ⟨⟨hok, hall⟩, hrest⟩
            · exact Or.inr ⟨fun h => hnot h.2, hrest⟩
          · simp only [hscan]
            exact Or.inr ⟨fun h => hnot h.1, trivial⟩

-- Behind the part of an item that is left nothing is.
theorem scanItems_runsOut {fuel : Nat} {first : Bool} {read : List α} {part text : List Char}
    (hnext : nextItem first part = .ok (.more text)) {whole : List Char}
    (h : RunsOut whole (item text)) (hfuel : 1 < fuel) :
    scanItems item fuel first read part = .error .incomplete := by
  rcases Nat.exists_eq_add_of_lt hfuel with ⟨more, rfl⟩
  rw [scanItems, hnext]
  rcases h with hout | ⟨-, a, hout⟩
  · simp only [hout]
  · simp only [hout]
    rw [Nat.add_comm, scanItems]
    rfl

theorem scanItems_rest_cut (hstarts : ∀ b ∈ items, Starts (texts b))
    (hitems : ∀ b ∈ items, Scans item (texts b) (ok b) (value b)) (hok : ∀ b ∈ items, ok b)
    {part : List Char} (hcut : Cut part ((items.flatMap fun b => commaBefore (texts b)) ++ [']']))
    {fuel : Nat} (hfuel : part.length < fuel) (read : List α) :
    scanItems item fuel false read part = .error .incomplete := by
  induction items generalizing part fuel read with
  | nil =>
      rcases Nat.exists_eq_add_of_lt hfuel with ⟨more, rfl⟩
      rw [cut_singleton hcut]
      rfl
  | cons b items ih =>
      rcases Nat.exists_eq_add_of_lt hfuel with ⟨more, rfl⟩
      have hb := hitems b List.mem_cons_self
      rw [List.flatMap_cons, commaBefore, List.cons_append, List.cons_append,
        List.append_assoc] at hcut
      rcases cut_cons hcut with rfl | ⟨left, rfl, hleft⟩
      · rfl
      · rcases cut_append hleft with hin | ⟨after, rfl, hafter⟩
        · rcases (hstarts b List.mem_cons_self).cut hin with rfl | hstart
          · rfl
          · have hnext := hstart.nextItem_next []
            rw [List.append_nil] at hnext
            refine scanItems_runsOut hnext (hb.cut (hok b List.mem_cons_self) left hin) ?_
            rw [List.length_cons]
            omega
        · have hnext := (hstarts b List.mem_cons_self).nextItem_next after
          have hread := hb.read (hok b List.mem_cons_self)
            ((apart_items items texts []).cut hafter)
          rw [scanItems, hnext]
          simp only [hread]
          refine ih (fun b hb => hstarts b (List.mem_cons_of_mem _ hb))
            (fun b hb => hitems b (List.mem_cons_of_mem _ hb))
            (fun b hb => hok b (List.mem_cons_of_mem _ hb)) hafter ?_ _
          rw [List.length_cons, List.length_append]
          omega

theorem scanItems_cut (hstarts : ∀ b ∈ items, Starts (texts b))
    (hitems : ∀ b ∈ items, Scans item (texts b) (ok b) (value b)) (hok : ∀ b ∈ items, ok b)
    {part : List Char} (hcut : Cut part (commaSeparated (items.map texts) ++ [']'])) {fuel : Nat}
    (hfuel : part.length < fuel) : scanItems item fuel true [] part = .error .incomplete := by
  cases items with
  | nil =>
      rcases Nat.exists_eq_add_of_lt hfuel with ⟨more, rfl⟩
      rw [cut_singleton hcut]
      rfl
  | cons b items =>
      rcases Nat.exists_eq_add_of_lt hfuel with ⟨more, rfl⟩
      have hb := hitems b List.mem_cons_self
      rw [List.map_cons, commaSeparated_cons, List.flatMap_map, List.append_assoc] at hcut
      rcases cut_append hcut with hin | ⟨after, rfl, hafter⟩
      · rcases (hstarts b List.mem_cons_self).cut hin with rfl | hstart
        · rfl
        · have hnext := hstart.nextItem_first []
          have hpos := List.length_pos_iff.mpr hstart.ne_nil
          rw [List.append_nil] at hnext
          exact scanItems_runsOut hnext (hb.cut (hok b List.mem_cons_self) part hin) (by omega)
      · have hnext := (hstarts b List.mem_cons_self).nextItem_first after
        have hpos := List.length_pos_iff.mpr (hstarts b List.mem_cons_self).ne_nil
        have hread := hb.read (hok b List.mem_cons_self) ((apart_items items texts []).cut hafter)
        rw [scanItems, hnext]
        simp only [hread]
        refine scanItems_rest_cut (fun b hb => hstarts b (List.mem_cons_of_mem _ hb))
          (fun b hb => hitems b (List.mem_cons_of_mem _ hb))
          (fun b hb => hok b (List.mem_cons_of_mem _ hb)) hafter ?_ _
        rw [List.length_append]
        omega

end

/-! ### Members of an object -/

/-- The text of a member. -/
def memberText (m : String × List Char) : List Char :=
  quoted m.1 ++ ':' :: m.2

theorem printMembers_eq (members : List (String × Json)) :
    printMembers members = members.map fun m => memberText (m.1, m.2.print) := by
  induction members with
  | nil => rfl
  | cons m rest ih =>
      rcases m with ⟨name, value⟩
      rw [printMembers, ih, List.map_cons, memberText]

/-- Members are taken in one after another, and lead from a state to another one if `ok`
    holds. -/
inductive Members (member : σ → String → List Char → Scan σ) :
    σ → List (String × List Char) → Prop → σ → Prop where
  | nil (state : σ) : Members member state [] True state
  | cons {state middle last : σ} {name : String} {text : List Char}
      {members : List (String × List Char)} {ok oks : Prop}
      (first : Scans (member state name) (':' :: text) ok middle)
      (rest : Members member middle members oks last) :
      Members member state ((name, text) :: members) (ok ∧ oks) last

theorem nextName_first (name : String) (rest : List Char) :
    nextName true (quoted name ++ rest) = .ok (.more (name, rest)) := by
  have hstep : nextName true ('"' :: (name.toList.flatMap escaped ++ '"' :: rest)) =
      (scanString (name.toList.flatMap escaped ++ '"' :: rest)).map .more := rfl
  rw [quoted_append, hstep, scanString_quoted]
  rfl

theorem nextName_next (name : String) (rest : List Char) :
    nextName false (',' :: (quoted name ++ rest)) = .ok (.more (name, rest)) := by
  have hstep : nextName false (',' :: '"' :: (name.toList.flatMap escaped ++ '"' :: rest)) =
      (scanString (name.toList.flatMap escaped ++ '"' :: rest)).map .more := rfl
  rw [quoted_append, hstep, scanString_quoted]
  rfl

theorem nextName_cut {name : String} {part : List Char} (h : Cut part (quoted name)) :
    nextName true part = .error .incomplete ∧
      nextName false (',' :: part) = .error .incomplete := by
  rcases cut_cons h with rfl | ⟨more, rfl, hmore⟩
  · exact ⟨rfl, rfl⟩
  · have hstep : ∀ first cs, nextName first cs = (scanString more).map .more →
        nextName first cs = .error .incomplete := by
      intro first cs hnext
      rw [hnext, scanString_cut hmore]
      rfl
    exact ⟨hstep _ _ rfl, hstep _ _ rfl⟩

section

variable {member : σ → String → List Char → Scan σ} {state last : σ}
  {members : List (String × List Char)} {ok : Prop}

theorem apart_members (members : List (String × List Char)) (rest : List Char) :
    Apart ((members.flatMap fun m => commaBefore (memberText m)) ++ '\x7d' :: rest) := by
  cases members with
  | nil => exact apart_curly rest
  | cons m members => exact apart_comma _

theorem scanMembers_rest (h : Members member state members ok last) {fuel : Nat}
    (hfuel : members.length < fuel) (rest : List Char) :
    ok ∧ scanMembers member fuel false state
          ((members.flatMap fun m => commaBefore (memberText m)) ++ '\x7d' :: rest) =
            .ok (last, rest) ∨
      ¬ ok ∧ scanMembers member fuel false state
          ((members.flatMap fun m => commaBefore (memberText m)) ++ '\x7d' :: rest) =
            .error .malformed := by
  induction h generalizing fuel with
  | nil state =>
      cases fuel with
      | zero => exact absurd hfuel (Nat.lt_irrefl _)
      | succ fuel => exact Or.inl ⟨trivial, rfl⟩
  | @cons state middle last name text members ok oks first _ ih =>
      cases fuel with
      | zero => exact absurd hfuel (Nat.not_lt_zero _)
      | succ fuel =>
          rw [List.length_cons, Nat.add_lt_add_iff_right] at hfuel
          rw [List.flatMap_cons, commaBefore, List.cons_append, List.cons_append, List.append_assoc,
            memberText, List.append_assoc, scanMembers, nextName_next]
          rcases first.whole _ (apart_members members rest) with ⟨hok, hscan⟩ | ⟨hnot, hscan⟩
          · simp only [hscan]
            rcases ih hfuel with ⟨hall, hrest⟩ | ⟨hnot, hrest⟩
            · exact Or.inl ⟨⟨hok, hall⟩, hrest⟩
            · exact Or.inr ⟨fun h => hnot h.2, hrest⟩
          · simp only [hscan]
            exact Or.inr ⟨fun h => hnot h.1, trivial⟩

theorem scanMembers_spec (h : Members member state members ok last) {fuel : Nat}
    (hfuel : members.length < fuel) (rest : List Char) :
    ok ∧ scanMembers member fuel true state
          (commaSeparated (members.map memberText) ++ '\x7d' :: rest) = .ok (last, rest) ∨
      ¬ ok ∧ scanMembers member fuel true state
          (commaSeparated (members.map memberText) ++ '\x7d' :: rest) = .error .malformed := by
  cases fuel with
  | zero => exact absurd hfuel (Nat.not_lt_zero _)
  | succ fuel =>
      cases h with
      | nil => exact Or.inl ⟨trivial, rfl⟩
      | @cons _ middle _ name text members ok oks first others =>
          rw [List.length_cons, Nat.add_lt_add_iff_right] at hfuel
          rw [List.map_cons, commaSeparated_cons, List.flatMap_map, List.append_assoc, memberText,
            List.append_assoc, scanMembers, nextName_first]
          rcases first.whole _ (apart_members members rest) with ⟨hok, hscan⟩ | ⟨hnot, hscan⟩
          · simp only [hscan]
            rcases scanMembers_rest others hfuel rest with ⟨hall, hrest⟩ | ⟨hnot, hrest⟩
            · exact Or.inl ⟨⟨hok, hall⟩, hrest⟩
            · exact Or.inr ⟨fun h => hnot h.2, hrest⟩
          · simp only [hscan]
            exact Or.inr ⟨fun h => hnot h.1, trivial⟩

-- Behind the part of a member that is left nothing is.
theorem scanMembers_runsOut {fuel : Nat} {first : Bool} {name : String} {part text : List Char}
    (hnext : nextName first part = .ok (.more (name, text))) {whole : List Char}
    (h : RunsOut whole (member state name text)) (hfuel : 1 < fuel) :
    scanMembers member fuel first state part = .error .incomplete := by
  rcases Nat.exists_eq_add_of_lt hfuel with ⟨more, rfl⟩
  rw [scanMembers, hnext]
  rcases h with hout | ⟨-, a, hout⟩
  · simp only [hout]
  · simp only [hout]
    rw [Nat.add_comm, scanMembers]
    rfl

theorem scanMembers_rest_cut (h : Members member state members ok last) (hok : ok)
    {part : List Char}
    (hcut : Cut part ((members.flatMap fun m => commaBefore (memberText m)) ++ ['\x7d']))
    {fuel : Nat} (hfuel : part.length < fuel) :
    scanMembers member fuel false state part = .error .incomplete := by
  induction h generalizing part fuel with
  | nil state =>
      rcases Nat.exists_eq_add_of_lt hfuel with ⟨more, rfl⟩
      rw [cut_singleton hcut]
      rfl
  | @cons state middle last name text members ok oks first _ ih =>
      rcases Nat.exists_eq_add_of_lt hfuel with ⟨more, rfl⟩
      rw [List.flatMap_cons, commaBefore, List.cons_append, List.cons_append, memberText,
        List.append_assoc, List.append_assoc] at hcut
      dsimp only at hcut
      rcases cut_cons hcut with rfl | ⟨left, rfl, hleft⟩
      · rfl
      · rcases cut_append hleft with hin | ⟨after, rfl, hafter⟩
        · rw [scanMembers, (nextName_cut hin).2]
        · have hlength : (',' :: (quoted name ++ after)).length =
              (quoted name).length + after.length + 1 := by
            rw [List.length_cons, List.length_append]
          have hquoted : 0 < (quoted name).length := Nat.succ_pos _
          have hnext := nextName_next name after
          rcases cut_append hafter with hin | ⟨behind, rfl, hbehind⟩
          · exact scanMembers_runsOut hnext (first.cut hok.1 after hin) (by omega)
          · have hread := first.read hok.1 ((apart_members members []).cut hbehind)
            rw [scanMembers, hnext]
            simp only [hread]
            refine ih hok.2 hbehind ?_
            rw [List.length_append] at hlength
            omega

theorem scanMembers_cut (h : Members member state members ok last) (hok : ok) {part : List Char}
    (hcut : Cut part (commaSeparated (members.map memberText) ++ ['\x7d'])) {fuel : Nat}
    (hfuel : part.length < fuel) :
    scanMembers member fuel true state part = .error .incomplete := by
  rcases Nat.exists_eq_add_of_lt hfuel with ⟨more, rfl⟩
  cases h with
  | nil =>
      rw [cut_singleton hcut]
      rfl
  | @cons _ middle _ name text members ok oks first others =>
      rw [List.map_cons, commaSeparated_cons, List.flatMap_map, memberText, List.append_assoc,
        List.append_assoc] at hcut
      dsimp only at hcut
      have hquoted : 0 < (quoted name).length := Nat.succ_pos _
      rcases cut_append hcut with hin | ⟨after, rfl, hafter⟩
      · rw [scanMembers, (nextName_cut hin).1]
      · have hnext := nextName_first name after
        rcases cut_append hafter with hin | ⟨behind, rfl, hbehind⟩
        · refine scanMembers_runsOut hnext (first.cut hok.1 after hin) ?_
          rw [List.length_append]
          omega
        · have hread := first.read hok.1 ((apart_members members []).cut hbehind)
          rw [scanMembers, hnext]
          simp only [hread]
          refine scanMembers_rest_cut others hok.2 hbehind ?_
          rw [List.length_append, List.length_append]
          omega

end

end Json

end NestedColumns
