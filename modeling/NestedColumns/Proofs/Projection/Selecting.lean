import NestedColumns.Projection.Resolve
import NestedColumns.Proofs.Schema.Ways
import Mathlib.Data.List.Sort
import Mathlib.Data.List.Induction
import Mathlib.Data.List.InsertIdx

/-!
# What a selection asks for

A selection is built by one path after another, and a field gets its entry when it is first
asked for. What comes of it in the end can be said without the order: a field is kept if it
is at or below the end of some path, or on the way to it. Only the fields of the document
itself remember who came first.

One step of the construction changes the entry of one place. So the selection of some paths
is a list of places, each with an entry that depends only on what the paths ask for below
that place, and this repeats one object further down.

## Main definitions

* `Projection.insertAll`: What several paths of places ask for.
* `Projection.below`: What they ask for below one place.
* `Projection.mentions`: The places that have entries, in order.
* `Projection.keeps`: Whether a field is asked for, or on the way to one that is.
* `Schema.Node.keepOnly`: A shape with the fields that are kept.

## Theorems

* `Projection.insertAll_eq`: The selection of some paths, by places.
* `Projection.mentions_false`, `Projection.mentions_true`: The order of places.
* `Projection.pruned_eq`: What is asked for below a place is what is kept.
* `Projection.pruneFields_insertAll`: What is asked for of a document.
-/

namespace NestedColumns

namespace Schema.Node

mutual

/-- The part of a shape with the fields that are kept, by the places on the way to them. -/
def keepOnly (keep : List Nat → Bool) : Node → Node
  | .leaf column type => .leaf column type
  | .object fields => .object (keepFields keep 0 fields)
  | .array element => .array (keepOnly keep element)

/-- The fields that are kept, the first of which has the place `index`. -/
def keepFields (keep : List Nat → Bool) (index : Nat) :
    List (String × Node) → List (String × Node)
  | [] => []
  | (name, node) :: rest =>
    if keep [index] then
      (name, keepOnly (fun places => keep (index :: places)) node) ::
        keepFields keep (index + 1) rest
    else keepFields keep (index + 1) rest

end

/-- If every field is kept, the shape is. -/
theorem keepOnly_true (node : Node) : keepOnly (fun _ => true) node = node := by
  induction node using inductionOn with
  | leaf column type => rfl
  | array element ih => rw [keepOnly, ih]
  | object fields ih =>
      have hfields : ∀ index, keepFields (fun _ => true) index fields = fields := by
        induction fields with
        | nil => intro index; rfl
        | cons f rest ihrest =>
            intro index
            rw [keepFields, if_pos rfl, ih _ List.mem_cons_self,
              ihrest fun f hf => ih f (List.mem_cons_of_mem _ hf)]
      rw [keepOnly, hfields]

end Schema.Node

namespace Projection

open Schema (Node)

/-- What several paths of places ask for. -/
def insertAll (sorted : Bool) (paths : List (List Nat)) : List Selected :=
  paths.foldl (fun list path => insert sorted path list) []

/-- What is asked for below the field at a place. -/
def below (index : Nat) (paths : List (List Nat)) : List (List Nat) :=
  paths.filterMap fun
    | [] => none
    | first :: rest => if first = index then some rest else none

/-- The entry of a place, by what is asked for below it. -/
def entry (index : Nat) (paths : List (List Nat)) : Selected :=
  if [] ∈ paths then .whole index else .part index (insertAll true paths)

/-- An entry when more is asked for below it. -/
def ask (path : List Nat) (entry : Selected) : Selected :=
  if path.isEmpty then .whole entry.index
  else
    match entry with
    | .whole index => .whole index
    | .part index children => .part index (insert true path children)

/-- Places with one more place. -/
def mention (sorted : Bool) (places : List Nat) (index : Nat) : List Nat :=
  if index ∈ places then places
  else places.insertIdx
    (if sorted then (places.takeWhile (· < index)).length else places.length) index

/-- The places that have entries after some places were mentioned. -/
def mentions (sorted : Bool) (places : List Nat) : List Nat :=
  places.foldl (mention sorted) []

/-- The field at the end of some places is at or below the end of a path, or on the way. -/
def keeps (paths : List (List Nat)) (places : List Nat) : Bool :=
  paths.any fun path => path.isPrefixOf places || places.isPrefixOf path

/-! ### Places -/

-- A new place is put among the others or at their end.
theorem position_le (sorted : Bool) (places : List Nat) (index : Nat) :
    (if sorted then (places.takeWhile (· < index)).length else places.length) ≤ places.length := by
  split
  · exact (List.takeWhile_prefix _).length_le
  · exact Nat.le_refl _

theorem mention_perm {places : List Nat} {index : Nat} (sorted : Bool) (h : index ∉ places) :
    (mention sorted places index).Perm (index :: places) := by
  rw [mention, if_neg h]
  exact List.perm_insertIdx _ _ (position_le sorted places index)

theorem mem_mention {sorted : Bool} {places : List Nat} {index i : Nat} :
    i ∈ mention sorted places index ↔ i = index ∨ i ∈ places := by
  by_cases h : index ∈ places
  · rw [mention, if_pos h]
    constructor
    · exact Or.inr
    · rintro (rfl | hi)
      · exact h
      · exact hi
  · rw [(mention_perm sorted h).mem_iff, List.mem_cons]

theorem nodup_mention {places : List Nat} (sorted : Bool) (index : Nat) (h : places.Nodup) :
    (mention sorted places index).Nodup := by
  by_cases hi : index ∈ places
  · rw [mention, if_pos hi]
    exact h
  · rw [(mention_perm sorted hi).nodup_iff, List.nodup_cons]
    exact ⟨hi, h⟩

theorem mentions_concat (sorted : Bool) (places : List Nat) (index : Nat) :
    mentions sorted (places ++ [index]) = mention sorted (mentions sorted places) index := by
  rw [mentions, List.foldl_concat, mentions]

theorem mem_mentions {sorted : Bool} {places : List Nat} {i : Nat} :
    i ∈ mentions sorted places ↔ i ∈ places := by
  induction places using List.reverseRecOn with
  | nil => rfl
  | append_singleton places index ih =>
      rw [mentions_concat, mem_mention, ih, List.mem_append, List.mem_singleton, or_comm]

theorem nodup_mentions (sorted : Bool) (places : List Nat) : (mentions sorted places).Nodup := by
  induction places using List.reverseRecOn with
  | nil => exact List.nodup_nil
  | append_singleton places index ih =>
      rw [mentions_concat]
      exact nodup_mention sorted index ih

/-- The first of each kind, when one more comes. -/
theorem eraseDups_concat {α : Type} [DecidableEq α] (l : List α) (a : α) :
    (l ++ [a]).eraseDups = if a ∈ l then l.eraseDups else l.eraseDups ++ [a] := by
  rw [List.eraseDups_append]
  by_cases h : a ∈ l
  · simp [h, List.removeAll]
  · simp [h, List.removeAll, List.eraseDups_cons]

/-- Without an order of their own, places come as they are first mentioned. -/
theorem mentions_false (places : List Nat) : mentions false places = places.eraseDups := by
  induction places using List.reverseRecOn with
  | nil => rfl
  | append_singleton places index ih =>
      rw [mentions_concat, ih, eraseDups_concat, mention, if_neg Bool.false_ne_true,
        List.insertIdx_length_self]
      simp only [List.mem_eraseDups]

theorem mention_sorted {places : List Nat} {index : Nat} (h : index ∉ places) :
    mention true places index = places.orderedInsert (· ≤ ·) index := by
  rw [mention, if_neg h, if_pos rfl, List.orderedInsert_eq_take_drop]
  simp only [not_le]
  induction places with
  | nil => rfl
  | cons first rest ih =>
      have hrest := ih fun hm => h (List.mem_cons_of_mem _ hm)
      by_cases hlt : first < index
      · simpa [hlt] using hrest
      · simp [hlt]

/-- Sorted places ascend. -/
theorem mentions_true (places : List Nat) : (mentions true places).Pairwise (· < ·) := by
  induction places using List.reverseRecOn with
  | nil => exact .nil
  | append_singleton places index ih =>
      rw [mentions_concat]
      by_cases h : index ∈ mentions true places
      · rw [mention, if_pos h]
        exact ih
      · -- Places that do not repeat ascend as soon as they do not descend.
        have hnodup := nodup_mention true index (nodup_mentions true places)
        have hle : (mention true (mentions true places) index).Pairwise (· ≤ ·) := by
          rw [mention_sorted h]
          exact (ih.imp Nat.le_of_lt).orderedInsert index _
        exact (hle.and hnodup).imp fun hi => Nat.lt_of_le_of_ne hi.1 hi.2

/-! ### Entries -/

theorem index_entry (index : Nat) (paths : List (List Nat)) :
    (entry index paths).index = index := by
  rw [entry]
  split <;> rfl

/-- What is asked for below a place, when one more path is asked for. -/
theorem below_concat (index : Nat) (paths : List (List Nat)) (first : Nat) (rest : List Nat) :
    below index (paths ++ [first :: rest]) =
      below index paths ++ if first = index then [rest] else [] := by
  rw [below, List.filterMap_append, List.filterMap_cons, List.filterMap_nil, below]
  by_cases h : first = index <;> simp [h]

theorem mem_below {index : Nat} {paths : List (List Nat)} {rest : List Nat} :
    rest ∈ below index paths ↔ index :: rest ∈ paths := by
  rw [below, List.mem_filterMap]
  constructor
  · rintro ⟨path, hpath, h⟩
    cases path with
    | nil => simp only [reduceCtorEq] at h
    | cons first more =>
        by_cases hi : first = index
        · simp only [if_pos hi, Option.some.injEq] at h
          exact h ▸ hi ▸ hpath
        · simp only [if_neg hi, reduceCtorEq] at h
  · intro h
    exact ⟨index :: rest, h, if_pos rfl⟩

theorem ask_nil (entry : Selected) : ask [] entry = .whole entry.index := rfl

theorem ask_cons (first : Nat) (rest : List Nat) (entry : Selected) :
    ask (first :: rest) entry =
      match entry with
      | .whole index => .whole index
      | .part index children => .part index (insert true (first :: rest) children) := rfl

/-- An entry when one more path is asked for below it. -/
theorem entry_concat (index : Nat) (paths : List (List Nat)) (path : List Nat) :
    entry index (paths ++ [path]) = ask path (entry index paths) := by
  cases path with
  | nil =>
      rw [ask_nil, index_entry, entry, if_pos]
      exact List.mem_append_right _ List.mem_cons_self
  | cons first rest =>
      rw [ask_cons, entry, entry]
      by_cases h : [] ∈ paths
      · rw [if_pos h, if_pos (List.mem_append_left _ h)]
      · have hnot : [] ∉ paths ++ [first :: rest] := by
          simp only [List.mem_append, List.mem_singleton, reduceCtorEq, or_false]
          exact h
        rw [if_neg h, if_neg hnot]
        simp only [insertAll, List.foldl_concat]

theorem insert_cons (sorted : Bool) (first : Nat) (rest : List Nat) (list : List Selected) :
    insert sorted (first :: rest) list =
      (entryOf sorted first list).2.modify (entryOf sorted first list).1 (ask rest) := rfl

-- Of places that do not repeat, one is changed by changing what stands where it is.
theorem modify_map {places : List Nat} (hd : places.Nodup) {pos index : Nat}
    (hpos : places[pos]? = some index) (e : Nat → Selected) (f : Selected → Selected) :
    (places.map e).modify pos f = places.map fun i => if i = index then f (e i) else e i := by
  refine List.ext_getElem? fun j => ?_
  rw [List.getElem?_modify, List.getElem?_map, List.getElem?_map]
  cases hj : places[j]? with
  | none => rfl
  | some i =>
      have hlt : pos < places.length := (List.getElem?_eq_some_iff.mp hpos).1
      have hiff : pos = j ↔ i = index := by
        constructor
        · rintro rfl
          rw [hpos, Option.some.injEq] at hj
          exact hj.symm
        · rintro rfl
          exact (List.getElem?_inj hlt hd).mp (hpos.trans hj.symm)
      simp only [Option.map_eq_map, Option.map_some, hiff]

-- The entry of a place is where the place is, and a new one has nothing below it yet.
theorem entryOf_map (sorted : Bool) {places : List Nat} {index : Nat} {e : Nat → Selected}
    (he : ∀ i, (e i).index = i) (hnew : index ∉ places → e index = .part index []) :
    (entryOf sorted index (places.map e)).2 = (mention sorted places index).map e ∧
      (mention sorted places index)[(entryOf sorted index (places.map e)).1]? = some index := by
  have hfind : (places.map e).findIdx? (·.index = index) = places.findIdx? (· = index) := by
    rw [List.findIdx?_map]
    refine congrArg (List.findIdx? · places) (funext fun i => ?_)
    simp only [Function.comp_apply, he]
  rw [entryOf, hfind]
  cases hpos : places.findIdx? (· = index) with
  | some pos =>
      rcases List.findIdx?_eq_some_iff_getElem.mp hpos with ⟨hlt, heq, -⟩
      rw [decide_eq_true_eq] at heq
      have hmem : index ∈ places := heq ▸ List.getElem_mem hlt
      rw [mention, if_pos hmem]
      exact ⟨rfl, List.getElem?_eq_some_iff.mpr ⟨hlt, heq⟩⟩
  | none =>
      have hmem : index ∉ places := fun hm => by
        simpa using List.findIdx?_eq_none_iff.mp hpos index hm
      have htake : ((places.map e).takeWhile (·.index < index)).length =
          (places.takeWhile (· < index)).length := by
        rw [List.takeWhile_map, List.length_map]
        refine congrArg (fun p => (List.takeWhile p places).length) (funext fun i => ?_)
        simp only [Function.comp_apply, he]
      simp only [htake, List.length_map]
      rw [mention, if_neg hmem, List.map_insertIdx, hnew hmem]
      exact ⟨rfl, by rw [List.getElem?_insertIdx_self, if_pos (position_le sorted places index)]⟩

/-- The selection of some paths has an entry for each place that they mention, which depends
    only on what they ask for below it. -/
theorem insertAll_eq (sorted : Bool) (paths : List (List Nat)) :
    insertAll sorted paths =
      (mentions sorted (paths.filterMap List.head?)).map fun i => entry i (below i paths) := by
  induction paths using List.reverseRecOn with
  | nil => rfl
  | append_singleton paths path ih =>
      rw [insertAll, List.foldl_concat, ← insertAll, ih]
      cases path with
      | nil =>
          simp only [insert, below, List.filterMap_append, List.filterMap_cons, List.filterMap_nil,
            List.head?_nil, List.append_nil]
      | cons first rest =>
          have hnew : first ∉ mentions sorted (paths.filterMap List.head?) →
              entry first (below first paths) = .part first [] := by
            intro hnot
            have hbelow : below first paths = [] := by
              refine List.eq_nil_iff_forall_not_mem.mpr fun more hm => hnot ?_
              exact mem_mentions.mpr (List.mem_filterMap.mpr ⟨_, mem_below.mp hm, rfl⟩)
            rw [hbelow]
            rfl
          rcases entryOf_map sorted (fun i => index_entry i (below i paths)) hnew with ⟨hlist, hpos⟩
          rw [insert_cons, hlist, modify_map (nodup_mention _ _ (nodup_mentions _ _)) hpos,
            List.filterMap_append, List.filterMap_cons, List.head?_cons, List.filterMap_nil,
            mentions_concat]
          refine List.map_congr_left fun i _ => ?_
          rw [below_concat]
          by_cases hi : i = first
          · rw [if_pos hi, if_pos hi.symm, entry_concat]
          · rw [if_neg hi, if_neg (Ne.symm hi), List.append_nil]

/-! ### Fields -/

theorem pruneFields_eq (fields : List (String × Node)) (list : List Selected) :
    pruneFields fields list = list.filterMap (pruneField fields) := by
  induction list with
  | nil => rfl
  | cons entry rest ih =>
      rw [pruneFields, ih, List.filterMap_cons]
      cases pruneField fields entry <;> rfl

/-- What is asked for of a shape. -/
def pruned (node : Node) (paths : List (List Nat)) : Node :=
  if [] ∈ paths then node
  else mapObject (fun fields => pruneFields fields (insertAll true paths)) node

theorem pruneField_entry (fields : List (String × Node)) (index : Nat) (paths : List (List Nat)) :
    pruneField fields (entry index paths) =
      fields[index]?.map fun f => (f.1, pruned f.2 paths) := by
  rw [entry]
  by_cases h : [] ∈ paths
  · simp only [if_pos h, pruneField, pruned, Prod.mk.eta, Option.map_id']
  · simp only [if_neg h, pruneField, pruned]

/-- The fields that are asked for, by their places. -/
theorem pruneFields_insertAll (sorted : Bool) (fields : List (String × Node))
    (paths : List (List Nat)) :
    pruneFields fields (insertAll sorted paths) =
      (mentions sorted (paths.filterMap List.head?)).filterMap fun i =>
        fields[i]?.map fun f => (f.1, pruned f.2 (below i paths)) := by
  rw [pruneFields_eq, insertAll_eq, List.filterMap_map]
  exact List.filterMap_congr fun i _ => pruneField_entry fields i (below i paths)

theorem keeps_nil {paths : List (List Nat)} (h : [] ∈ paths) (places : List Nat) :
    keeps paths places = true :=
  List.any_eq_true.mpr ⟨[], h, rfl⟩

theorem keeps_cons {paths : List (List Nat)} (h : [] ∉ paths) (index : Nat) (places : List Nat) :
    keeps paths (index :: places) = keeps (below index paths) places := by
  rw [Bool.eq_iff_iff, keeps, keeps, List.any_eq_true, List.any_eq_true]
  constructor
  · rintro ⟨path, hpath, hp⟩
    cases path with
    | nil => exact absurd hpath h
    | cons first rest =>
        have hfirst : first = index := by
          simp only [List.isPrefixOf_cons_cons, Bool.or_eq_true, Bool.and_eq_true, beq_iff_eq] at hp
          rcases hp with hp | hp
          · exact hp.1
          · exact hp.1.symm
        subst hfirst
        refine ⟨rest, mem_below.mpr hpath, ?_⟩
        simpa only [List.isPrefixOf_cons_cons, beq_self_eq_true, Bool.true_and] using hp
  · rintro ⟨rest, hrest, hp⟩
    refine ⟨index :: rest, mem_below.mp hrest, ?_⟩
    simpa only [List.isPrefixOf_cons_cons, beq_self_eq_true, Bool.true_and] using hp

/-- A place is kept by itself if it is mentioned. -/
theorem keeps_singleton {paths : List (List Nat)} (h : [] ∉ paths) (index : Nat) :
    keeps paths [index] = true ↔ index ∈ paths.filterMap List.head? := by
  rw [keeps_cons h, keeps, List.any_eq_true, List.mem_filterMap]
  constructor
  · rintro ⟨rest, hrest, -⟩
    exact ⟨index :: rest, mem_below.mp hrest, rfl⟩
  · rintro ⟨path, hpath, hhead⟩
    rcases List.head?_eq_some_iff.mp hhead with ⟨rest, rfl⟩
    exact ⟨rest, mem_below.mpr hpath, by simp⟩

-- The least of ascending places is the first.
theorem exists_cons_of_least {places : List Nat} {index : Nat} (hp : places.Pairwise (· < ·))
    (hle : ∀ i ∈ places, index ≤ i) (hin : index ∈ places) :
    ∃ others, places = index :: others ∧ others.Pairwise (· < ·) ∧ ∀ i ∈ others, index < i := by
  cases places with
  | nil => exact absurd hin List.not_mem_nil
  | cons first others =>
      rcases List.pairwise_cons.mp hp with ⟨hlt, hothers⟩
      have hfirst : index = first := by
        rcases List.mem_cons.mp hin with h | h
        · exact h
        · have := hlt index h
          have := hle first List.mem_cons_self
          omega
      subst hfirst
      exact ⟨others, rfl, hothers, hlt⟩

-- Places beyond the first field are those of the others.
theorem filterMap_shift {α β : Type} {first : α} {rest : List α} {places : List Nat}
    {index : Nat} (h : ∀ i ∈ places, index < i) (g : Nat → α → β) :
    (places.filterMap fun i => (first :: rest)[i - index]?.map (g i)) =
      places.filterMap fun i => rest[i - (index + 1)]?.map (g i) := by
  refine List.filterMap_congr fun i hi => ?_
  have hi := h i hi
  rw [show i - index = i - (index + 1) + 1 by omega, List.getElem?_cons_succ]

-- Places that ascend take fields in their order.
theorem filterMap_ascending {keep : List Nat → Bool} {fields : List (String × Node)}
    {places : List Nat} {index : Nat} (hp : places.Pairwise (· < ·))
    (hle : ∀ i ∈ places, index ≤ i) (hk : ∀ i, index ≤ i → (i ∈ places ↔ keep [i] = true)) :
    (places.filterMap fun i => fields[i - index]?.map fun f =>
        (f.1, f.2.keepOnly fun places => keep (i :: places))) =
      Node.keepFields keep index fields := by
  induction fields generalizing places index with
  | nil => simp [Node.keepFields]
  | cons f rest ih =>
      rcases f with ⟨name, node⟩
      rw [Node.keepFields]
      by_cases hfirst : keep [index] = true
      · rcases exists_cons_of_least hp hle ((hk index (Nat.le_refl _)).mpr hfirst) with
          ⟨others, rfl, hothers, hlt⟩
        rw [if_pos hfirst, List.filterMap_cons, Nat.sub_self, List.getElem?_cons_zero,
          Option.map_some]
        refine congrArg (List.cons _) ((filterMap_shift hlt _).trans (ih hothers hlt ?_))
        intro i hi
        rw [← hk i (by omega), List.mem_cons]
        exact ⟨Or.inr, fun h => h.resolve_left (by omega)⟩
      · have hlt : ∀ i ∈ places, index < i := by
          intro i hi
          have hne : i ≠ index := fun h => hfirst ((hk index (Nat.le_refl _)).mp (h ▸ hi))
          have := hle i hi
          omega
        rw [if_neg hfirst]
        exact (filterMap_shift hlt _).trans (ih hp hlt fun i hi => hk i (by omega))

/-- What is asked for of a shape is what is kept of it. -/
theorem pruned_eq (node : Node) (paths : List (List Nat)) :
    pruned node paths = node.keepOnly (keeps paths) := by
  by_cases h : [] ∈ paths
  · have hall : keeps paths = fun _ => true := funext (keeps_nil h)
    rw [pruned, if_pos h, hall, Node.keepOnly_true]
  rw [pruned, if_neg h]
  induction node using Node.inductionOn generalizing paths with
  | leaf column type => rfl
  | array element ih => rw [mapObject, Node.keepOnly, ih paths h]
  | object fields ih =>
      rw [mapObject, Node.keepOnly, pruneFields_insertAll, Node.object.injEq,
        ← filterMap_ascending (mentions_true _) (fun i _ => Nat.zero_le i)
          fun i _ => mem_mentions.trans (keeps_singleton h i).symm]
      refine List.filterMap_congr fun i _ => Option.map_congr fun f hf => ?_
      have hkeep : keeps (below i paths) = fun places => keeps paths (i :: places) :=
        funext fun places => (keeps_cons h i places).symm
      have hmem : f ∈ fields := List.mem_of_getElem? (Option.mem_def.mp hf)
      rw [← hkeep]
      by_cases hb : [] ∈ below i paths
      · have hall : keeps (below i paths) = fun _ => true := funext (keeps_nil hb)
        rw [pruned, if_pos hb, hall, Node.keepOnly_true]
      · rw [pruned, if_neg hb, ih f hmem _ hb]

end Projection

end NestedColumns
