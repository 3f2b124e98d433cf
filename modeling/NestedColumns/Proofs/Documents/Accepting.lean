import NestedColumns.Proofs.Documents.Remerging
import NestedColumns.Proofs.Levels

/-!
# Which documents are taken apart

Shredding and merging walk over a schema and a document on their own. They agree on which
documents the schema covers: a document is taken apart if merging it would leave the schema
as it is, and what to do with a float that meets a column of whole numbers makes no
difference. The depth that a merge allows is the one thing that shredding does not look at.

A member without a field shows how: shredding asks whether the member has data, and a merge
infers its shape. One finds nothing exactly if the other does.

Shredding counts levels in eight bits and a merge counts its depth without a width. So they
part where both the schema and the document have more than 255 levels, which is no more than
some limits allow.

## Theorems

* `Shredding.shredNodeWithin_unknown`: A member without a field changes nothing, or is refused.
* `Json.infers_nothing_iff`: A shape is inferred from what has data.
* `Schema.shred_iff_merge`: A document is taken apart if merging it changes nothing.
* `Schema.not_shred_iff_merge_tower`: The same is not so beyond 255 levels.
-/

namespace NestedColumns

theorem Checked.ofExcept_bind_eq_ok {ε α β : Type} {x : Except ε α} {f : α → Checked ε β} {b : β} :
    (ofExcept x >>= f).run = some (.ok b) ↔ ∃ a, x = .ok a ∧ (f a).run = some (.ok b) := by
  cases x with
  | error e => simp only [reduceCtorEq, false_and, exists_false, iff_false]; exact nofun
  | ok a => simp only [Except.ok.injEq, exists_eq_left']; rfl

namespace Shredding

open Schema (Node field?)

variable {path : List String} {fields : List (String × Node)} {rep level arrays : Nat}

-- Fields only look at the members that have their names.
theorem shredFieldsWithin_congr {members others : List (String × Json)}
    (h : ∀ f ∈ fields, Json.member? members f.1 = Json.member? others f.1) :
    shredFieldsWithin path fields members rep level arrays =
      shredFieldsWithin path fields others rep level arrays := by
  induction fields with
  | nil => rw [shredFieldsWithin, shredFieldsWithin]
  | cons f rest ih =>
      rcases f with ⟨name, node⟩
      rw [List.forall_mem_cons] at h
      rw [shredFieldsWithin, shredFieldsWithin, h.1, ih h.2]

theorem member?_insert {before after : List (String × Json)} {name other : String} (v : Json)
    (h : name ≠ other) :
    Json.member? (before ++ (name, v) :: after) other = Json.member? (before ++ after) other := by
  induction before with
  | nil => rw [List.nil_append, List.nil_append, Json.member?_cons, if_neg h]
  | cons m rest ih =>
      rw [List.cons_append, List.cons_append, Json.member?_cons, Json.member?_cons, ih]

/-- A member without a field changes nothing if it says nothing, and is refused otherwise. -/
theorem shredNodeWithin_unknown {before after : List (String × Json)} {name : String} {v : Json}
    {entries : Entries} (hf : field? fields name = none) :
    (shredNodeWithin path (.object fields) rep level arrays
        (.object (before ++ (name, v) :: after))).run = some (.ok entries) ↔
      (shredNodeWithin path (.object fields) rep level arrays (.object (before ++ after))).run =
          some (.ok entries) ∧ v.hasData = false := by
  have hfields : shredFieldsWithin path fields (before ++ (name, v) :: after) rep level arrays =
      shredFieldsWithin path fields (before ++ after) rep level arrays := by
    refine shredFieldsWithin_congr fun f hmem => member?_insert v fun heq => ?_
    exact Schema.field?_eq_none_iff.mp hf (heq ▸ List.mem_map_of_mem hmem)
  have hcovered : checkCovered path fields (before ++ (name, v) :: after) = .ok () ↔
      checkCovered path fields (before ++ after) = .ok () ∧ v.hasData = false := by
    rw [checkCovered_eq_ok, checkCovered_eq_ok, List.forall_mem_append, List.forall_mem_cons,
      List.forall_mem_append, hf]
    simp only [Option.isSome_none, Bool.false_eq_true, imp_false, Bool.not_eq_true]
    exact ⟨fun h => ⟨⟨h.1, h.2.2⟩, h.2.1⟩, fun h => ⟨h.1.1, h.2, h.1.2⟩⟩
  rw [shredNodeWithin, shredNodeWithin, hfields, Checked.ofExcept_bind_eq_ok,
    Checked.ofExcept_bind_eq_ok]
  constructor
  · rintro ⟨_, hok, hentries⟩
    rcases hcovered.mp hok with ⟨hrest, hdata⟩
    exact ⟨⟨_, hrest, hentries⟩, hdata⟩
  · rintro ⟨⟨_, hrest, hentries⟩, hdata⟩
    exact ⟨_, hcovered.mpr ⟨hrest, hdata⟩, hentries⟩

end Shredding

namespace Json

/-- A shape is inferred from what has data, as far as it is not too deep. -/
theorem infers_nothing_iff {options : MergeOptions} {path : List String} {depth : Nat} {v : Json}
    {growth : Schema.Growth} (hd : depth + v.levels ≤ options.maxLevel) :
    (∃ growth', Schema.inferNode options path depth v growth = .ok (none, growth')) ↔
      v.hasData = false := by
  constructor
  · rintro ⟨growth', h⟩
    exact (((fitsUnchanged v).infer h).2 rfl).2
  · exact fun hdata => ⟨growth, (stays v).infer growth hd hdata⟩

end Json

namespace Schema

variable {options : MergeOptions} {schema : Schema} {document : Json}

/-- Unless both a document and a schema have more levels than eight bits can count, taking the
    document apart has a result. If the document is not too deep for a merge, it is taken apart
    exactly if merging it changes nothing, whatever the policy. So a member that an object of it
    has without a field, at any depth, is tolerated exactly if no shape can be inferred from it. -/
theorem shred_iff_merge (hn : schema.root.NamesUnique) (hu : document.NamesUnique)
    (hd : document.levels ≤ options.maxLevel)
    (hw : schema.root.height < 2 ^ 8 ∨ document.levels < 2 ^ 8) :
    (∃ result, (Shredding.shredWithin schema document).run = some result) ∧
      ((∃ streams, (Shredding.shredWithin schema document).run = some (.ok streams)) ↔
        merge options schema document = .ok none) ∧
      ∀ (path : List String) (fields : List (String × Node)) (before after : List (String × Json))
        (name : String) (v : Json) (rep level arrays depth : Nat) (growth : Growth)
        (entries : Shredding.Entries), field? fields name = none →
        depth + v.levels ≤ options.maxLevel →
        ((Shredding.shredNodeWithin path (.object fields) rep level arrays
            (.object (before ++ (name, v) :: after))).run = some (.ok entries) ↔
          (Shredding.shredNodeWithin path (.object fields) rep level arrays
              (.object (before ++ after))).run = some (.ok entries) ∧
            ∃ growth', inferNode options (path ++ [name]) depth v growth =
              .ok (none, growth')) := by
  refine ⟨⟨_, by rw [Shredding.shredWithin_eq hw]; rfl⟩, ?_, ?_⟩
  · rw [Shredding.exists_shredWithin_iff hw]
    refine Shredding.exists_shred_iff.trans ⟨fun hfits => ?_, fun h => ?_⟩
    · exact merge_same hd hn hu hfits
    · exact Json.fits_of_merge hn h
  · intro path fields before after name v rep level arrays depth growth entries hf hdeep
    rw [Json.infers_nothing_iff hdeep]
    exact Shredding.shredNodeWithin_unknown hf

/-- A column of whole numbers, and an array of objects with one column. -/
def coveringSchema : Schema :=
  ⟨[("a", .leaf 0 .integer), ("b", .array (.object [("c", .leaf 1 .string)]))], 2⟩

/-- An object four steps deep, with a member that says nothing and has no field. -/
def coveredDocument : Json :=
  .object [("a", .number (.whole 1)),
    ("b", .array [.object [("c", .string "x")], .null, .object [("z", .array [.null, .array []])]])]

-- It is taken apart under the strict policy as well, with an entry where the member says nothing.
theorem shred_covered :
    (∃ streams, (Shredding.shredWithin coveringSchema coveredDocument).run = some (.ok streams)) ∧
      (Shredding.shredNodeWithin ["b"] (.object [("c", .leaf 1 .string)]) 1 2 1
        (.object [("z", .array [.null, .array []])])).run = some (.ok [(1, .absent 1 2)]) := by
  have hn : coveringSchema.root.NamesUnique := by
    simp [coveringSchema, Node.NamesUnique, Node.NamesUniqueOf]
  have hu : coveredDocument.NamesUnique := by
    simp [coveredDocument, Json.NamesUnique, Json.NamesUniqueItems, Json.NamesUniqueMembers]
  have hmerge : merge ⟨.strict, 4⟩ coveringSchema coveredDocument = .ok none := rfl
  have hd : coveredDocument.levels ≤ (MergeOptions.mk .strict 4).maxLevel := by decide
  rcases shred_iff_merge hn hu hd (Or.inr (by decide)) with ⟨-, hshred, hmember⟩
  refine ⟨hshred.mpr hmerge, ?_⟩
  exact (hmember ["b"] [("c", .leaf 1 .string)] [] [] "z" (.array [.null, .array []]) 1 2 1 3
    ⟨2, false⟩ _ rfl (by decide)).mpr ⟨rfl, ⟨2, false⟩, rfl⟩

/-- A column inside `n` arrays. -/
def towerNode (n : Nat) : Node :=
  Nat.repeat .array n (.leaf 0 .integer)

/-- A number inside `n` arrays. -/
def towerValue (n : Nat) : Json :=
  Nat.repeat (fun v => .array [v]) n (.number (.whole 1))

/-- A column at the end of 256 steps. -/
def towerSchema : Schema :=
  ⟨[("a", towerNode 255)], 1⟩

/-- A document with a number in this column. -/
def towerDocument : Json :=
  .object [("a", towerValue 255)]

theorem namesUnique_towerNode (n : Nat) : (towerNode n).NamesUnique := by
  induction n with
  | zero => trivial
  | succ n ih => exact ih

theorem namesUnique_towerValue (n : Nat) : (towerValue n).NamesUnique := by
  induction n with
  | zero => trivial
  | succ n ih => exact ⟨ih, trivial⟩

-- Merging the document changes nothing, but its levels cannot be counted in eight bits.
theorem not_shred_iff_merge_tower :
    towerSchema.root.NamesUnique ∧ towerDocument.NamesUnique ∧ towerDocument.levels ≤ 1000 ∧
      merge ⟨.widen, 1000⟩ towerSchema towerDocument = .ok none ∧
      (Shredding.shredWithin towerSchema towerDocument).run = none := by
  have hn : towerSchema.root.NamesUnique :=
    ⟨List.nodup_singleton _, namesUnique_towerNode 255, trivial⟩
  have hu : towerDocument.NamesUnique :=
    ⟨List.nodup_singleton _, namesUnique_towerValue 255, trivial⟩
  have hd : towerDocument.levels ≤ (MergeOptions.mk .widen 1000).maxLevel := by decide +kernel
  have hall : Shredding.shredAll towerSchema towerDocument = .ok [(0, ⟨some (.int 1), 0, 256⟩)] := by
    decide +kernel
  have hfits : Json.Fits towerSchema.root towerDocument :=
    Shredding.exists_shred_iff.mp ⟨_, Outcome.map_eq_ok.mpr ⟨_, hall, rfl⟩⟩
  refine ⟨hn, hu, hd, merge_same hd hn hu hfits, Option.isNone_iff_eq_none.mp ?_⟩
  decide +kernel

end Schema

end NestedColumns
