import NestedColumns.Proofs.Documents.Remerging
import NestedColumns.Proofs.Records

/-!
# The age of a schema

The same document may be stored under an early schema or under a late one. If the
early one knew all its members, both ways can be gone, and the records differ exactly
where a member has a leaf now and had none then: an object that was empty when it was
stored, under a field without columns, leaves nothing behind that could tell of it.

## Theorems

* `Records.same_iff_settled`: When the records of the two are the same.
-/

namespace NestedColumns

namespace Records

/-- A document that an early schema covers can be stored under it and under a late one, and the
    records of the two are the same exactly if the fields of its members had leaves from the
    start, as far as they have some in the projection. A merge with a limit up to 255 covers
    nothing that eight bits cannot count. -/
theorem same_iff_settled {early full : Schema} {options : MergeOptions} {document : Json}
    {paths : List String} {p : Projection} (hearly : Schema.Reaches .empty early)
    (hfull : Schema.Reaches early full) (hknown : Json.Known early.root document)
    (hlimit : options.maxLevel ≤ 255)
    (hcovered : Schema.merge options early document = .ok none)
    (hp : (Projection.resolveWithin full paths).run = some (.ok p)) :
    ∃ old new record record', (Shredding.shredWithin early document).run = some (.ok old) ∧
      (Shredding.shredWithin full document).run = some (.ok new) ∧
      Assembly.assemble p (readsOf p old) = .ok record ∧
      Assembly.assemble p (readsOf p new) = .ok record' ∧
      (record.toJson = record'.toJson ↔
        Json.Settled early.root p.schema.root document) := by
  rcases hearly.sound (Schema.sound_empty 0) with ⟨limit, he⟩
  rcases hfull.sound he with ⟨limit', hf⟩
  have hg := hfull.grown
  have hfits : Json.Fits early.root document := Json.fits_of_merge he.names hcovered
  -- The late schema takes the document apart as well, since its fields only grew.
  have hgrown : Json.Fits full.root document := hfits.grow hg.grows hf.names hknown
  have hdeep := Schema.levels_le_of_merge hcovered
  have hcounts : ∀ schema, Shredding.shredWithin schema document =
      Checked.ofExcept (Shredding.shred schema document) := fun schema =>
    Shredding.shredWithin_eq (Or.inr (by omega))
  have hresolved : Projection.resolve full paths = .ok p :=
    (Projection.agrees_resolveWithin full paths _ hp).symm
  rcases Shredding.exists_shred_iff.mpr hfits with ⟨old, hold⟩
  rcases Shredding.exists_shred_iff.mpr hgrown with ⟨new, hnew⟩
  rcases assemble_shred he hf hg hold hresolved with ⟨record, hrecord, hjson⟩
  rcases assemble_shred hf hf (.refl full) hnew hresolved with ⟨record', hrecord', hjson'⟩
  rcases Projection.resolve_eq_ok hf.names hresolved with ⟨fields, heq, hpart, hu, -⟩
  have hroot : p.schema.root = .object fields := by
    rw [heq]
    rfl
  refine ⟨old, new, record, record', ?_, ?_, hrecord, hrecord', ?_⟩
  · rw [hcounts, hold]
    rfl
  · rw [hcounts, hnew]
    rfl
  -- What is shown of the two is compared member by member.
  rw [hjson, hjson', hroot]
  exact Json.shown_kept_iff hg.grows he.names hf.names hpart hu

theorem known_empty_object (fields : List (String × Schema.Node)) :
    Json.Known (.object [("a", .object fields)]) (.object [("a", .object [])]) := by
  refine Json.known_object_iff.mpr fun name w hw => ?_
  have hmem := Json.present?_mem hw
  rw [List.mem_singleton, Prod.mk.injEq] at hmem
  rcases hmem with ⟨rfl, rfl⟩
  refine ⟨.object fields, rfl, Json.known_object_iff.mpr fun name w hw => ?_⟩
  exact absurd (Json.present?_mem hw) List.not_mem_nil

-- An empty object: what it is stored under got the leaf `b` before, and `c` after that.
theorem same_iff_settled_empty_object :
    ∃ p old new record record',
      (Projection.resolveWithin
        ⟨[("a", .object [("b", .leaf 0 .integer), ("c", .leaf 1 .integer)])], 2⟩ []).run =
          some (.ok p) ∧
      (Shredding.shredWithin ⟨[("a", .object [("b", .leaf 0 .integer)])], 1⟩
        (.object [("a", .object [])])).run = some (.ok old) ∧
      (Shredding.shredWithin
        ⟨[("a", .object [("b", .leaf 0 .integer), ("c", .leaf 1 .integer)])], 2⟩
          (.object [("a", .object [])])).run = some (.ok new) ∧
      Assembly.assemble p (readsOf p old) = .ok record ∧
      Assembly.assemble p (readsOf p new) = .ok record' ∧
      (record.toJson = record'.toJson ↔
        Json.Settled (.object [("a", .object [("b", .leaf 0 .integer)])]) p.schema.root
          (.object [("a", .object [])])) := by
  have hb : Schema.mergeInto ⟨.widen, 32⟩ .empty
      (.object [("a", .object [("b", .number (.whole 1))])]) =
      .ok ⟨[("a", .object [("b", .leaf 0 .integer)])], 1⟩ := rfl
  have hc : Schema.mergeInto ⟨.widen, 32⟩ ⟨[("a", .object [("b", .leaf 0 .integer)])], 1⟩
      (.object [("a", .object [("c", .number (.whole 2))])]) =
      .ok ⟨[("a", .object [("b", .leaf 0 .integer), ("c", .leaf 1 .integer)])], 2⟩ := rfl
  have hcovered : Schema.merge ⟨.widen, 32⟩ ⟨[("a", .object [("b", .leaf 0 .integer)])], 1⟩
      (.object [("a", .object [])]) = .ok none := rfl
  have hknown := known_empty_object [("b", .leaf 0 .integer)]
  have hp : (Projection.resolveWithin
      ⟨[("a", .object [("b", .leaf 0 .integer), ("c", .leaf 1 .integer)])], 2⟩ []).run =
        some (.ok _) := rfl
  rcases same_iff_settled (.step (.refl _) hb) (.step (.refl _) hc) hknown (by decide) hcovered hp
    with ⟨old, new, record, record', h⟩
  exact ⟨_, old, new, record, record', hp, h⟩

-- The same object under a field that has no leaf yet. Its record is empty if it was
-- stored then, and not if it is stored once the field got the leaf `b`.
theorem not_same_of_known : ¬ ∀ (early full : Schema) (options : MergeOptions) (document : Json)
    (paths : List String) (p : Projection) (old new : Shredding.Streams) (record record' : Record),
    Schema.Reaches .empty early → Schema.Reaches early full → Json.Known early.root document →
    Schema.merge options early document = .ok none → Projection.resolve full paths = .ok p →
    Shredding.shred early document = .ok old → Shredding.shred full document = .ok new →
    Assembly.assemble p (readsOf p old) = .ok record →
    Assembly.assemble p (readsOf p new) = .ok record' → record.toJson = record'.toJson := by
  intro h
  have hempty : Schema.mergeInto ⟨.widen, 32⟩ .empty (.object [("a", .object [])]) =
      .ok ⟨[("a", .object [])], 0⟩ := rfl
  have hb : Schema.mergeInto ⟨.widen, 32⟩ ⟨[("a", .object [])], 0⟩
      (.object [("a", .object [("b", .number (.whole 1))])]) =
      .ok ⟨[("a", .object [("b", .leaf 0 .integer)])], 1⟩ := rfl
  have hcovered : Schema.merge ⟨.widen, 32⟩ ⟨[("a", .object [])], 0⟩ (.object [("a", .object [])]) =
      .ok none := rfl
  have hp : Projection.resolve ⟨[("a", .object [("b", .leaf 0 .integer)])], 1⟩ [] = .ok _ := rfl
  have hsame : Json.object [] = .object [("a", .object [])] :=
    h _ _ _ _ _ _ _ _ _ _ (.step (.refl _) hempty) (.step (.refl _) hb)
      (known_empty_object []) hcovered hp rfl rfl rfl rfl
  cases hsame

end Records

end NestedColumns
