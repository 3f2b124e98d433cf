import NestedColumns.Proofs.Assembly.Filling
import NestedColumns.Proofs.Documents.Borrowing
import NestedColumns.Proofs.Documents.Fitting
import NestedColumns.Proofs.Projection.Pruning

/-!
# Records of documents

A document that was taken apart under one schema is put together under a later
one, and through a projection. Its record is what the projection shows of what the
old schema kept: the streams of the old columns are filled in as they are, those
of new columns are borrowed, and no check on the way fails.

## Main definitions

* `Records.Carries`: A column is assembled from what a document has along a track.
* `Records.readsOf`: What a projection reads of a document.

## Theorems

* `Records.assemble_stored`: The record of a stored document.
* `Records.assemble_shred`: The record of a document that was just taken apart.
-/

namespace NestedColumns

namespace Records

open Schema (Node)
open Json (Fits Conforms kept keptMembers shown shownMembers stream)
open Assembly (Track tracks tracksOf fill fillAll)
open Documents (StoredBy)
open Projection (streamsOf columnsBelow columnsOfFields)
open Shredding (touched)

/-- The columns of a shape go with its tracks, one by one. -/
theorem columnsBelow_tracks (node : Node) (path : String) (steps : List Step) :
    List.Forall₂ (fun c t => c.steps = steps ++ t.1 ∧
      node.along? t.1 = some (t.2, .leaf c.column c.type)) (columnsBelow node path steps)
        (tracks node) := by
  induction node using Node.inductionOn generalizing path steps with
  | leaf column type =>
      rw [columnsBelow, tracks]
      exact List.Forall₂.cons ⟨(List.append_nil _).symm, rfl⟩ .nil
  | array element ih =>
      rw [columnsBelow, tracks, List.forall₂_map_right_iff]
      refine List.Forall₂.imp (fun c t h => ?_) (ih path (steps ++ [Step.element]))
      refine ⟨?_, ?_⟩
      · rw [h.1, List.append_assoc, List.singleton_append]
      · simp only [Node.along?, h.2, Option.map_some]
  | object fields ih =>
      have hfields : ∀ (before rest : List (String × Node)), before ++ rest = fields →
          List.Forall₂ (fun c t => c.steps = steps ++ t.1 ∧
            (Node.object fields).along? t.1 = some (t.2, .leaf c.column c.type))
            (columnsOfFields rest path steps before.length) (tracksOf rest before.length) := by
        intro before rest
        induction rest generalizing before with
        | nil => exact fun _ => .nil
        | cons f rest ihrest =>
            rcases f with ⟨name, node⟩
            intro happ
            have hget : fields[before.length]? = some (name, node) := by
              rw [← happ, List.getElem?_append_right (Nat.le_refl _), Nat.sub_self]
              rfl
            have hmore := ihrest (before ++ [(name, node)]) (by
              rw [List.append_assoc, List.singleton_append, happ])
            rw [List.length_append, List.length_singleton] at hmore
            rw [columnsOfFields, tracksOf]
            refine List.rel_append ?_ hmore
            rw [List.forall₂_map_right_iff]
            refine (ih _ (List.mem_of_getElem? hget) _ _).imp fun c t h => ⟨?_, ?_⟩
            · rw [h.1, List.append_assoc, List.singleton_append]
            · simp only [Node.along?, hget, h.2, Option.map_some]
      exact hfields [] fields rfl

/-- The entries that a column is assembled from. -/
def entriesOf (stored : Nat → List Triple) (reads : List (List Triple)) (c : ProjectedColumn) :
    List Triple :=
  if stored c.column = [] then Assembly.missingShape reads c.shapeSources else stored c.column

theorem assembleColumns_cons (stored : Nat → List Triple) (reads : List (List Triple))
    (c : ProjectedColumn) (rest : List (ProjectedColumn × List Triple)) (root : Slot) :
    Assembly.assembleColumns reads ((c, stored c.column) :: rest) root =
      Assembly.place c (entriesOf stored reads c) root >>= Assembly.assembleColumns reads rest := by
  rw [Assembly.assembleColumns, entriesOf]
  cases stored c.column <;> rfl

/-- A column goes along a track, and is assembled from what a document has on it. -/
structure Carries (stored : Nat → List Triple) (reads : List (List Triple))
    (members : List (String × Json)) (c : ProjectedColumn) (t : Track) : Prop where
  steps : c.steps = t.1
  alike : List.Forall₂ Assembly.Matches c.steps t.2
  conforms : Conforms t.2 (.object members)
  entries : entriesOf stored reads c =
    (touched (stream DataValue.ofJson? t.2 (.object members) 0 0 0)).getD []

variable {stored : Nat → List Triple} {reads : List (List Triple)}
  {members : List (String × Json)}

/-- Placing such a column fills in the document along the track. A column of which the
    document has nothing changes nothing. -/
theorem Carries.place {c : ProjectedColumn} {t : Track} (h : Carries stored reads members c t)
    (slots : List Slot) :
    ∃ slots', fill t.1 t.2 (.object members) (.object slots) = .object slots' ∧
      Assembly.place c (entriesOf stored reads c) (.object slots) = .ok (.object slots') := by
  rcases t with ⟨steps, way⟩
  rcases h with ⟨rfl, halike, hconforms, hentries⟩
  rw [hentries]
  cases hsteps : c.steps with
  | nil =>
      rw [hsteps, List.forall₂_nil_left_iff] at halike
      rw [halike] at hconforms
      cases hconforms
  | cons step steps =>
      have hroot : (Slot.object slots).asObject = .object slots := rfl
      have hplace := Assembly.place_stream halike hconforms hroot
      rw [hsteps] at halike hplace
      cases halike with
      | @cons _ hop _ way hfirst hrest =>
          cases hfirst with
          | element => cases hconforms
          | member index name =>
              rw [Shredding.touched_member]
              cases hv : Json.present? members name with
              | none =>
                  refine ⟨slots, ?_, rfl⟩
                  rw [Assembly.fill_member_none hv]
                  rfl
              | some v =>
                  rw [Assembly.fill_member_some hv] at hplace ⊢
                  exact ⟨_, rfl, hplace⟩

/-- Columns are placed one by one. -/
theorem assembleColumns_eq_ok {columns : List ProjectedColumn} {ts : List Track}
    (h : List.Forall₂ (Carries stored reads members) columns ts) (slots : List Slot) :
    Assembly.assembleColumns reads (columns.map fun c => (c, stored c.column)) (.object slots) =
      .ok (fillAll ts (.object members) (.object slots)) := by
  induction h generalizing slots with
  | nil => rfl
  | cons hc _ ih =>
      rcases hc.place slots with ⟨slots', hfill, hplace⟩
      rw [List.map_cons, assembleColumns_cons, hplace, Assembly.fillAll_cons, hfill]
      exact ih slots'

/-! ### Records -/

/-- Two lists that go with a third go with each other. -/
theorem forall₂_meet {α β γ : Type} {R : α → β → Prop} {S : α → γ → Prop} {T : β → γ → Prop}
    (ht : ∀ a b c, R a b → S a c → T b c) {as : List α} {bs : List β} {cs : List γ}
    (h : List.Forall₂ R as bs) (h' : List.Forall₂ S as cs) : List.Forall₂ T bs cs := by
  induction h generalizing cs with
  | nil =>
      cases h'
      exact .nil
  | cons hr _ ih =>
      cases h' with
      | cons hs hrest => exact .cons (ht _ _ _ hr hs) (ih hrest)

theorem zip_streamsOf (stored : Nat → List Triple) (columns shapes : List ProjectedColumn) :
    columns.zip (streamsOf stored (columns ++ shapes)) = columns.map fun c => (c, stored c.column) := by
  induction columns with
  | nil => rfl
  | cons c rest ih =>
      rw [List.cons_append, streamsOf, List.map_cons, List.zip_cons_cons, List.map_cons]
      exact congrArg _ ih

section

variable {early full : Schema} {limit limit' : Nat} {members : List (String × Json)}
  {stored : Nat → List Triple}

/-- A way to a leaf of the table is the way of a column of that number. -/
theorem exists_find? (hf : full.Sound limit) {way : Way} {column : Nat} {type : DataType}
    (hw : full.root.at? way = some (.leaf column type)) :
    ∃ d, (Projection.ofSchema full).columns.find? (·.column = column) = some d ∧
      d.column = column ∧
        full.root.along? d.steps = some (way, .leaf d.column d.type) := by
  rcases Projection.exists_column hf.names hf.distinct hw with ⟨c, hc, hcolumn, -⟩
  have hsome : ((Projection.ofSchema full).columns.find? (·.column = column)).isSome = true :=
    List.find?_isSome.mpr ⟨c, hc, decide_eq_true hcolumn⟩
  rcases Option.isSome_iff_exists.mp hsome with ⟨d, hd⟩
  have hdc : d.column = column := by simpa only [decide_eq_true_eq] using List.find?_some hd
  rcases Projection.exists_way (List.mem_of_find?_eq_some hd) with ⟨way', hw'⟩
  refine ⟨d, hd, hdc, ?_⟩
  have hsame : way' = way :=
    Node.way_unique hf.distinct (Node.at?_of_along? hf.names hw') (hdc ▸ hw)
  rw [hw', hsame]

/-- The columns of a projection go along the tracks of its schema, and are assembled from
    what the schema of the document's time kept. -/
theorem carries_columns (he : early.Sound limit) (hf : full.Sound limit')
    (hg : early.GrownFrom full) (hfits : Fits early.root (.object members))
    (hs : StoredBy early.fields (.object (keptMembers early.fields members)) stored)
    {fields : List (String × Node)} (hpart : (Node.object fields).PartOf full.root)
    (hu : (Node.object fields).NamesUnique) {p : Projection}
    (hp : p = (Projection.ofSchema (Schema.ofFields fields)).withShapeSources full) :
    List.Forall₂ (Carries stored (streamsOf stored p.reads) (keptMembers early.fields members))
      p.columns (tracks (.object fields)) := by
  have hlinked := Projection.withShapeSources_spec stored
    (Projection.ofSchema (Schema.ofFields fields)) full rfl
  rw [← hp] at hlinked
  refine forall₂_meet (fun base c t hc ht => ?_) hlinked (columnsBelow_tracks (.object fields) "" [])
  rcases hc with ⟨hcolumn, hsteps, hmissing⟩
  rcases ht with ⟨hbase, hway⟩
  rw [List.nil_append] at hbase
  have hwhole := hpart.at? (Node.at?_of_along? hu hway)
  rcases exists_find? hf hwhole with ⟨d, hd, hdc, hdw⟩
  have hentries := Documents.entries_eq hf.names hf.distinct he.names hg.grows he.below hs hdw
  rw [hdc, ← hmissing d hd, ← hcolumn] at hentries
  have hsame : c.steps = t.1 := hsteps.trans hbase
  exact ⟨hsame, hsame ▸ Assembly.matches_of_along? hway,
    hfits.conforms hg.grows he.names hwhole, hentries⟩

/-- The record of a stored document, through any projection of any later schema, is
    what the projection shows of what the schema of its time kept. -/
theorem assemble_stored (he : early.Sound limit) (hf : full.Sound limit')
    (hg : early.GrownFrom full) (hfits : Fits early.root (.object members))
    (hs : StoredBy early.fields (.object (keptMembers early.fields members)) stored)
    {paths : List String} {p : Projection} (hp : Projection.resolve full paths = .ok p) :
    ∃ record, Assembly.assemble p (streamsOf stored p.reads) = .ok record ∧
      record.toJson = .object (shownMembers p.schema.fields (keptMembers early.fields members)) := by
  rcases Projection.resolve_eq_ok hf.names hp with ⟨fields, heq, hpart, hu, -⟩
  have hcarries := carries_columns he hf hg hfits hs hpart hu heq
  have hconforms : ∀ t ∈ tracksOf fields 0,
      Conforms t.2 (.object (keptMembers early.fields members)) := by
    intro t ht
    rcases List.mem_iff_getElem.mp ht with ⟨i, hi, rfl⟩
    have hlength : p.columns.length = (tracksOf fields 0).length := hcarries.length_eq
    exact (hcarries.get (hlength ▸ hi) hi).conforms
  rcases Assembly.membersToJson_fillAll hu hconforms with ⟨slots, hslots, hjson⟩
  have hschema : p.schema.fields = fields := by
    rw [heq]
    rfl
  have hfill := assembleColumns_eq_ok hcarries []
  rw [← zip_streamsOf stored p.columns p.shapeColumns, tracks, hslots] at hfill
  rw [Assembly.assemble, hschema]
  exact ⟨⟨fields, .object slots⟩, Outcome.map_eq_ok.mpr ⟨_, hfill, rfl⟩,
    congrArg Json.object hjson⟩

-- The streams of a document that was just taken apart are those that would be stored.
theorem storedBy_shred (he : early.Sound limit) {streams : Shredding.Streams}
    (h : Shredding.shred early (.object members) = .ok streams) :
    StoredBy early.fields (.object (keptMembers early.fields members))
      (fun column => (streams.find? column).getD []) := by
  rcases Shredding.find?_shred he.distinct h with ⟨hothers, hown⟩
  constructor
  · intro column hc
    rw [hothers column hc, Option.getD_none]
  · intro way column type hw
    have hkept : stream DataValue.ofJson? way (.object (keptMembers early.fields members)) 0 0 0 =
        stream DataValue.ofJson? way (.object members) 0 0 0 :=
      Json.stream_kept (v := .object members) he.names hw
    rw [hown way column type hw, hkept]

end

/-- What a projection reads of a document that was taken apart. -/
def readsOf (p : Projection) (streams : Shredding.Streams) : List (List Triple) :=
  streamsOf (fun column => (streams.find? column).getD []) p.reads

theorem assemble_shred {early full : Schema} {limit limit' : Nat} (he : early.Sound limit)
    (hf : full.Sound limit') (hg : early.GrownFrom full) {document : Json}
    {streams : Shredding.Streams} (h : Shredding.shred early document = .ok streams)
    {paths : List String} {p : Projection} (hp : Projection.resolve full paths = .ok p) :
    ∃ record, Assembly.assemble p (readsOf p streams) = .ok record ∧
      record.toJson = shown p.schema.root (kept early.root document) := by
  have hfits := Shredding.exists_shred_iff.mp ⟨streams, h⟩
  rcases Json.fits_object.mp hfits with ⟨members, rfl, -⟩
  exact assemble_stored he hf hg hfits (storedBy_shred he h) hp

end Records

end NestedColumns
