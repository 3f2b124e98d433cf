import NestedColumns.Levels
import NestedColumns.Proofs.Assembly.Bounded
import NestedColumns.Proofs.Documents.Shredding

/-!
# Levels of eight bits

Listing leaves, taking documents apart and resolving paths count levels in eight bits, and do not
look at how far they have come. Here is how far that is.

A merge looks at the depth of whatever it adds, so in a schema that was grown with limits up to
255 no field and no element lies deeper, be there leaves below it or not. A walk never leaves the
schema: it counts a step when it takes one, and what a document has beyond the schema is refused
before. So none of the counts is out of range, even if the document does not fit the schema.

A document is not followed further than it goes either, so one of up to 255 levels is taken apart
by any schema. The leaves of a schema that is deeper cannot be listed.

## Main definitions

* `Checked.Agrees`: A checked computation has no result but that of another one.
* `Schema.GrownWithin`: Schemas that are grown with limits up to a bound.

## Theorems

* `Schema.leaves?_eq_some_iff`: Which leaves can be listed.
* `Shredding.shredWithin_eq`: Taking a document apart counts no further than it goes.
* `Shredding.agrees_shredAllWithin`: What it gives are the entries of the document.
* `Projection.resolveWithin_eq`: Resolving paths counts no further than the schema goes.
* `Projection.agrees_resolveWithin`: What it gives is the projection of the paths.
* `Schema.GrownWithin.levels_fit`: They fit in every schema grown with limits up to 255, and are
  the numbers of steps and of arrays on the way.
-/

namespace NestedColumns

theorem Level.fit?_of_lt {n : Nat} (h : n < 2 ^ 8) : fit? n = some n :=
  if_pos h

theorem Level.fit?_eq_some {n m : Nat} (h : fit? n = some m) : n < 2 ^ 8 ∧ m = n := by
  rw [fit?, Option.ite_none_right_eq_some, Option.some.injEq] at h
  exact ⟨h.1, h.2.symm⟩

/-! ### Computations that are checked -/

section

variable {ε α β : Type}

/-- Where a checked computation has a result, it is that of another one. -/
def Checked.Agrees (c : Checked ε α) (x : Except ε α) : Prop :=
  ∀ y, c.run = some y → y = x

namespace Checked

theorem agrees_ofExcept (x : Except ε α) : (ofExcept x).Agrees x := fun _ h =>
  (Option.some.inj h).symm

theorem Agrees.bind {c : Checked ε α} {x : Except ε α} {f : α → Checked ε β} {g : α → Except ε β}
    (h : c.Agrees x) (hf : ∀ a, (f a).Agrees (g a)) : (c >>= f).Agrees (x >>= g) := by
  intro y hy
  rcases Option.bind_eq_some_iff.mp hy with ⟨result, hresult, hrest⟩
  rcases h result hresult with rfl
  cases result with
  | error e => exact (Option.some.inj hrest).symm
  | ok a => exact hf a y hrest

-- What has no result says nothing of what follows it.
theorem Agrees.lift {o : Option α} {a : α} {f : α → Checked ε β} {x : Except ε β}
    (ho : ∀ b, o = some b → b = a) (hf : (f a).Agrees x) :
    ((liftM o : Checked ε α) >>= f).Agrees x := by
  cases o with
  | none => exact nofun
  | some b =>
      rw [lift_bind, ho b rfl]
      exact hf

theorem agrees_lift {o : Option α} {a : α} (ho : ∀ b, o = some b → b = a) :
    (liftM o : Checked ε α).Agrees (.ok a) := by
  intro y hy
  rcases Option.map_eq_some_iff.mp hy with ⟨b, hb, rfl⟩
  rw [ho b hb]

theorem Agrees.fit {n : Nat} {f : Nat → Checked ε α} {x : Except ε α} (h : (f n).Agrees x) :
    ((liftM (Level.fit? n) : Checked ε Nat) >>= f).Agrees x :=
  .lift (fun _ hfit => (Level.fit?_eq_some hfit).2) h

theorem Agrees.mapM {f : α → Checked ε β} {g : α → Except ε β} (h : ∀ a, (f a).Agrees (g a))
    (xs : List α) : (xs.mapM f).Agrees (xs.mapM g) := by
  induction xs with
  | nil => exact agrees_ofExcept (.ok [])
  | cons x xs ih =>
      rw [List.mapM_cons, List.mapM_cons]
      exact (h x).bind fun _ => ih.bind fun _ => agrees_ofExcept (.ok _)

end Checked

end

/-! ### The leaves of a schema -/

namespace Schema

-- An array is a step as well, so there are no more arrays than steps.
theorem leavesBelow?_eq {node : Node} {path : String} {rep depth : Nat} (hrep : rep ≤ depth)
    (hh : depth + node.height < 2 ^ 8) :
    leavesBelow? node path rep depth = some (leavesBelow node path rep depth) := by
  induction node using Node.inductionOn generalizing path rep depth with
  | leaf column type => rfl
  | array element ih =>
      rw [Node.height] at hh
      rw [leavesBelow?, leavesBelow, Level.fit?_of_lt (by omega : rep + 1 < 2 ^ 8),
        Level.fit?_of_lt (by omega : depth + 1 < 2 ^ 8)]
      exact ih (by omega) (by omega)
  | object fields ih =>
      rw [Node.height] at hh
      rw [leavesBelow?, leavesBelow]
      induction fields with
      | nil => rfl
      | cons f rest ihrest =>
          rcases f with ⟨name, node⟩
          rw [Node.heightOf] at hh
          rw [leavesOfFields?, leavesOfFields, Level.fit?_of_lt (by omega : depth + 1 < 2 ^ 8),
            ihrest (fun f hf => ih f (List.mem_cons_of_mem _ hf)) (by omega)]
          have hfield : leavesBelow? node (path ++ "." ++ name) rep (depth + 1) =
              some (leavesBelow node (path ++ "." ++ name) rep (depth + 1)) :=
            ih (name, node) List.mem_cons_self (by omega) (by
              show depth + 1 + node.height < 2 ^ 8
              omega)
          simp only [Option.bind_eq_bind, Option.bind_some, hfield]
          rfl

theorem leaves?_eq {schema : Schema} (hh : schema.root.height < 2 ^ 8) :
    leaves? schema = some (leaves schema) := by
  have hfields : ∀ fields : List (String × Node), Node.heightOf fields < 2 ^ 8 →
      fields.mapM (fun f => leavesBelow? f.2 f.1 0 1) =
        some (fields.map fun f => leavesBelow f.2 f.1 0 1) := by
    intro fields hfields
    induction fields with
    | nil => rfl
    | cons f rest ih =>
        rcases f with ⟨name, node⟩
        rw [Node.heightOf] at hfields
        have hfield : leavesBelow? node name 0 1 = some (leavesBelow node name 0 1) :=
          leavesBelow?_eq (by omega) (by omega)
        rw [List.mapM_cons, hfield, ih (by omega)]
        rfl
  rw [leaves?, leaves, List.flatMap_def]
  exact congrArg (Option.map List.flatten) (hfields schema.fields hh)

-- A field counts as a step, be there a leaf below it or not.
theorem height_lt_of_leavesBelow? {node : Node} {path : String} {rep depth : Nat}
    {leaves : List LeafColumn} (hd : depth < 2 ^ 8)
    (h : leavesBelow? node path rep depth = some leaves) : depth + node.height < 2 ^ 8 := by
  induction node using Node.inductionOn generalizing path rep depth leaves with
  | leaf column type => exact hd
  | array element ih =>
      rcases Option.bind_eq_some_iff.mp h with ⟨rep', -, h⟩
      rcases Option.bind_eq_some_iff.mp h with ⟨depth', hdepth, h⟩
      rcases Level.fit?_eq_some hdepth with ⟨hlt, rfl⟩
      have helement := ih hlt h
      rw [Node.height]
      omega
  | object fields ih =>
      rw [leavesBelow?] at h
      rw [Node.height]
      induction fields generalizing leaves with
      | nil => exact hd
      | cons f rest ihrest =>
          rcases f with ⟨name, node⟩
          rcases Option.bind_eq_some_iff.mp h with ⟨inner, hinner, h⟩
          rcases Option.bind_eq_some_iff.mp h with ⟨here, hhere, h⟩
          rcases Option.bind_eq_some_iff.mp h with ⟨others, hothers, -⟩
          rcases Level.fit?_eq_some hinner with ⟨hlt, rfl⟩
          have hfield : depth + 1 + node.height < 2 ^ 8 := ih (name, node) List.mem_cons_self hlt hhere
          have hrest := ihrest (fun f hf => ih f (List.mem_cons_of_mem _ hf)) hothers
          rw [Node.heightOf]
          omega

theorem heightOf_lt_of_leavesBelow? {fields : List (String × Node)} {lists : List (List LeafColumn)}
    (h : fields.mapM (fun f => leavesBelow? f.2 f.1 0 1) = some lists) :
    Node.heightOf fields < 2 ^ 8 := by
  induction fields generalizing lists with
  | nil => exact Nat.two_pow_pos 8
  | cons f rest ih =>
      rcases f with ⟨name, node⟩
      rw [List.mapM_cons] at h
      rcases Option.bind_eq_some_iff.mp h with ⟨here, hhere, h⟩
      rcases Option.bind_eq_some_iff.mp h with ⟨others, hothers, -⟩
      have hfield : 1 + node.height < 2 ^ 8 := height_lt_of_leavesBelow? (by decide) hhere
      have hrest := ih hothers
      rw [Node.heightOf]
      omega

/-- The leaves of a schema can be listed exactly if none of its ways has more than 255 steps. -/
theorem leaves?_eq_some_iff {schema : Schema} {leaves : List LeafColumn} :
    leaves? schema = some leaves ↔ schema.root.height < 2 ^ 8 ∧ leaves = schema.leaves := by
  constructor
  · intro h
    rcases Option.map_eq_some_iff.mp h with ⟨lists, hlists, -⟩
    have hh : schema.root.height < 2 ^ 8 := heightOf_lt_of_leavesBelow? hlists
    rw [leaves?_eq hh, Option.some.injEq] at h
    exact ⟨hh, h.symm⟩
  · rintro ⟨hh, rfl⟩
    exact leaves?_eq hh

theorem ofFields?_eq {fields : List (String × Node)} (hh : Node.heightOf fields < 2 ^ 8) :
    ofFields? fields = some (ofFields fields) := by
  have hleaves : leaves? ⟨fields, 0⟩ = some (leaves ⟨fields, 0⟩) := leaves?_eq hh
  rw [ofFields?, hleaves]
  rfl

end Schema

/-! ### The entries of a document -/

namespace Shredding

open Schema (Node)
open Checked (agrees_ofExcept lift_bind)

theorem mapM_ofExcept {α β ε : Type} {f : α → Checked ε β} {g : α → Except ε β} {xs : List α}
    (h : ∀ x ∈ xs, f x = Checked.ofExcept (g x)) : xs.mapM f = Checked.ofExcept (xs.mapM g) := by
  induction xs with
  | nil => rfl
  | cons x xs ih =>
      rw [List.forall_mem_cons] at h
      rw [List.mapM_cons, List.mapM_cons, h.1, ih h.2, Checked.ofExcept_bind]
      refine congrArg _ (funext fun y => ?_)
      rw [Checked.ofExcept_bind]
      rfl

-- What a document has below a field is taken apart with one more step.
theorem shredFieldsWithin_eq {fields : List (String × Node)} {path : List String}
    {members : List (String × Json)} {rep level arrays : Nat}
    (hh : level + min (Node.heightOf fields) (Json.levelsOfMembers members) < 2 ^ 8)
    (hf : ∀ f ∈ fields, ∀ path value, level + 1 + min f.2.height value.levels < 2 ^ 8 →
      shredNodeWithin path f.2 rep (level + 1) arrays value =
        Checked.ofExcept (shredNode path f.2 rep (level + 1) arrays value)) :
    shredFieldsWithin path fields members rep level arrays =
      Checked.ofExcept (shredFields path fields members rep level arrays) := by
  induction fields with
  | nil => rfl
  | cons f rest ih =>
      rcases f with ⟨name, node⟩
      rw [Node.heightOf] at hh
      have hothers : ∀ here : Entries,
          (shredFieldsWithin path rest members rep level arrays >>= fun others =>
            pure (here ++ others)) =
          Checked.ofExcept (shredFields path rest members rep level arrays >>= fun others =>
            pure (here ++ others)) := by
        intro here
        rw [ih (by omega) fun f hm => hf f (List.mem_cons_of_mem _ hm), Checked.ofExcept_bind]
        rfl
      rw [shredFieldsWithin, shredFields]
      cases hvalue : (Json.member? members name).filter (!·.isNull) with
      | none => exact hothers _
      | some value =>
          have hpresent : value.levels + 1 ≤ Json.levelsOfMembers members :=
            Json.levelsOfMembers_le.mp (Nat.le_refl _) _ (Json.present?_mem hvalue)
              (Json.isNull_of_present? hvalue)
          have hnode : shredNodeWithin (path ++ [name]) node rep (level + 1) arrays value =
              Checked.ofExcept (shredNode (path ++ [name]) node rep (level + 1) arrays value) := by
            refine hf (name, node) List.mem_cons_self _ value ?_
            show level + 1 + min node.height value.levels < 2 ^ 8
            omega
          simp only [Level.fit?_of_lt (by omega : level + 1 < 2 ^ 8), lift_bind, hnode]
          rw [Checked.ofExcept_bind]
          exact congrArg _ (funext hothers)

-- The induction is on the shape: neither of shape and document is followed where the other ends.
theorem shredNodeWithin_eq {node : Node} {path : List String} {rep level arrays : Nat}
    {value : Json} (ha : arrays ≤ level) (hh : level + min node.height value.levels < 2 ^ 8) :
    shredNodeWithin path node rep level arrays value =
      Checked.ofExcept (shredNode path node rep level arrays value) := by
  induction node using Node.inductionOn generalizing path rep level arrays value with
  | leaf column type =>
      cases value <;> rfl
  | object fields ih =>
      cases value with
      | object members =>
          rw [Node.height, Json.levels] at hh
          rw [shredNodeWithin, shredNode, Checked.ofExcept_bind,
            shredFieldsWithin_eq hh fun f hf path value hlower => ih f hf (by omega) hlower]
      | null | bool | number | string | array =>
          simp only [shredNodeWithin, shredNode]
          rfl
  | array element ih =>
      cases value with
      | array items =>
          rw [Node.height, Json.levels] at hh
          have helement : ∀ item ∈ items.filter (!·.isNull), level + 1 < 2 ^ 8 ∧ ∀ rep : Nat,
              shredNodeWithin path element rep (level + 1) (arrays + 1) item =
                Checked.ofExcept (shredNode path element rep (level + 1) (arrays + 1) item) := by
            intro item hitem
            rcases Json.mem_presentItems.mp hitem with ⟨hmem, hnull⟩
            have hdeeper : item.levels + 1 ≤ Json.levelsOfItems items :=
              Json.levelsOfItems_le.mp (Nat.le_refl _) item hmem hnull
            exact ⟨by omega, fun rep => ih (by omega) (by omega)⟩
          rw [shredNodeWithin, shredNode]
          cases hitems : items.filter (!·.isNull) with
          | nil => rfl
          | cons first others =>
              rw [hitems, List.forall_mem_cons] at helement
              simp only [Level.fit?_of_lt helement.1.1,
                Level.fit?_of_lt (by omega : arrays + 1 < 2 ^ 8), lift_bind, helement.1.2,
                Checked.ofExcept_bind,
                mapM_ofExcept fun item hitem => (helement.2 item hitem).2 (arrays + 1)]
              rfl
      | null | bool | number | string | object =>
          simp only [shredNodeWithin, shredNode]
          rfl

theorem shredAllWithin_eq {schema : Schema} {document : Json}
    (hh : schema.root.height < 2 ^ 8 ∨ document.levels < 2 ^ 8) :
    shredAllWithin schema document = Checked.ofExcept (shredAll schema document) := by
  cases document with
  | object members =>
      rw [Schema.root, Node.height, Json.levels] at hh
      rw [shredAllWithin, shredAll, Checked.ofExcept_bind,
        shredFieldsWithin_eq (by omega) fun f _ path value hlower =>
          shredNodeWithin_eq (Nat.zero_le _) hlower]
  | null | bool | number | string | array => rfl

/-- Whether a document fits a schema or not, taking it apart counts no further than either of
    them is deep. -/
theorem shredWithin_eq {schema : Schema} {document : Json}
    (hh : schema.root.height < 2 ^ 8 ∨ document.levels < 2 ^ 8) :
    shredWithin schema document = Checked.ofExcept (shred schema document) := by
  rw [shredWithin, shred, shredAllWithin_eq hh]
  cases shredAll schema document <;> rfl

theorem exists_shredWithin_iff {schema : Schema} {document : Json}
    (hh : schema.root.height < 2 ^ 8 ∨ document.levels < 2 ^ 8) :
    (∃ streams, (shredWithin schema document).run = some (.ok streams)) ↔
      ∃ streams, shred schema document = .ok streams := by
  rw [shredWithin_eq hh]
  exact exists_congr fun _ => ⟨Option.some.inj, congrArg some⟩

theorem agrees_shredFieldsWithin {fields : List (String × Node)}
    (hf : ∀ f ∈ fields, ∀ path rep level arrays value,
      (shredNodeWithin path f.2 rep level arrays value).Agrees
        (shredNode path f.2 rep level arrays value))
    (path : List String) (members : List (String × Json)) (rep level arrays : Nat) :
    (shredFieldsWithin path fields members rep level arrays).Agrees
      (shredFields path fields members rep level arrays) := by
  induction fields with
  | nil => exact agrees_ofExcept (.ok [])
  | cons f rest ih =>
      rcases f with ⟨name, node⟩
      rw [List.forall_mem_cons] at hf
      rw [shredFieldsWithin, shredFields]
      have hothers : ∀ here : Entries, Checked.Agrees
          (shredFieldsWithin path rest members rep level arrays >>= fun others =>
            pure (here ++ others))
          (shredFields path rest members rep level arrays >>= fun others =>
            pure (here ++ others)) :=
        fun _ => (ih hf.2).bind fun _ => agrees_ofExcept (.ok _)
      cases (Json.member? members name).filter (!·.isNull) with
      | none => exact (agrees_ofExcept _).bind hothers
      | some value => exact .fit ((hf.1 _ _ _ _ _).bind hothers)

theorem agrees_shredNodeWithin (node : Node) (path : List String) (rep level arrays : Nat)
    (value : Json) :
    (shredNodeWithin path node rep level arrays value).Agrees
      (shredNode path node rep level arrays value) := by
  induction node using Node.inductionOn generalizing path rep level arrays value with
  | leaf column type => cases value <;> exact agrees_ofExcept _
  | object fields ih =>
      cases value with
      | object members =>
          rw [shredNodeWithin, shredNode]
          exact (agrees_ofExcept _).bind fun _ => agrees_shredFieldsWithin ih _ _ _ _ _
      | null | bool | number | string | array =>
          simp only [shredNodeWithin, shredNode]
          exact agrees_ofExcept (.error _)
  | array element ih =>
      cases value with
      | array items =>
          rw [shredNodeWithin, shredNode]
          cases items.filter (!·.isNull) with
          | nil => exact agrees_ofExcept _
          | cons first others =>
              exact .fit (.fit ((ih _ _ _ _ _).bind fun _ =>
                (Checked.Agrees.mapM (fun _ => ih _ _ _ _ _) _).bind fun _ =>
                  agrees_ofExcept (.ok _)))
      | null | bool | number | string | object =>
          simp only [shredNodeWithin, shredNode]
          exact agrees_ofExcept (.error _)

theorem agrees_shredAllWithin (schema : Schema) (document : Json) :
    (shredAllWithin schema document).Agrees (shredAll schema document) := by
  cases document with
  | object members =>
      exact (agrees_ofExcept _).bind fun _ =>
        agrees_shredFieldsWithin (fun f _ => agrees_shredNodeWithin f.2) _ _ _ _ _
  | null | bool | number | string | array => exact agrees_ofExcept (.error _)

/-- If the levels of a document can be counted, its streams are made of its entries. -/
theorem of_shredWithin {schema : Schema} {document : Json} {streams : Streams}
    (h : (shredWithin schema document).run = some (.ok streams)) :
    ∃ entries, (shredAllWithin schema document).run = some (.ok entries) ∧
      shredAll schema document = .ok entries ∧
      streams = (toStreams entries).filter fun _ stream => !isUntouched stream := by
  rcases Option.bind_eq_some_iff.mp h with ⟨result, hresult, hrest⟩
  cases result with
  | error e => cases hrest
  | ok entries =>
      cases hrest
      exact ⟨entries, hresult, (agrees_shredAllWithin schema document _ hresult).symm, rfl⟩

end Shredding

/-! ### The columns of a projection -/

namespace Projection

open Schema (Node)
open Checked (lift_bind)

theorem columnsBelow?_eq {node : Node} {path : String} {steps : List Step}
    (hh : steps.length + node.height < 2 ^ 8) :
    columnsBelow? node path steps = some (columnsBelow node path steps) := by
  induction node using Node.inductionOn generalizing path steps with
  | leaf column type =>
      rw [Node.height] at hh
      have harrays := elements_le_length steps
      rw [columnsBelow?, Level.fit?_of_lt (by omega : Step.elements steps < 2 ^ 8),
        Level.fit?_of_lt (by omega : steps.length < 2 ^ 8)]
      rfl
  | array element ih =>
      rw [Node.height] at hh
      rw [columnsBelow?, columnsBelow]
      refine ih ?_
      rw [List.length_append, List.length_singleton]
      omega
  | object fields ih =>
      rw [Node.height] at hh
      rw [columnsBelow?, columnsBelow]
      generalize 0 = index
      induction fields generalizing index with
      | nil => rfl
      | cons f rest ihrest =>
          rcases f with ⟨name, node⟩
          rw [Node.heightOf] at hh
          have hfield : columnsBelow? node (joinPath path name) (steps ++ [.member index]) =
              some (columnsBelow node (joinPath path name) (steps ++ [.member index])) := by
            refine ih (name, node) List.mem_cons_self ?_
            show (steps ++ [Step.member index]).length + node.height < 2 ^ 8
            rw [List.length_append, List.length_singleton]
            omega
          rw [columnsOfFields?, columnsOfFields, hfield,
            ihrest (fun f hf => ih f (List.mem_cons_of_mem _ hf)) (by omega)]
          rfl

theorem ofSchema?_eq {schema : Schema} (hh : schema.root.height < 2 ^ 8) :
    ofSchema? schema = some (ofSchema schema) := by
  have hcolumns : columnsBelow? schema.root "" [] = some (columnsBelow schema.root "" []) :=
    columnsBelow?_eq (by rw [List.length_nil, Nat.zero_add]; exact hh)
  rw [Schema.root, columnsBelow?, columnsBelow] at hcolumns
  rw [ofSchema?, hcolumns]
  rfl

theorem linkSources?_eq {columns shapes : List ProjectedColumn} {full : ProjectedColumn}
    {sources : List (ProjectedColumn × Nat)} (h : ∀ s ∈ sources, s.2 < 2 ^ 8) :
    linkSources? columns shapes full sources = some (linkSources columns shapes full sources) := by
  induction sources generalizing shapes with
  | nil => rfl
  | cons source rest ih =>
      rcases source with ⟨c, depth⟩
      rcases List.forall_mem_cons.mp h with ⟨hdepth, hrest⟩
      have harrays := elements_le_length (full.steps.take depth)
      have htake := List.length_take_le depth full.steps
      rw [linkSources?, Level.fit?_of_lt hdepth,
        Level.fit?_of_lt (by omega : Step.elements (full.steps.take depth) < 2 ^ 8),
        linkSources_cons]
      simp only [Option.bind_eq_bind, Option.bind_some, ih hrest]
      rfl

theorem linkColumns?_eq {table columns shapes rest : List ProjectedColumn}
    (ht : ∀ full ∈ table, full.steps.length < 2 ^ 8) :
    linkColumns? table columns shapes rest = some (linkColumns table columns shapes rest) := by
  induction rest generalizing shapes with
  | nil => rfl
  | cons c rest ih =>
      rw [linkColumns?, linkColumns_cons]
      cases hfound : table.find? (·.column = c.column) with
      | none =>
          simp only [Option.bind_eq_bind, Option.bind_some, ih]
          rfl
      | some full =>
          have hlength := ht full (List.mem_of_find?_eq_some hfound)
          have hsources : linkSources? columns shapes full (shapeSourcesOf table full) =
              some (linkSources columns shapes full (shapeSourcesOf table full)) :=
            linkSources?_eq fun s hs => Nat.lt_trans (depth_lt_of_mem_shapeSourcesOf hs) hlength
          simp only [hsources, Option.bind_eq_bind, Option.bind_some, ih]
          rfl

theorem withShapeSources?_eq {table : Schema} (hh : table.root.height < 2 ^ 8) (p : Projection) :
    withShapeSources? p table = some (withShapeSources p table) := by
  have htable : ∀ full ∈ (ofSchema table).columns, full.steps.length < 2 ^ 8 := fun full hfull =>
    Nat.lt_of_le_of_lt (length_steps_le hfull) hh
  rw [withShapeSources?, ofSchema?_eq hh, Option.bind_eq_bind, Option.bind_some,
    linkColumns?_eq htable]
  rfl

/-- Resolving paths counts no further than the schema is deep. -/
theorem resolveWithin_eq {schema : Schema} (hh : schema.root.height < 2 ^ 8) (paths : List String) :
    resolveWithin schema paths = Checked.ofExcept (resolve schema paths) := by
  rw [resolveWithin, resolve, Checked.ofExcept_bind]
  refine congrArg _ (funext fun selection => ?_)
  have hpart : Node.heightOf (pruneFields schema.fields selection) < 2 ^ 8 :=
    Nat.lt_of_le_of_lt (Schema.heightOf_pruneFields_le schema.fields selection) hh
  have hroot : (Schema.ofFields (pruneFields schema.fields selection)).root.height < 2 ^ 8 := hpart
  rw [Schema.ofFields?_eq hpart, lift_bind, ofSchema?_eq hroot, lift_bind, withShapeSources?_eq hh]
  rfl

-- Whatever of the columns can be counted, the columns are the same.
theorem columnsBelow?_some {node : Node} {path : String} {steps : List Step}
    {columns : List ProjectedColumn} (h : columnsBelow? node path steps = some columns) :
    columns = columnsBelow node path steps := by
  induction node using Node.inductionOn generalizing path steps columns with
  | leaf column type =>
      rcases Option.bind_eq_some_iff.mp h with ⟨_, -, h⟩
      rcases Option.bind_eq_some_iff.mp h with ⟨_, -, h⟩
      exact (Option.some.inj h).symm
  | array element ih => exact ih h
  | object fields ih =>
      rw [columnsBelow?] at h
      rw [columnsBelow]
      generalize 0 = index at h ⊢
      induction fields generalizing index columns with
      | nil => exact (Option.some.inj h).symm
      | cons f rest ihrest =>
          rcases f with ⟨name, node⟩
          rcases Option.bind_eq_some_iff.mp h with ⟨here, hhere, h⟩
          rcases Option.bind_eq_some_iff.mp h with ⟨others, hothers, h⟩
          rcases Option.some.inj h with rfl
          rw [columnsOfFields, ih (name, node) List.mem_cons_self hhere,
            ihrest (fun f hf => ih f (List.mem_cons_of_mem _ hf)) _ hothers]

theorem ofSchema?_some {schema : Schema} {p : Projection} (h : ofSchema? schema = some p) :
    p = ofSchema schema := by
  rcases Option.map_eq_some_iff.mp h with ⟨columns, hcolumns, rfl⟩
  have hroot : columnsBelow? schema.root "" [] = some columns := by
    rw [Schema.root, columnsBelow?, hcolumns]
  rw [columnsBelow?_some hroot]
  rfl

theorem linkSources?_some {columns shapes : List ProjectedColumn} {full : ProjectedColumn}
    {sources : List (ProjectedColumn × Nat)} {linked : List ShapeSource × List ProjectedColumn}
    (h : linkSources? columns shapes full sources = some linked) :
    linked = linkSources columns shapes full sources := by
  induction sources generalizing shapes linked with
  | nil => exact (Option.some.inj h).symm
  | cons source rest ih =>
      rcases source with ⟨c, depth⟩
      rw [linkSources?] at h
      rw [linkSources_cons]
      generalize readIndex columns shapes c = next at h ⊢
      rcases Option.bind_eq_some_iff.mp h with ⟨level, hdepth, h⟩
      rcases Option.bind_eq_some_iff.mp h with ⟨rep, hrep, h⟩
      rcases Option.bind_eq_some_iff.mp h with ⟨others, hrest, h⟩
      rw [← Option.some.inj h, (Level.fit?_eq_some hdepth).2, (Level.fit?_eq_some hrep).2, ih hrest]

theorem linkColumns?_some {table columns shapes rest : List ProjectedColumn}
    {linked : List ProjectedColumn × List ProjectedColumn}
    (h : linkColumns? table columns shapes rest = some linked) :
    linked = linkColumns table columns shapes rest := by
  induction rest generalizing shapes linked with
  | nil => exact (Option.some.inj h).symm
  | cons c rest ih =>
      rw [linkColumns?] at h
      rw [linkColumns_cons]
      cases hfound : table.find? (·.column = c.column) with
      | none =>
          rw [hfound] at h
          rcases Option.bind_eq_some_iff.mp h with ⟨_, hnothing, h⟩
          cases hnothing
          rcases Option.bind_eq_some_iff.mp h with ⟨others, hrest, h⟩
          rw [← Option.some.inj h, ih hrest]
      | some full =>
          rw [hfound] at h
          rcases Option.bind_eq_some_iff.mp h with ⟨here, hsources, h⟩
          rcases Option.bind_eq_some_iff.mp h with ⟨others, hrest, h⟩
          rw [← Option.some.inj h, ih hrest, linkSources?_some hsources]

theorem withShapeSources?_some {p q : Projection} {table : Schema}
    (h : withShapeSources? p table = some q) : q = withShapeSources p table := by
  rcases Option.bind_eq_some_iff.mp h with ⟨whole, hwhole, h⟩
  rcases Option.bind_eq_some_iff.mp h with ⟨linked, hlinked, h⟩
  rw [ofSchema?_some hwhole] at hlinked
  rw [withShapeSources, ← linkColumns?_some hlinked]
  exact (Option.some.inj h).symm

theorem agrees_resolveWithin (schema : Schema) (paths : List String) :
    (resolveWithin schema paths).Agrees (resolve schema paths) := by
  refine (Checked.agrees_ofExcept _).bind fun selection => ?_
  have hfields : ∀ part, Schema.ofFields? (pruneFields schema.fields selection) = some part →
      part = Schema.ofFields (pruneFields schema.fields selection) := by
    intro part h
    rcases Option.map_eq_some_iff.mp h with ⟨leaves, hleaves, rfl⟩
    rw [(Schema.leaves?_eq_some_iff.mp hleaves).2]
    rfl
  refine .lift hfields (.lift (fun _ => ofSchema?_some) ?_)
  exact Checked.agrees_lift fun _ => withShapeSources?_some

end Projection

/-! ### Schemas that are grown -/

namespace Schema

/-- Schemas that come from the empty one by merging documents, each with a limit of its own up to
    a bound. -/
inductive GrownWithin (limit : Nat) : Schema → Prop where
  | empty : GrownWithin limit .empty
  | merge {schema full : Schema} {options : MergeOptions} {document : Json}
      (grown : GrownWithin limit schema) (bounded : options.maxLevel ≤ limit)
      (merged : mergeInto options schema document = .ok full) : GrownWithin limit full

theorem GrownWithin.sound {limit : Nat} {schema : Schema} (h : GrownWithin limit schema) :
    schema.Sound limit := by
  induction h with
  | empty => exact sound_empty limit
  | merge _ hl hm ih =>
      rcases Outcome.map_eq_ok.mp hm with ⟨merged, hmerge, rfl⟩
      exact ih.merge hl hmerge

/-- In a schema that was grown with limits up to 255, every level that is counted fits into eight
    bits: when its leaves are listed, when any document is taken apart, whether it fits or not, and
    when any paths are resolved. The levels of a leaf, and those that a column is read by, are the
    numbers of arrays and of steps on its way. -/
theorem GrownWithin.levels_fit {schema : Schema} (h : GrownWithin 255 schema) :
    (leaves? schema = some schema.leaves ∧ ∀ leaf ∈ schema.leaves, ∃ way,
      schema.root.at? way = some (.leaf leaf.column leaf.type) ∧
        leaf.maxRep = way.elements ∧ leaf.maxDef = way.length ∧ way.length < 2 ^ 8) ∧
    (∀ document, (Shredding.shredWithin schema document).run =
      some (Shredding.shred schema document)) ∧
    ∀ paths, (Projection.resolveWithin schema paths).run = some (Projection.resolve schema paths) ∧
      ∀ p, Projection.resolve schema paths = .ok p → ∀ c ∈ p.reads, ∃ way type,
        schema.root.at? way = some (.leaf c.column type) ∧
          c.maxRep = way.elements ∧ c.maxDef = way.length ∧ way.length < 2 ^ 8 := by
  have hs := h.sound
  have hh : schema.root.height < 2 ^ 8 := Nat.lt_succ_of_le hs.height
  refine ⟨⟨leaves?_eq hh, fun leaf hleaf => ?_⟩, fun document => ?_, fun paths => ⟨?_, ?_⟩⟩
  · rcases mem_leaves hs.names hleaf with ⟨way, hway, hrep, hdef⟩
    exact ⟨way, hway, hrep, hdef, Nat.lt_of_le_of_lt (Node.length_le_height hway) hh⟩
  · rw [Shredding.shredWithin_eq (Or.inl hh)]
    rfl
  · rw [Projection.resolveWithin_eq hh]
    rfl
  · intro p hp c hc
    rcases Projection.exists_way_of_reads hs hp c hc with ⟨way, type, hway, hrep, hdef⟩
    exact ⟨way, type, hway, hrep, hdef, Nat.lt_of_le_of_lt (Node.length_le_height hway) hh⟩

/-- A column of numbers in arrays of arrays, and one that was added under a lower limit. -/
def twofold : Schema :=
  ⟨[("a", .array (.array (.leaf 0 .integer))), ("b", .leaf 1 .boolean)], 2⟩

-- A document that is refused has gone as deep as one that fits.
theorem levels_fit_twofold :
    GrownWithin 255 twofold ∧
    leaves? twofold = some [⟨0, "a", .integer, 2, 3⟩, ⟨1, "b", .boolean, 0, 1⟩] ∧
    (Shredding.shredWithin twofold (.object [("a", .array [.array [.object []]])])).run =
      some (.error (.conflict "a" DataType.integer.name "object")) := by
  have hfirst : mergeInto ⟨.widen, 255⟩ .empty
      (.object [("a", .array [.array [.number (.whole 1)]])]) =
        .ok ⟨[("a", .array (.array (.leaf 0 .integer)))], 1⟩ := rfl
  have hsecond : mergeInto ⟨.strict, 1⟩ ⟨[("a", .array (.array (.leaf 0 .integer)))], 1⟩
      (.object [("b", .bool true)]) = .ok twofold := rfl
  have hgrown : GrownWithin 255 twofold :=
    .merge (.merge .empty (by decide) hfirst) (by decide) hsecond
  have hfit := hgrown.levels_fit
  exact ⟨hgrown, hfit.1.1.trans (by decide), (hfit.2.1 _).trans (by rfl)⟩

-- With one array more than there can be, the levels have no result.
example : leaves? ⟨[("a", Nat.repeat .array 255 (.leaf 0 .integer))], 1⟩ = none := by
  decide +kernel

end Schema

end NestedColumns
