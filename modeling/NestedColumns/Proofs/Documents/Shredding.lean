import NestedColumns.Proofs.Documents.Streams
import NestedColumns.Proofs.IdMap
import NestedColumns.Proofs.Outcome

/-!
# What shredding gives

Shredding succeeds for the documents that fit their schema, and gives each of
its columns the stream that the document has at the end of the column's way. No
other column gets an entry.

What a store keeps of a document leaves out the columns whose stream says nothing
but that the top-level field is absent. So a column without entries is either
one of these or one that the schema does not have.

## Main definitions

* `Json.Fits`: A value that a shape can take apart.
* `Shredding.ofColumn`: The entries of one column, in order.

## Theorems

* `Shredding.exists_shredNode_iff`: A value is taken apart if it fits.
* `Shredding.shreds`: The entries of each column.
* `Shredding.exists_shred_iff`, `Shredding.find?_shred`: The same for documents
  and what is stored of them.
-/

namespace NestedColumns

open Schema (Node field?)

namespace Json

mutual

/-- A value that a shape can take apart: its kinds are those of the shape, its
    columns accept its scalars, and every member that says something has a
    field. -/
def Fits : Node → Json → Prop
  | .leaf _ type, v => ∃ x, DataValue.ofJson? v = some x ∧ type.accepts x.type = true
  | .object fields, .object members =>
    (∀ m ∈ members, m.2.hasData = true → (field? fields m.1).isSome = true) ∧
      FitsFields fields members
  | .array element, .array items => ∀ v ∈ presentItems items, Fits element v
  | _, _ => False

/-- Every member that is there fits its field. -/
def FitsFields : List (String × Node) → List (String × Json) → Prop
  | [], _ => True
  | (name, node) :: rest, members =>
    (∀ v, present? members name = some v → Fits node v) ∧ FitsFields rest members

end

theorem fitsFields_iff {fields : List (String × Node)} {members : List (String × Json)} :
    FitsFields fields members ↔
      ∀ f ∈ fields, ∀ v, present? members f.1 = some v → Fits f.2 v := by
  induction fields with
  | nil => simp only [FitsFields, List.not_mem_nil, false_implies, implies_true]
  | cons f rest ih => rw [FitsFields, ih, List.forall_mem_cons]

theorem fits_object {fields : List (String × Node)} {v : Json} :
    Fits (.object fields) v ↔ ∃ members, v = .object members ∧
      (∀ m ∈ members, m.2.hasData = true → (field? fields m.1).isSome = true) ∧
        FitsFields fields members := by
  cases v <;> simp only [Fits, reduceCtorEq, false_and, exists_false, object.injEq, exists_eq_left']

theorem fits_array {element : Node} {v : Json} :
    Fits (.array element) v ↔
      ∃ items, v = .array items ∧ ∀ w ∈ presentItems items, Fits element w := by
  cases v <;> simp only [Fits, reduceCtorEq, false_and, exists_false, array.injEq, exists_eq_left']

theorem fits_leaf {column : Nat} {type : DataType} {v : Json} :
    Fits (.leaf column type) v ↔
      ∃ x, DataValue.ofJson? v = some x ∧ type.accepts x.type = true := by
  rw [Fits]

end Json

namespace Shredding

open Json (Fits FitsFields present? presentItems stream)

/-- The entries of one column, in order. -/
def ofColumn (column : Nat) (entries : Entries) : List Triple :=
  (entries.filter (·.1 = column)).map (·.2)

theorem ofColumn_nil (column : Nat) : ofColumn column [] = [] := rfl

theorem ofColumn_append (column : Nat) (a b : Entries) :
    ofColumn column (a ++ b) = ofColumn column a ++ ofColumn column b := by
  rw [ofColumn, List.filter_append, List.map_append, ofColumn, ofColumn]

theorem ofColumn_singleton (column : Nat) (e : Nat × Triple) :
    ofColumn column [e] = if e.1 = column then [e.2] else [] := by
  by_cases h : e.1 = column
  · simp only [ofColumn, h, decide_true, List.filter_cons_of_pos, List.filter_nil, List.map_cons,
      List.map_nil, if_true]
  · simp only [ofColumn, h, decide_false, Bool.false_eq_true, not_false_eq_true,
      List.filter_cons_of_neg, List.filter_nil, List.map_nil, if_false]

/-! ### When shredding succeeds -/

theorem checkCovered_eq_ok {path : List String} {fields : List (String × Node)}
    {members : List (String × Json)} :
    checkCovered path fields members = .ok () ↔
      ∀ m ∈ members, m.2.hasData = true → (field? fields m.1).isSome = true := by
  rw [checkCovered]
  split
  · next name v hfind =>
    have hfound := List.find?_some hfind
    simp only [Bool.and_eq_true, Option.isNone_iff_eq_none] at hfound
    simp only [reduceCtorEq, false_iff, not_forall]
    refine ⟨(name, v), List.mem_of_find?_eq_some hfind, hfound.1, ?_⟩
    rw [hfound.2]
    exact Bool.false_ne_true
  · next hnone =>
    simp only [true_iff]
    intro m hm hdata
    have hno := List.find?_eq_none.mp hnone m hm
    simp only [hdata, Bool.true_and, Option.isNone_iff_eq_none] at hno
    exact Option.isSome_iff_ne_none.mpr hno

theorem exists_shredLeaf_iff {path : List String} {column : Nat} {type : DataType}
    {rep level : Nat} {v : Json} :
    (∃ entries, shredLeaf path column type rep level v = .ok entries) ↔
      ∃ x, DataValue.ofJson? v = some x ∧ type.accepts x.type = true := by
  rw [shredLeaf]
  cases DataValue.ofJson? v with
  | none => simp only [reduceCtorEq, exists_false, false_and]
  | some x => by_cases h : type.accepts x.type = true <;> simp [h]

/-- The entries of a member, or of its absence. -/
def shredMember (path : List String) (name : String) (node : Node)
    (members : List (String × Json)) (rep level arrays : Nat) : Except SchemaError Entries :=
  match present? members name with
  | some v => shredNode (path ++ [name]) node rep (level + 1) arrays v
  | none => .ok (absentBelow node rep level)

theorem shredFields_cons_eq_ok {path : List String} {name : String} {node : Node}
    {rest : List (String × Node)} {members : List (String × Json)} {rep level arrays : Nat}
    {entries : Entries} :
    shredFields path ((name, node) :: rest) members rep level arrays = .ok entries ↔
      ∃ here others, shredMember path name node members rep level arrays = .ok here ∧
        shredFields path rest members rep level arrays = .ok others ∧ entries = here ++ others := by
  have hbind : shredFields path ((name, node) :: rest) members rep level arrays =
      shredMember path name node members rep level arrays >>= fun here =>
        shredFields path rest members rep level arrays >>= fun others => .ok (here ++ others) := by
    rw [shredFields, shredMember, present?]
    cases (Json.member? members name).filter (!·.isNull) <;> rfl
  rw [hbind, Outcome.bind_eq_ok]
  constructor
  · rintro ⟨here, hhere, h⟩
    rcases Outcome.bind_eq_ok.mp h with ⟨others, hothers, h⟩
    rw [Except.ok.injEq] at h
    exact ⟨here, others, hhere, hothers, h.symm⟩
  · rintro ⟨here, others, hhere, hothers, rfl⟩
    exact ⟨here, hhere, Outcome.bind_eq_ok.mpr ⟨others, hothers, rfl⟩⟩

theorem exists_shredFields_iff {fields : List (String × Node)} {members : List (String × Json)}
    (hf : ∀ f ∈ fields, ∀ path rep level arrays v,
      (∃ entries, shredNode path f.2 rep level arrays v = .ok entries) ↔ Fits f.2 v)
    (path : List String) (rep level arrays : Nat) :
    (∃ entries, shredFields path fields members rep level arrays = .ok entries) ↔
      FitsFields fields members := by
  induction fields with
  | nil => simp only [shredFields, Except.ok.injEq, exists_eq', FitsFields]
  | cons f rest ih =>
      rcases f with ⟨name, node⟩
      have hrest := ih fun f hm => hf f (List.mem_cons_of_mem _ hm)
      have hnode := hf (name, node) List.mem_cons_self
      rw [FitsFields, ← hrest]
      constructor
      · rintro ⟨entries, h⟩
        rcases shredFields_cons_eq_ok.mp h with ⟨here, others, hhere, hothers, -⟩
        refine ⟨fun v hv => ?_, ⟨others, hothers⟩⟩
        rw [shredMember, hv] at hhere
        exact (hnode _ _ _ _ v).mp ⟨here, hhere⟩
      · rintro ⟨hfits, others, hothers⟩
        have hmember : ∃ here, shredMember path name node members rep level arrays = .ok here := by
          rw [shredMember]
          cases hv : present? members name with
          | none => exact ⟨_, rfl⟩
          | some v => exact (hnode _ _ _ _ v).mpr (hfits v hv)
        rcases hmember with ⟨here, hhere⟩
        exact ⟨_, shredFields_cons_eq_ok.mpr ⟨here, others, hhere, hothers, rfl⟩⟩

/-- A value is taken apart if it fits. -/
theorem exists_shredNode_iff (node : Node) (path : List String) (rep level arrays : Nat)
    (v : Json) :
    (∃ entries, shredNode path node rep level arrays v = .ok entries) ↔ Fits node v := by
  induction node using Node.inductionOn generalizing path rep level arrays v with
  | leaf column type =>
      rw [Fits]
      cases v <;> exact exists_shredLeaf_iff
  | object fields ih =>
      cases v with
      | object members =>
          have hcover : checkCovered path fields members = .ok () ↔ _ := checkCovered_eq_ok
          rw [shredNode, Fits, ← hcover, ← exists_shredFields_iff ih path rep level arrays]
          constructor
          · rintro ⟨entries, h⟩
            rcases Outcome.bind_eq_ok.mp h with ⟨_, hcovered, hfields⟩
            exact ⟨hcovered, entries, hfields⟩
          · rintro ⟨hcovered, entries, h⟩
            exact ⟨entries, Outcome.bind_eq_ok.mpr ⟨_, hcovered, h⟩⟩
      | null | bool | number | string | array =>
          simp only [shredNode, reduceCtorEq, exists_false, Fits]
  | array element ih =>
      cases v with
      | array items =>
          rw [shredNode, Fits, presentItems]
          cases items.filter (!·.isNull) with
          | nil => simp only [Except.ok.injEq, exists_eq', List.not_mem_nil, false_implies,
              implies_true]
          | cons first others =>
              constructor
              · rintro ⟨entries, h⟩ w hw
                rcases Outcome.bind_eq_ok.mp h with ⟨start, hstart, h⟩
                rcases Outcome.bind_eq_ok.mp h with ⟨repeated, hrepeated, -⟩
                rcases List.mem_cons.mp hw with rfl | hw
                · exact (ih _ _ _ _ _).mp ⟨start, hstart⟩
                · rcases Outcome.forall_of_mapM_ok hrepeated w hw with ⟨part, hpart⟩
                  exact (ih _ _ _ _ _).mp ⟨part, hpart⟩
              · intro hfits
                rcases (ih path rep (level + 1) (arrays + 1) first).mpr
                  (hfits first List.mem_cons_self) with ⟨start, hstart⟩
                have hothers : ∀ w ∈ others, ∃ part,
                    shredNode path element (arrays + 1) (level + 1) (arrays + 1) w = .ok part :=
                  fun w hw => (ih _ _ _ _ w).mpr (hfits w (List.mem_cons_of_mem _ hw))
                rcases Outcome.exists_mapM_ok hothers with ⟨repeated, hrepeated⟩
                exact ⟨_, Outcome.bind_eq_ok.mpr ⟨_, hstart,
                  Outcome.bind_eq_ok.mpr ⟨_, hrepeated, rfl⟩⟩⟩
      | null | bool | number | string | object =>
          simp only [shredNode, reduceCtorEq, exists_false, Fits]

/-! ### The entries of each column -/

theorem ofColumn_absentBelow_of_not_mem {node : Node} {column : Nat}
    (h : column ∉ node.columns) (rep level : Nat) :
    ofColumn column (absentBelow node rep level) = [] := by
  induction node using Node.inductionOn with
  | leaf c type =>
      rw [Node.columns, List.mem_singleton] at h
      rw [absentBelow, ofColumn_singleton, if_neg (Ne.symm h)]
  | array element ih => exact ih h
  | object fields ih =>
      rw [absentBelow]
      rw [Node.columns] at h
      induction fields with
      | nil => rfl
      | cons f rest ihrest =>
          rcases f with ⟨name, node⟩
          rw [Node.columnsOf, List.mem_append, not_or] at h
          rw [absentFields, ofColumn_append, ih _ List.mem_cons_self h.1,
            ihrest (fun f hf => ih f (List.mem_cons_of_mem _ hf)) h.2, List.append_nil]

/-- Every column below an absent part gets one entry. -/
theorem ofColumn_absentBelow {node : Node} (hd : node.columns.Nodup) {column : Nat}
    (h : column ∈ node.columns) (rep level : Nat) :
    ofColumn column (absentBelow node rep level) = [.absent rep level] := by
  induction node using Node.inductionOn with
  | leaf c type =>
      rw [Node.columns, List.mem_singleton] at h
      rw [absentBelow, ofColumn_singleton, if_pos h.symm]
  | array element ih => exact ih hd h
  | object fields ih =>
      rw [absentBelow]
      rw [Node.columns] at h hd
      induction fields with
      | nil => exact absurd h List.not_mem_nil
      | cons f rest ihrest =>
          rcases f with ⟨name, node⟩
          rw [Node.columnsOf, List.nodup_append] at hd
          rw [absentFields, ofColumn_append]
          rcases List.mem_append.mp h with hn | hr
          · have hother : column ∉ (Node.object rest).columns := fun hc => hd.2.2 _ hn _ hc rfl
            have hrest : ofColumn column (absentFields rest rep level) = [] :=
              ofColumn_absentBelow_of_not_mem hother rep level
            rw [ih _ List.mem_cons_self hd.1 hn, hrest, List.append_nil]
          · have hother : column ∉ node.columns := fun hc => hd.2.2 _ hc _ hr rfl
            rw [ofColumn_absentBelow_of_not_mem hother, List.nil_append]
            exact ihrest (fun f hf => ih f (List.mem_cons_of_mem _ hf)) hd.2.1 hr

/-- The entries of values taken apart by a shape: each of its columns has the stream
    of the value at the end of its way, and no other column has entries. Columns are told
    apart by their places, since fields may share a name. -/
structure Shreds (node : Node) (v : Json) (rep level arrays : Nat) (entries : Entries) : Prop where
  others : ∀ column, column ∉ node.columns → ofColumn column entries = []
  streams : ∀ steps way column type, node.along? steps = some (way, .leaf column type) →
    ofColumn column entries = stream DataValue.ofJson? way v rep level arrays

theorem shreds_fields {fields : List (String × Node)} {members : List (String × Json)}
    (hd : (Node.columnsOf fields).Nodup)
    (hf : ∀ f ∈ fields, ∀ path rep level arrays v entries,
      shredNode path f.2 rep level arrays v = .ok entries → Shreds f.2 v rep level arrays entries)
    {path : List String} {rep level arrays : Nat} {entries : Entries}
    (h : shredFields path fields members rep level arrays = .ok entries) :
    (∀ column, column ∉ Node.columnsOf fields → ofColumn column entries = []) ∧
      ∀ f ∈ fields, ∀ steps way column type,
        f.2.along? steps = some (way, .leaf column type) → ofColumn column entries =
          stream DataValue.ofJson? (.member f.1 :: way) (.object members) rep level arrays := by
  induction fields generalizing entries with
  | nil =>
      rw [shredFields, Except.ok.injEq] at h
      rw [← h]
      exact ⟨fun _ _ => rfl, fun f hm => absurd hm List.not_mem_nil⟩
  | cons f rest ih =>
      rcases f with ⟨name, node⟩
      rw [Node.columnsOf, List.nodup_append] at hd
      rcases shredFields_cons_eq_ok.mp h with ⟨here, others, hhere, hothers, rfl⟩
      rcases ih hd.2.1 (fun f hm => hf f (List.mem_cons_of_mem _ hm)) hothers with ⟨hno, hstreams⟩
      -- A member that is absent leaves one entry in each of its columns.
      have hmember : (∀ column, column ∉ node.columns → ofColumn column here = []) ∧
          ∀ steps way column type, node.along? steps = some (way, .leaf column type) →
            ofColumn column here =
              stream DataValue.ofJson? (.member name :: way) (.object members) rep level arrays := by
        rw [shredMember] at hhere
        cases hv : present? members name with
        | none =>
            rw [hv, Except.ok.injEq] at hhere
            rw [← hhere]
            refine ⟨fun c hc => ofColumn_absentBelow_of_not_mem hc _ _,
              fun steps way c type hw => ?_⟩
            rw [stream, hv, ofColumn_absentBelow hd.1 (Node.mem_columns_of_along? hw)]
        | some v =>
            rw [hv] at hhere
            have hall := hf (name, node) List.mem_cons_self _ _ _ _ _ _ hhere
            refine ⟨hall.others, fun steps way c type hw => ?_⟩
            rw [stream, hv]
            exact hall.streams steps way c type hw
      constructor
      · intro column hc
        rw [Node.columnsOf, List.mem_append, not_or] at hc
        rw [ofColumn_append, hmember.1 column hc.1, hno column hc.2, List.append_nil]
      · intro f hm steps way column type hw
        rw [ofColumn_append]
        rcases List.mem_cons.mp hm with rfl | hm
        · have hother : column ∉ Node.columnsOf rest := fun hc =>
            hd.2.2 _ (Node.mem_columns_of_along? hw) _ hc rfl
          rw [hmember.2 steps way column type hw, hno column hother, List.append_nil]
        · have hother : column ∉ node.columns := fun hc =>
            hd.2.2 _ hc _ (Node.mem_columnsOf.mpr ⟨f, hm, Node.mem_columns_of_along? hw⟩) rfl
          rw [hmember.1 column hother, List.nil_append]
          exact hstreams f hm steps way column type hw

theorem ofColumn_flatten {column : Nat} {f : Json → List Triple} {items : List Json}
    {parts : List Entries} (h : List.Forall₂ (fun v part => ofColumn column part = f v) items parts) :
    ofColumn column parts.flatten = items.flatMap f := by
  induction h with
  | nil => rfl
  | cons hpart _ ih => rw [List.flatten_cons, ofColumn_append, hpart, ih, List.flatMap_cons]

theorem along?_of_array {element : Node} {steps : List Step} {way : Way} {column : Nat}
    {type : DataType} (h : (Node.array element).along? steps = some (way, .leaf column type)) :
    ∃ further inner, way = .element :: inner ∧
      element.along? further = some (inner, .leaf column type) := by
  cases steps with
  | nil =>
      rcases Node.along?_nil_some h with ⟨-, hleaf⟩
      cases hleaf
  | cons step steps =>
      rcases Node.along?_cons_some h with ⟨_, _, _, _, _, hobj, -⟩ | ⟨_, inner, hobj, -, hr, rfl⟩
      · cases hobj
      · cases hobj
        exact ⟨steps, inner, rfl, hr⟩

theorem shreds_leaf {path : List String} {column rep level : Nat} {type : DataType} {v : Json}
    {entries : Entries} (h : shredLeaf path column type rep level v = .ok entries) (arrays : Nat) :
    Shreds (.leaf column type) v rep level arrays entries := by
  rw [shredLeaf] at h
  split at h
  · next x hx =>
    split at h
    · rw [Except.ok.injEq] at h
      rw [← h]
      constructor
      · intro c hc
        rw [Node.columns, List.mem_singleton] at hc
        rw [ofColumn_singleton, if_neg (Ne.symm hc)]
      · intro steps way c t hw
        cases steps with
        | nil =>
            rcases Node.along?_nil_some hw with ⟨rfl, hleaf⟩
            cases hleaf
            rw [ofColumn_singleton, if_pos rfl, stream, hx]
        | cons step steps => cases step <;> simp only [Node.along?, reduceCtorEq] at hw
    · simp only [reduceCtorEq] at h
  · simp only [reduceCtorEq] at h

-- Columns of an array without items have the entry of an absent part.
theorem shreds_none {element : Node} (hd : element.columns.Nodup) {items : List Json}
    (hitems : presentItems items = []) (rep level arrays : Nat) :
    Shreds (.array element) (.array items) rep level arrays (absentBelow element rep level) := by
  refine ⟨fun c hc => ofColumn_absentBelow_of_not_mem hc _ _, fun steps way c t hw => ?_⟩
  rcases along?_of_array hw with ⟨further, inner, rfl, hr⟩
  rw [stream, hitems]
  exact ofColumn_absentBelow hd (Node.mem_columns_of_along? hr) _ _

-- Columns of an array have the entries of its items one after another.
theorem shreds_items {element : Node} {items others : List Json} {first : Json} {start : Entries}
    {repeated : List Entries} {rep level arrays : Nat} (hitems : presentItems items = first :: others)
    (hfirst : Shreds element first rep (level + 1) (arrays + 1) start)
    (hothers : List.Forall₂ (fun v part =>
      Shreds element v (arrays + 1) (level + 1) (arrays + 1) part) others repeated) :
    Shreds (.array element) (.array items) rep level arrays (start ++ repeated.flatten) := by
  constructor
  · intro c hc
    have hnone := ofColumn_flatten (f := fun _ => []) (hothers.imp fun _ _ hp => hp.others c hc)
    rw [ofColumn_append, hfirst.others c hc, hnone,
      List.flatMap_eq_nil_iff.mpr fun _ _ => rfl, List.append_nil]
  · intro steps way c t hw
    rcases along?_of_array hw with ⟨further, inner, rfl, hr⟩
    have hrest := hothers.imp fun _ _ hp => hp.streams further inner c t hr
    rw [ofColumn_append, hfirst.streams further inner c t hr, ofColumn_flatten hrest, stream, hitems]

/-- The entries of each column. -/
theorem shreds {node : Node} (hd : node.columns.Nodup) {path : List String}
    {rep level arrays : Nat} {v : Json} {entries : Entries}
    (h : shredNode path node rep level arrays v = .ok entries) :
    Shreds node v rep level arrays entries := by
  induction node using Node.inductionOn generalizing path rep level arrays v entries with
  | leaf column type =>
      have hleaf : shredLeaf path column type rep level v = .ok entries := by
        cases v <;> exact h
      exact shreds_leaf hleaf arrays
  | object fields ih =>
      cases v with
      | object members =>
          rw [shredNode] at h
          rcases Outcome.bind_eq_ok.mp h with ⟨_, -, hfields⟩
          rcases shreds_fields hd (fun f hf _ _ _ _ _ _ => ih f hf (Node.nodup_of_mem hd hf))
            hfields with ⟨hno, hstreams⟩
          refine ⟨hno, fun steps way c t hw => ?_⟩
          cases steps with
          | nil =>
              rcases Node.along?_nil_some hw with ⟨-, hleaf⟩
              cases hleaf
          | cons step steps =>
              rcases Node.along?_cons_some hw with ⟨_, _, name, next, rest, hobj, -, hf, hr, rfl⟩ |
                ⟨_, _, hobj, -⟩
              · cases hobj
                exact hstreams _ (List.mem_of_getElem? hf) steps rest c t hr
              · cases hobj
      | null | bool | number | string | array => simp only [shredNode, reduceCtorEq] at h
  | array element ih =>
      have helement : element.columns.Nodup := hd
      cases v with
      | array items =>
          rw [shredNode] at h
          cases hitems : items.filter (!·.isNull) with
          | nil =>
              rw [hitems, Except.ok.injEq] at h
              rw [← h]
              exact shreds_none helement hitems rep level arrays
          | cons first others =>
              rw [hitems] at h
              rcases Outcome.bind_eq_ok.mp h with ⟨start, hstart, hothers⟩
              rcases Outcome.bind_eq_ok.mp hothers with ⟨repeated, hrepeated, hentries⟩
              simp only [pure, Except.pure, Except.ok.injEq] at hentries
              rw [← hentries]
              exact shreds_items hitems (ih helement hstart)
                ((Outcome.mapM_eq_ok.mp hrepeated).imp fun _ _ hp => ih helement hp)
      | null | bool | number | string | object => simp only [shredNode, reduceCtorEq] at h

/-! ### Documents -/

theorem find?_addEntries (entries : Entries) (columns : Streams) (column : Nat) :
    (entries.foldl (fun columns (column, triple) =>
      columns.insert column ((columns.find? column).getD [] ++ [triple])) columns).find? column =
      if ofColumn column entries = [] then columns.find? column
      else some ((columns.find? column).getD [] ++ ofColumn column entries) := by
  induction entries generalizing columns with
  | nil => rw [List.foldl_nil, ofColumn_nil, if_pos rfl]
  | cons e rest ih =>
      rcases e with ⟨c, t⟩
      have hcons : ofColumn column ((c, t) :: rest) =
          (if c = column then [t] else []) ++ ofColumn column rest := by
        rw [← List.singleton_append, ofColumn_append, ofColumn_singleton]
      rw [List.foldl_cons, ih, IdMap.find?_insert, hcons]
      by_cases hc : c = column
      · subst hc
        rw [if_pos rfl, if_pos rfl, Option.getD_some, List.singleton_append,
          if_neg (List.cons_ne_nil _ _)]
        split
        · next h => rw [h]
        · rw [List.append_assoc, List.singleton_append]
      · rw [if_neg hc, if_neg hc, List.nil_append]

/-- The stream of a column is that of its entries. -/
theorem find?_toStreams (entries : Entries) (column : Nat) :
    (toStreams entries).find? column =
      if ofColumn column entries = [] then none else some (ofColumn column entries) := by
  rw [toStreams, find?_addEntries, IdMap.find?_empty, Option.getD_none, List.nil_append]

/-- A document is taken apart if it fits. -/
theorem exists_shred_iff {schema : Schema} {document : Json} :
    (∃ streams, shred schema document = .ok streams) ↔ Fits (.object schema.fields) document := by
  have hnode : ∀ members, shredAll schema (.object members) =
      shredNode [] (.object schema.fields) 0 0 0 (.object members) := fun _ => rfl
  cases document with
  | object members =>
      rw [← exists_shredNode_iff _ [] 0 0 0, ← hnode]
      constructor
      · rintro ⟨streams, h⟩
        rcases Outcome.map_eq_ok.mp h with ⟨entries, hentries, -⟩
        exact ⟨entries, hentries⟩
      · rintro ⟨entries, h⟩
        exact ⟨_, Outcome.map_eq_ok.mpr ⟨entries, h, rfl⟩⟩
  | null | bool | number | string | array =>
      simp only [shred, shredAll, Except.map, reduceCtorEq, exists_false, Fits]

/-- What a store keeps of a stream. -/
def touched (stream : List Triple) : Option (List Triple) :=
  if isUntouched stream then none else some stream

/-- A stream says something if the document has the top-level member. -/
theorem touched_member (value : Json → Option DataValue) (name : String) (way : Way)
    (members : List (String × Json)) :
    touched (stream value (.member name :: way) (.object members) 0 0 0) =
      (present? members name).map fun _ =>
        stream value (.member name :: way) (.object members) 0 0 0 := by
  rw [stream]
  cases present? members name with
  | none => rfl
  | some v =>
      rcases Json.stream_eq_cons value way v 0 1 0 with ⟨t, rest, heq, -, hlevel, -⟩
      have hne : stream value way v 0 1 0 ≠ [.absent 0 0] := by
        rw [heq]
        intro h
        rw [List.cons.injEq] at h
        rw [h.1, Triple.absent] at hlevel
        exact absurd hlevel (by decide)
      have htells : isUntouched (stream value way v 0 1 0) = false := beq_eq_false_iff_ne.mpr hne
      rw [touched, htells]
      rfl

-- A document that is taken apart gives each leaf its stream.
theorem shreds_document {schema : Schema} (hd : (Node.object schema.fields).columns.Nodup)
    {document : Json} {entries : Entries} (h : shredAll schema document = .ok entries) :
    Shreds (.object schema.fields) document 0 0 0 entries := by
  cases document with
  | object members =>
      have hnode : shredNode [] (.object schema.fields) 0 0 0 (.object members) = .ok entries := h
      exact shreds hd hnode
  | null | bool | number | string | array => simp only [shredAll, reduceCtorEq] at h

theorem find?_shred_along {schema : Schema} (hd : (Node.object schema.fields).columns.Nodup)
    {document : Json} {streams : Streams} (h : shred schema document = .ok streams)
    {steps : List Step} {way : Way} {column : Nat} {type : DataType}
    (hw : (Node.object schema.fields).along? steps = some (way, .leaf column type)) :
    streams.find? column = touched (stream DataValue.ofJson? way document 0 0 0) := by
  rcases Outcome.map_eq_ok.mp h with ⟨entries, hentries, rfl⟩
  rw [IdMap.find?_filter, find?_toStreams, (shreds_document hd hentries).streams _ _ _ _ hw,
    if_neg (Json.stream_ne_nil _ _ _ _ _ _), touched, Option.filter_some]
  cases isUntouched (stream DataValue.ofJson? way document 0 0 0) <;> rfl

/-- Of a document that is taken apart, the streams that say something are stored. -/
theorem find?_shred {schema : Schema} (hd : (Node.object schema.fields).columns.Nodup)
    {document : Json} {streams : Streams} (h : shred schema document = .ok streams) :
    (∀ column, column ∉ (Node.object schema.fields).columns → streams.find? column = none) ∧
      ∀ way column type, (Node.object schema.fields).at? way = some (.leaf column type) →
        streams.find? column = touched (stream DataValue.ofJson? way document 0 0 0) := by
  constructor
  · intro column hc
    rcases Outcome.map_eq_ok.mp h with ⟨entries, hentries, rfl⟩
    rw [IdMap.find?_filter, find?_toStreams, if_pos ((shreds_document hd hentries).others column hc),
      Option.filter_none]
  · intro way column type hw
    rcases Node.exists_along? hw with ⟨steps, hsteps⟩
    exact find?_shred_along hd h hsteps

end Shredding

end NestedColumns
