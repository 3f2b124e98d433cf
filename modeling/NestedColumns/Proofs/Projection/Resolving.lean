import NestedColumns.Proofs.Projection.Levels
import NestedColumns.Proofs.Projection.Walks
import NestedColumns.Proofs.Schema.Leaves

/-!
# The union of paths

A path names a field if there is a way through the schema on which its names are met, one
after another, with any arrays in between. A path that names none is refused. Else what a
projection has of a schema is said by the ways of the schema alone: a leaf is projected if
it is at or below a field that some path names.

## Main definitions

* `Projection.NamesField`: A path that names a field.
* `Projection.AtOrBelow`, `Projection.Kept`: What is asked for, and what is in the schema of
  a projection for it.
* `Projection.Covers`: Paths at or below others.
* `Projection.UnionOf`: What a projection is to its paths.

## Theorems

* `Projection.exists_leads_iff`: The paths that are found are those that name a field.
* `Projection.keeps_iff`: A field is kept by the names of its way.
* `Projection.map_fst_asked`: Fields come in the order in which paths mention them first.
* `Projection.leaf_asked_iff`: The leaves that are asked for.
* `Projection.unionOf_toFields`: A projection is the union of its paths.
* `Projection.kept_of_covers`: Paths below others keep nothing more.
* `Projection.exists_unionOf`: Paths that name fields are resolved.
* `Projection.resolve_union`: Paths are resolved to their union.
-/

namespace NestedColumns

namespace Projection

open Schema (Node field?)

/-- The first name of a path. -/
def firstName (path : String) : String :=
  (segments path).headD ""

/-- A path names a field: its names are met on some way, and none of them is empty. -/
def NamesField (schema : Schema) (path : String) : Prop :=
  "" ∉ segments path ∧ ∃ way node, schema.root.at? way = some node ∧ way.names = segments path

/-- What is at the end of a way is at or below a field that some path names. -/
def AtOrBelow (paths : List String) (way : Way) : Prop :=
  ∃ path ∈ paths, segments path <+: way.names

/-- What is at the end of a way is at or below such a field, or on the way to one. -/
def Kept (paths : List String) (way : Way) : Prop :=
  ∃ path ∈ paths, segments path <+: way.names ∨ way.names <+: segments path

/-- Each of the paths is at or below one of the others. -/
def Covers (others paths : List String) : Prop :=
  ∀ path ∈ paths, ∃ other ∈ others, segments other <+: segments path

instance (others paths : List String) : Decidable (Covers others paths) :=
  inferInstanceAs (Decidable (∀ path ∈ paths, ∃ other ∈ others, segments other <+: segments path))

/-- What a projection is to paths that all name fields of a table; to no path at all, it is
    the whole table. -/
structure UnionOf (schema : Schema) (paths : List String) (p : Projection) : Prop where
  /-- Fields of the document come in the order in which paths mention them first. -/
  order : p.schema.fields.map (·.1) =
    if paths = [] then schema.fields.map (·.1) else (paths.map firstName).eraseDups
  /-- Fields below them keep the order that they have in the table. -/
  nested : ∀ way kept, way ≠ [] → p.schema.root.at? way = some (.object kept) →
    ∃ whole, schema.root.at? way = some (.object whole) ∧
      (kept.map (·.1)).Sublist (whole.map (·.1))
  /-- Columns come in the order of the schema of the projection. -/
  listed : p.columns.map (·.column) = p.schema.root.columns
  /-- Each column is a leaf at or below some path, with its own number, type and levels, and
      its steps lead to it in the schema of the projection. -/
  leaf : ∀ c ∈ p.columns, ∃ way, schema.root.at? way = some (.leaf c.column c.type) ∧
    (paths = [] ∨ AtOrBelow paths way) ∧
    p.schema.root.along? c.steps = some (way, .leaf c.column c.type) ∧
    c.maxRep = way.elements ∧ c.maxDef = way.length
  /-- Each leaf at or below some path is a column. -/
  complete : ∀ way column type, schema.root.at? way = some (.leaf column type) →
    (paths = [] ∨ AtOrBelow paths way) → ∃ c ∈ p.columns, c.column = column
  /-- No leaf is projected twice. -/
  once : (p.columns.map (·.column)).Nodup

variable {fields : List (String × Node)} {paths : List String} {places : List (List Nat)}

/-! ### Finding fields -/

/-- Cutting at dots is splitting on them. -/
theorem splitDots_eq_splitOn (text : List Char) : splitDots text = text.splitOn '.' := by
  induction text with
  | nil => rfl
  | cons c rest ih =>
      rw [splitDots, ih, List.splitOn_cons_eq_if_modifyHead]
      simp only [beq_iff_eq]
      by_cases hc : c = '.'
      · rw [if_pos hc, if_pos hc]
      · rw [if_neg hc, if_neg hc]
        cases hrest : rest.splitOn '.' with
        | nil => exact absurd hrest (List.splitOn_ne_nil _ _)
        | cons segment others => rfl

theorem segments_ne_nil (path : String) : segments path ≠ [] := by
  rw [segments, splitDots_eq_splitOn, ne_eq, List.map_eq_nil_iff]
  exact List.splitOn_ne_nil _ _

/-- What the first step of a lookup finds. -/
theorem lookup_cons_eq_some {name : String} {rest : List String} {found : List Nat} :
    lookup fields (name :: rest) = some found ↔ name ≠ "" ∧ ∃ index node,
      fields.findIdx? (·.1 = name) = some index ∧ fields[index]? = some (name, node) ∧
      ((rest = [] ∧ found = [index]) ∨ (rest ≠ [] ∧ ∃ inner more, node.objectFields? = some inner ∧
        lookup inner rest = some more ∧ found = index :: more)) := by
  rw [lookup]
  by_cases hname : name = ""
  · simp [hname]
  · have hempty : name.isEmpty = false := by simpa using hname
    rw [hempty, if_neg Bool.false_ne_true]
    cases hfind : fields.findIdx? (·.1 = name) with
    | none => simp
    | some index =>
        rcases List.findIdx?_eq_some_iff_getElem.mp hfind with ⟨hlt, hat, -⟩
        rw [decide_eq_true_eq] at hat
        have hget : fields[index]? = some (name, fields[index].2) :=
          List.getElem?_eq_some_iff.mpr ⟨hlt, Prod.ext hat rfl⟩
        cases rest with
        | nil => simp [hname, hget, eq_comm]
        | cons second others =>
            simp [hname, hget, Option.bind_eq_some_iff, @eq_comm _ found]

/-- A lookup that finds something goes along a way of the names. -/
theorem exists_along?_of_lookup {names : List String} {found : List Nat}
    (h : lookup fields names = some found) :
    "" ∉ names ∧ ∃ steps way last, (Node.object fields).along? steps = some (way, last) ∧
      way.names = names ∧ Step.members steps = found := by
  induction names generalizing fields found with
  | nil =>
      rw [lookup, Option.some.injEq] at h
      exact ⟨List.not_mem_nil, [], [], .object fields, rfl, rfl, h⟩
  | cons name rest ih =>
      rcases lookup_cons_eq_some.mp h with ⟨hname, index, node, -, hget, hrest⟩
      rcases hrest with ⟨rfl, rfl⟩ | ⟨-, inner, more, hinner, hmore, rfl⟩
      · refine ⟨by simpa using Ne.symm hname, [.member index], [.member name], node, ?_, rfl, rfl⟩
        simp only [Node.along?, hget, Option.map_some]
      · rcases ih hmore with ⟨hnames, steps, way, last, hsteps, hway, hmembers⟩
        rcases Node.exists_along?_of_objectFields? hinner hsteps with
          ⟨steps', way', hsteps', hway', hmembers'⟩
        refine ⟨by simp [Ne.symm hname, hnames], .member index :: steps', .member name :: way',
          last, ?_, ?_, ?_⟩
        · simp only [Node.along?, hget, hsteps', Option.map_some]
        · rw [Way.names_member, hway', hway]
        · rw [Step.members_member, hmembers', hmembers]

/-- Names that are met on a way are found. -/
theorem exists_lookup_of_at? {way : Way} {last : Node}
    (hw : (Node.object fields).at? way = some last) (hn : "" ∉ way.names) :
    ∃ found, lookup fields way.names = some found := by
  induction hlen : way.names generalizing fields way with
  | nil => exact ⟨[], rfl⟩
  | cons name rest ih =>
      rcases Node.at?_object_some.mp hw with ⟨rfl, -⟩ | ⟨_, way, node, rfl, hf, hrest⟩
      · simp only [Way.names_nil, reduceCtorEq] at hlen
      · rw [Way.names_member, List.cons.injEq] at hlen
        rcases hlen with ⟨rfl, hlen⟩
        rw [Way.names_member, List.mem_cons, not_or] at hn
        rcases Schema.field?_eq_some_iff.mp hf with ⟨index, hindex, hget⟩
        by_cases hempty : rest = []
        · exact ⟨[index], lookup_cons_eq_some.mpr
            ⟨Ne.symm hn.1, index, node, hindex, hget, Or.inl ⟨hempty, rfl⟩⟩⟩
        · rcases Node.exists_objectFields? hrest (hlen ▸ hempty) with
            ⟨inner, way', hinner, hat, hnames⟩
          rcases ih hat (hnames ▸ hn.2) (hnames.trans hlen) with ⟨more, hmore⟩
          exact ⟨index :: more, lookup_cons_eq_some.mpr ⟨Ne.symm hn.1, index, node, hindex, hget,
            Or.inr ⟨hempty, inner, more, hinner, hmore, rfl⟩⟩⟩

/-- The paths that are found are those that name a field. -/
theorem exists_leads_iff {schema : Schema} (hu : schema.root.NamesUnique) {path : String} :
    (∃ found, Leads schema.fields path found) ↔ NamesField schema path := by
  constructor
  · rintro ⟨found, h⟩
    rcases exists_along?_of_lookup h with ⟨hn, steps, way, last, hsteps, hnames, -⟩
    exact ⟨hn, way, last, Node.at?_of_along? hu hsteps, hnames⟩
  · rintro ⟨hn, way, node, hway, hnames⟩
    rcases exists_lookup_of_at? hway (hnames ▸ hn) with ⟨found, hfound⟩
    refine ⟨found, ?_⟩
    rw [Leads, ← hnames, hfound]

theorem leads_of_mem (h : List.Forall₂ (Leads fields) paths places) :
    ∀ path ∈ paths, ∃ found, Leads fields path found := by
  induction h with
  | nil => exact fun path hpath => absurd hpath List.not_mem_nil
  | cons hfound _ ih => exact List.forall_mem_cons.mpr ⟨⟨_, hfound⟩, ih⟩

theorem exists_leads (h : ∀ path ∈ paths, ∃ found, Leads fields path found) :
    ∃ places, List.Forall₂ (Leads fields) paths places := by
  induction paths with
  | nil => exact ⟨[], .nil⟩
  | cons path rest ih =>
      rcases List.forall_mem_cons.mp h with ⟨⟨found, hfound⟩, hrest⟩
      rcases ih hrest with ⟨places, hplaces⟩
      exact ⟨found :: places, .cons hfound hplaces⟩

/-! ### What is kept -/

theorem ne_nil_of_leads (h : List.Forall₂ (Leads fields) paths places) : [] ∉ places := by
  induction h with
  | nil => exact List.not_mem_nil
  | @cons path found _ _ hfound _ ih =>
      rw [List.mem_cons, not_or]
      refine ⟨?_, ih⟩
      rintro rfl
      -- A path has a first name, so there is a first place.
      rcases exists_along?_of_lookup hfound with ⟨-, steps, way, last, hsteps, hnames, hmembers⟩
      have hlength := Node.length_members hsteps
      rw [hmembers, hnames, List.length_nil] at hlength
      exact segments_ne_nil path (List.length_eq_zero_iff.mp hlength.symm)

/-- A field is kept by the names of its way. -/
theorem keeps_iff (hu : (Node.object fields).NamesUnique)
    (h : List.Forall₂ (Leads fields) paths places) {steps : List Step} {way : Way} {last : Node}
    (hw : (Node.object fields).along? steps = some (way, last)) :
    keeps places (Step.members steps) = true ↔ Kept paths way := by
  induction h with
  | nil => simp [keeps, Kept]
  | @cons path found _ _ hfound _ ih =>
      rcases exists_along?_of_lookup hfound with ⟨-, steps', way', last', hsteps', hnames, hmembers⟩
      rw [keeps, List.any_cons, ← keeps, Bool.or_eq_true, ih, Bool.or_eq_true,
        List.isPrefixOf_iff_prefix, List.isPrefixOf_iff_prefix, ← hmembers,
        Node.members_prefix_iff hu hsteps' hw, Node.members_prefix_iff hu hw hsteps', hnames]
      simp only [Kept, List.mem_cons, exists_eq_or_imp]

-- A path that goes beyond a leaf would name a field there.
theorem atOrBelow_of_kept (hu : (Node.object fields).NamesUnique)
    (h : List.Forall₂ (Leads fields) paths places) {steps : List Step} {way : Way} {column : Nat}
    {type : DataType} (hw : (Node.object fields).along? steps = some (way, .leaf column type)) :
    Kept paths way ↔ AtOrBelow paths way := by
  constructor
  · rintro ⟨path, hpath, hp | hp⟩
    · exact ⟨path, hpath, hp⟩
    · refine ⟨path, hpath, ?_⟩
      rcases leads_of_mem h path hpath with ⟨found, hfound⟩
      rcases exists_along?_of_lookup hfound with ⟨-, steps', way', last', hsteps', hnames, -⟩
      rw [← hnames] at hp ⊢
      have hprefix := (Node.members_prefix_iff hu hw hsteps').mpr hp
      have hsame := Node.members_eq_of_leaf hw hsteps' hprefix
      exact (Node.members_prefix_iff hu hsteps' hw).mp (hsame ▸ List.prefix_refl _)
  · rintro ⟨path, hpath, hp⟩
    exact ⟨path, hpath, Or.inl hp⟩

/-- What paths keep is kept by others that they are at or below. -/
theorem kept_of_covers {others : List String} (hc : Covers others paths) {way : Way}
    (h : Kept paths way) : Kept others way := by
  rcases h with ⟨path, hpath, h⟩
  rcases hc path hpath with ⟨other, hother, hp⟩
  refine ⟨other, hother, ?_⟩
  rcases h with h | h
  · exact Or.inl (hp.trans h)
  · exact List.prefix_or_prefix_of_prefix hp h

theorem closed_keeps (places : List (List Nat)) : Node.Closed (keeps places) := by
  intro some more h
  rw [keeps, List.any_eq_true] at h ⊢
  rcases h with ⟨path, hpath, h⟩
  refine ⟨path, hpath, ?_⟩
  rw [Bool.or_eq_true, List.isPrefixOf_iff_prefix, List.isPrefixOf_iff_prefix] at h ⊢
  rcases h with h | h
  · exact List.prefix_or_prefix_of_prefix h (List.prefix_append some more)
  · exact Or.inr ((List.prefix_append some more).trans h)

/-! ### The fields of the document -/

theorem field?_askedFields (hd : (fields.map (·.1)).Nodup) (hp : [] ∉ places) (name : String) :
    field? (askedFields fields places) name =
      field? (Node.keepFields (keeps places) 0 fields) name := by
  have hasked : ∀ part, field? (askedFields fields places) name = some part ↔
      field? (Node.keepFields (keeps places) 0 fields) name = some part := by
    intro part
    rw [Node.field?_keepFields hd]
    have hmem : field? (askedFields fields places) name = some part ↔
        (name, part) ∈ askedFields fields places :=
      ⟨Schema.mem_of_field?, Schema.field?_of_mem (names_askedFields hd places)⟩
    rw [hmem, mem_askedFields]
    simp only [← keeps_singleton hp, keeps_cons hp]
  exact Option.ext fun part => hasked part

/-- Below the document itself, what is asked for is what is kept. -/
theorem at?_askedFields (hd : (fields.map (·.1)).Nodup) (hp : [] ∉ places) {way : Way}
    (hw : way ≠ []) :
    (Node.object (askedFields fields places)).at? way =
      ((Node.object fields).keepOnly (keeps places)).at? way := by
  cases way with
  | nil => exact absurd rfl hw
  | cons hop way =>
      rw [Node.keepOnly]
      cases hop with
      | element => rfl
      | member name => rw [Node.at?_member, Node.at?_member, field?_askedFields hd hp]

/-- The leaves that are asked for. -/
theorem leaf_asked_iff (hu : (Node.object fields).NamesUnique)
    (h : List.Forall₂ (Leads fields) paths places) {way : Way} {column : Nat} {type : DataType} :
    (Node.object (askedFields fields places)).at? way = some (.leaf column type) ↔
      (Node.object fields).at? way = some (.leaf column type) ∧ AtOrBelow paths way := by
  have hp := ne_nil_of_leads h
  cases way with
  | nil => simp [Node.at?_nil]
  | cons hop way =>
      rw [at?_askedFields hu.1 hp (List.cons_ne_nil _ _),
        Node.keepOnly_leaf hu (closed_keeps places)]
      constructor
      · rintro ⟨steps, hsteps, hkeep⟩
        refine ⟨Node.at?_of_along? hu hsteps, (atOrBelow_of_kept hu h hsteps).mp ?_⟩
        refine (keeps_iff hu h hsteps).mp (hkeep.resolve_left fun hnil => ?_)
        -- The first step into a document is one into a field.
        rcases Node.along?_object_some.mp hsteps with ⟨-, hway, -⟩ | ⟨_, _, _, _, _, rfl, -⟩
        · cases hway
        · exact List.cons_ne_nil _ _ hnil
      · rintro ⟨hat, hbelow⟩
        rcases Node.exists_along? hat with ⟨steps, hsteps⟩
        exact ⟨steps, hsteps, Or.inr ((keeps_iff hu h hsteps).mpr
          ((atOrBelow_of_kept hu h hsteps).mpr hbelow))⟩

/-- The first of each kind stay the first of each kind if nothing is confused. -/
theorem eraseDups_map {α β : Type} [DecidableEq α] [DecidableEq β] (f : α → β) {l : List α}
    (hf : ∀ a ∈ l, ∀ b ∈ l, f a = f b → a = b) : (l.map f).eraseDups = l.eraseDups.map f := by
  induction l using List.reverseRecOn with
  | nil => rfl
  | append_singleton l a ih =>
      have hl := fun b hb c hc => hf b (List.mem_append_left _ hb) c (List.mem_append_left _ hc)
      have hmem : f a ∈ l.map f ↔ a ∈ l := by
        rw [List.mem_map]
        constructor
        · rintro ⟨b, hb, hab⟩
          have hlast : a ∈ l ++ [a] := List.mem_append_right _ List.mem_cons_self
          exact hf b (List.mem_append_left _ hb) a hlast hab ▸ hb
        · exact fun ha => ⟨a, ha, rfl⟩
      rw [List.map_append, List.map_singleton, eraseDups_concat, eraseDups_concat, ih hl]
      by_cases ha : a ∈ l
      · rw [if_pos ha, if_pos (hmem.mpr ha)]
      · rw [if_neg ha, if_neg (mt hmem.mp ha), List.map_append, List.map_singleton]

/-- The place of the field of a name. -/
def placeOf (fields : List (String × Node)) (name : String) : Nat :=
  (fields.findIdx? (·.1 = name)).getD 0

/-- The first places that paths lead to are those of their first names. -/
theorem heads_of_leads (h : List.Forall₂ (Leads fields) paths places) :
    places.filterMap List.head? = (paths.map firstName).map (placeOf fields) ∧
      ∀ name ∈ paths.map firstName, (fields.map (·.1))[placeOf fields name]? = some name := by
  induction h with
  | nil => exact ⟨rfl, fun name hn => absurd hn List.not_mem_nil⟩
  | @cons path found _ _ hfound _ ih =>
      rw [Leads] at hfound
      cases hseg : segments path with
      | nil => exact absurd hseg (segments_ne_nil path)
      | cons name rest =>
          rw [hseg] at hfound
          rcases lookup_cons_eq_some.mp hfound with ⟨-, index, node, hfind, hget, hrest⟩
          have hfirst : firstName path = name := by rw [firstName, hseg, List.headD_cons]
          have hplace : placeOf fields name = index := by rw [placeOf, hfind, Option.getD_some]
          have hhead : found.head? = some index := by
            rcases hrest with ⟨-, rfl⟩ | ⟨-, _, _, -, -, rfl⟩ <;> rfl
          rw [List.map_cons, List.map_cons, hfirst, hplace, List.filterMap_cons, hhead, ih.1,
            List.forall_mem_cons]
          refine ⟨rfl, ?_, ih.2⟩
          rw [hplace, List.getElem?_map, hget, Option.map_some]

theorem eraseDups_heads (h : List.Forall₂ (Leads fields) paths places) :
    (places.filterMap List.head?).eraseDups =
      (paths.map firstName).eraseDups.map (placeOf fields) := by
  rcases heads_of_leads h with ⟨hheads, hat⟩
  rw [hheads]
  refine eraseDups_map _ fun a ha b hb hab => ?_
  have hsame := (hat a ha).symm.trans (hab ▸ hat b hb)
  exact Option.some.inj hsame

/-- Fields come in the order in which paths mention them first. -/
theorem map_fst_asked (h : List.Forall₂ (Leads fields) paths places) :
    (askedFields fields places).map (·.1) = (paths.map firstName).eraseDups := by
  rw [map_fst_askedFields, eraseDups_heads h, List.filterMap_map]
  have hat : ∀ name ∈ (paths.map firstName).eraseDups,
      ((fun i => (fields.map (·.1))[i]?) ∘ placeOf fields) name = some name :=
    fun name hn => (heads_of_leads h).2 name (List.mem_eraseDups.mp hn)
  rw [List.filterMap_congr hat, List.filterMap_some]

/-- What is asked for depends on the first mentions and on what is kept, and on nothing else. -/
theorem askedFields_congr (hu : (Node.object fields).NamesUnique) {others : List String}
    {places' : List (List Nat)} (h : List.Forall₂ (Leads fields) paths places)
    (h' : List.Forall₂ (Leads fields) others places')
    (hfirst : (others.map firstName).eraseDups = (paths.map firstName).eraseDups)
    (hkept : ∀ way node, (Node.object fields).at? way = some node →
      (Kept others way ↔ Kept paths way)) :
    askedFields fields places' = askedFields fields places := by
  rw [askedFields, askedFields, eraseDups_heads h, eraseDups_heads h', hfirst]
  refine List.filterMap_congr fun i _ => Option.map_congr fun f hf => ?_
  refine congrArg (Prod.mk f.1) (Node.keepOnly_congr fun steps way last hs => ?_)
  have hwhole : (Node.object fields).along? (.member i :: steps) =
      some (.member f.1 :: way, last) := by
    simp only [Node.along?, Option.mem_def.mp hf, hs, Option.map_some]
  rw [← keeps_cons (ne_nil_of_leads h'), ← keeps_cons (ne_nil_of_leads h), Bool.eq_iff_iff,
    ← Step.members_member, keeps_iff hu h' hwhole, keeps_iff hu h hwhole]
  exact hkept _ last (Node.at?_of_along? hu hwhole)

/-! ### Columns -/

/-- A column without the sources of its shape. -/
def bare (c : ProjectedColumn) : ProjectedColumn :=
  ⟨c.column, c.path, c.type, c.steps, []⟩

-- Linking changes nothing but the sources.
theorem map_bare_linkColumns (table columns shapes rest : List ProjectedColumn) :
    (linkColumns table columns shapes rest).1.map bare = rest.map bare := by
  induction rest generalizing shapes with
  | nil => rfl
  | cons c rest ih => rw [linkColumns_cons, List.map_cons, List.map_cons, ih]; rfl

theorem map_bare_toFields (schema : Schema) (fields : List (String × Node)) :
    (toFields schema fields).columns.map bare = columnsBelow (.object fields) "" [] := by
  refine (map_bare_linkColumns _ _ _ _).trans ?_
  refine (List.map_congr_left fun c hc => ?_).trans (List.map_id _)
  have hbelow : c ∈ columnsBelow (.object fields) "" [] := hc
  -- A column of a shape has no sources yet.
  rcases mem_columnsBelow hbelow with ⟨-, -, -, -, hsources⟩
  rw [bare, ← hsources, id]

variable {schema : Schema}

/-- The next number of a schema is beyond those of its columns, and no further. -/
theorem nextColumn_ofFields_lt {bound : Nat} (hb : 0 < bound)
    (h : ∀ column ∈ (Node.object fields).columns, column + 1 < bound) :
    (Schema.ofFields fields).nextColumn < bound := by
  have hfold : ∀ (numbers : List Nat) (most : Nat), most < bound → (∀ n ∈ numbers, n < bound) →
      numbers.foldl max most < bound := by
    intro numbers
    induction numbers with
    | nil => exact fun most hm _ => hm
    | cons n rest ih =>
        intro most hm hall
        rw [List.forall_mem_cons] at hall
        exact ih _ (max_lt hm hall.1) hall.2
  refine hfold _ 0 hb fun n hn => ?_
  rcases List.mem_map.mp hn with ⟨l, hl, rfl⟩
  refine h l.column ?_
  have hcolumns := Schema.map_column_leaves ⟨fields, 0⟩
  exact hcolumns ▸ List.mem_map_of_mem hl

/-- A projection is the union of its paths if its schema has the leaves that are asked for. -/
theorem unionOf_toFields (hd : schema.root.columns.Nodup)
    (hpart : (Node.object fields).PartOf schema.root) (hu : (Node.object fields).NamesUnique)
    (horder : fields.map (·.1) =
      if paths = [] then schema.fields.map (·.1) else (paths.map firstName).eraseDups)
    (hnested : ∀ way kept, way ≠ [] → (Node.object fields).at? way = some (.object kept) →
      ∃ whole, schema.root.at? way = some (.object whole) ∧
        (kept.map (·.1)).Sublist (whole.map (·.1)))
    (hleaf : ∀ way column type, (Node.object fields).at? way = some (.leaf column type) ↔
      schema.root.at? way = some (.leaf column type) ∧ (paths = [] ∨ AtOrBelow paths way)) :
    UnionOf schema paths (toFields schema fields) := by
  have hbare := map_bare_toFields schema fields
  have hcolumns : (toFields schema fields).columns.map (·.column) =
      (Node.object fields).columns := by
    rw [← map_column_columnsBelow (.object fields) "" [], ← hbare, List.map_map]
    rfl
  have hway : ∀ c ∈ (toFields schema fields).columns, ∃ way,
      (Node.object fields).along? c.steps = some (way, .leaf c.column c.type) := by
    intro c hc
    have hmem : bare c ∈ columnsBelow (.object fields) "" [] :=
      hbare ▸ List.mem_map_of_mem hc
    rcases mem_columnsBelow hmem with ⟨further, way, hsteps, hway, -⟩
    exact ⟨way, hsteps ▸ hway⟩
  refine ⟨horder, hnested, hcolumns, ?_, ?_, ?_⟩
  · intro c hc
    rcases hway c hc with ⟨way, hw⟩
    rcases (hleaf way c.column c.type).mp (Node.at?_of_along? hu hw) with ⟨hat, hasked⟩
    exact ⟨way, hat, hasked, hw, levels_of_along? hw⟩
  · intro way column type hat hasked
    have hin : column ∈ (toFields schema fields).columns.map (·.column) := by
      rw [hcolumns]
      exact Node.mem_columns_of_at? ((hleaf way column type).mpr ⟨hat, hasked⟩)
    exact List.mem_map.mp hin
  · rw [hcolumns]
    exact hpart.nodup_columns hu hd

/-! ### Paths -/

/-- Paths that name fields are resolved to a part of the schema, which is their union. -/
theorem exists_unionOf (hu : schema.root.NamesUnique) (hd : schema.root.columns.Nodup)
    (hplaces : List.Forall₂ (Leads schema.fields) paths places) :
    ∃ fields, resolve schema paths = .ok (toFields schema fields) ∧
      (Node.object fields).PartOf schema.root ∧ UnionOf schema paths (toFields schema fields) := by
  by_cases hp : paths = []
  · subst hp
    have hpart := Node.partOf_refl hu
    refine ⟨_, resolve_nil schema, hpart, unionOf_toFields hd hpart hu rfl
      (fun way kept _ hway => ⟨kept, hway, List.Sublist.refl _⟩) fun way column type => ?_⟩
    exact (and_iff_left (Or.inl rfl)).symm
  · have hpart := askedFields_partOf hu places
    refine ⟨_, resolve_of_leads hp hplaces, hpart.1,
      unionOf_toFields hd hpart.1 hpart.2 ?_ ?_ fun way column type => ?_⟩
    · rw [if_neg hp]
      exact map_fst_asked hplaces
    · intro way kept hway hat
      rw [at?_askedFields hu.1 (ne_nil_of_leads hplaces) hway] at hat
      exact Node.keepOnly_object hu hat
    · rw [leaf_asked_iff hu hplaces, or_iff_right hp]

/-- Other paths are resolved to the same if they mention the same fields of the document first,
    and keep the same of it. -/
theorem resolve_congr (hu : schema.root.NamesUnique) {others : List String}
    {places' : List (List Nat)} (h : List.Forall₂ (Leads schema.fields) paths places)
    (h' : List.Forall₂ (Leads schema.fields) others places')
    (hfirst : (others.map firstName).eraseDups = (paths.map firstName).eraseDups)
    (hkept : ∀ way node, schema.root.at? way = some node → (Kept others way ↔ Kept paths way)) :
    resolve schema others = resolve schema paths := by
  have hnil : others = [] ↔ paths = [] := by
    cases others <;> cases paths <;>
      simp only [List.map_cons, List.map_nil, List.eraseDups_cons, List.eraseDups_nil,
        reduceCtorEq] at hfirst ⊢
  by_cases hp : paths = []
  · rw [hp, hnil.mpr hp]
  · rw [resolve_of_leads hp h, resolve_of_leads (mt hnil.mp hp) h',
      askedFields_congr hu h h' hfirst hkept]

/-- Paths are resolved to their union, or the first of them that names no field is reported.
    What they are resolved to depends on which fields are kept and on the order in which
    fields of the document are mentioned first, so repeated paths, paths below others and the
    order of paths make no other difference. Levels fit into eight bits, and the next number
    into 32. -/
theorem resolve_union (hu : schema.root.NamesUnique) (hd : schema.root.columns.Nodup)
    (hh : schema.root.height ≤ 255)
    (hids : ∀ column ∈ schema.root.columns, column < 2 ^ 32 - 1) (paths : List String) :
    (∀ e, resolve schema paths = .error e ↔ ∃ before path after, paths = before ++ path :: after ∧
      (∀ p ∈ before, NamesField schema p) ∧ ¬NamesField schema path ∧ e = .unknownColumn path) ∧
    ((∀ path ∈ paths, NamesField schema path) →
      ∃ p, resolve schema paths = .ok p ∧ UnionOf schema paths p ∧
        (∀ c ∈ p.columns, c.maxRep < 2 ^ 8 ∧ c.maxDef < 2 ^ 8) ∧ p.schema.nextColumn < 2 ^ 32 ∧
        ∀ others, (∀ path ∈ others, NamesField schema path) →
          (others.map firstName).eraseDups = (paths.map firstName).eraseDups →
          (∀ way node, schema.root.at? way = some node → (Kept others way ↔ Kept paths way)) →
          resolve schema others = .ok p) := by
  constructor
  · intro e
    have hnone : ∀ path, lookup schema.fields (segments path) = none ↔ ¬NamesField schema path := by
      intro path
      rw [← exists_leads_iff hu, not_exists, Option.eq_none_iff_forall_ne_some]
      exact Iff.rfl
    rw [resolve_eq_error]
    simp only [exists_leads_iff hu, hnone]
  · intro hnamed
    rcases exists_leads fun path hpath => (exists_leads_iff hu).mpr (hnamed path hpath) with
      ⟨places, hplaces⟩
    rcases exists_unionOf hu hd hplaces with ⟨fields, hresolve, hpart, hunion⟩
    refine ⟨_, hresolve, hunion, ?_, ?_, ?_⟩
    · intro c hc
      rcases hunion.leaf c hc with ⟨way, hat, -, -, hrep, hdef⟩
      have hlength := Node.length_le_height hat
      have helements : way.elements ≤ way.length := List.countP_le_length
      omega
    · refine nextColumn_ofFields_lt (by omega) fun column hc => ?_
      have := hids column (hpart.columns_subset hc)
      omega
    · intro others hothers hfirst hkept
      rcases exists_leads fun path hpath => (exists_leads_iff hu).mpr (hothers path hpath) with
        ⟨places', hplaces'⟩
      rw [resolve_congr hu hplaces hplaces' hfirst hkept, hresolve]

/-- A column, an object of two columns, and an array of objects of two columns. -/
def mentioned : Schema :=
  ⟨[("item", .leaf 0 .string), ("size", .object [("h", .leaf 1 .integer), ("w", .leaf 2 .float)]),
    ("links", .array (.object [("url", .leaf 3 .string), ("rank", .leaf 4 .integer)]))], 5⟩

-- A path once more, and a path below another one, are no different from the two that are left.
theorem resolve_union_overlapping :
    ∃ p, resolve mentioned ["links.rank", "size"] = .ok p ∧
      p.schema.fields.map (·.1) = ["links", "size"] ∧
      resolve mentioned ["links.rank", "size.h", "size", "links.rank"] = .ok p := by
  have hu : mentioned.root.NamesUnique := by
    simp [mentioned, Node.NamesUnique, Node.NamesUniqueOf]
  have hlinks : NamesField mentioned "links.rank" :=
    ⟨by decide, [.member "links", .element, .member "rank"], .leaf 4 .integer, rfl, by decide⟩
  have hsize : NamesField mentioned "size" := ⟨by decide, [.member "size"], _, rfl, by decide⟩
  have hheight : NamesField mentioned "size.h" :=
    ⟨by decide, [.member "size", .member "h"], .leaf 1 .integer, rfl, by decide⟩
  have hnamed : ∀ path ∈ ["links.rank", "size"], NamesField mentioned path := by
    simp only [List.forall_mem_cons, hlinks, hsize, List.not_mem_nil, false_implies,
      implies_true, and_self]
  rcases (resolve_union hu (by decide) (by decide) (by decide) _).2 hnamed with
    ⟨p, hp, hunion, -, -, hsame⟩
  refine ⟨p, hp, hunion.order.trans (by decide), hsame _ ?_ (by decide) fun way node _ => ?_⟩
  · simp only [List.forall_mem_cons, hlinks, hsize, hheight, List.not_mem_nil, false_implies,
      implies_true, and_self]
  · exact ⟨kept_of_covers (by decide), kept_of_covers (by decide)⟩

end Projection

end NestedColumns
