import NestedColumns.Proofs.Documents.Shredding
import NestedColumns.Proofs.Projection.Columns
import NestedColumns.Proofs.Projection.Links

/-!
# Borrowed shapes

A document that is older than a column has no entries in it. What it would have
had is the outline of the deepest object on the column's way that had a leaf
below it when the document was stored: from there on the schema of that time
knew nothing. Among the columns below that object the one with the smallest
number is of that time, and a column that shares a longer part of the way is
not. So the first source that has entries is the right one, and cut to the
shared steps its entries are the outline.

If the document does not have the top-level field at all, no column below that
field has entries, and nothing is borrowed.

## Main definitions

* `Documents.StoredBy`: The streams that are stored of a document.

## Theorems

* `Documents.exists_turn`: Where the way to a new leaf leaves the old schema.
* `Documents.entries_eq`: With what is borrowed, every column has the entries of
  what was kept of the document.
-/

namespace NestedColumns

namespace Documents

open Schema (Node field?)
open Json (present? kept keptMembers stream outline cut)
open Projection (borrowed shapeSourceAt shapeSourcesOf)
open Shredding (touched touched_member)

/-- What is stored of a document that was taken apart by some fields: the streams of
    their leaves, if they say anything. -/
structure StoredBy (past : List (String × Node)) (v : Json) (stored : Nat → List Triple) :
    Prop where
  others : ∀ column, column ∉ (Node.object past).columns → stored column = []
  own : ∀ way column type, (Node.object past).at? way = some (.leaf column type) →
    stored column = (touched (stream DataValue.ofJson? way v 0 0 0)).getD []

/-- A way to a leaf that a shape with leaves did not have leaves it at an object with
    leaves, by a field that had none. -/
theorem exists_turn {bound : Nat} {past now : Node} (hg : past.GrowsTo bound now)
    (hl : past.hasLeaf = true) {way : Way} {column : Nat} {type : DataType}
    (hw : now.at? way = some (.leaf column type)) :
    (∃ type', past.at? way = some (.leaf column type')) ∨
      ∃ p name q fields, way = p ++ .member name :: q ∧ past.at? p = some (.object fields) ∧
        (Node.object fields).hasLeaf = true ∧
        ∀ next, field? fields name = some next → next.hasLeaf = false := by
  induction way generalizing past now with
  | nil =>
      rw [Node.at?_nil, Option.some.injEq] at hw
      subst hw
      rcases Node.growsTo_leaf_right.mp hg with ⟨type', rfl, -⟩
      exact Or.inl ⟨type', Node.at?_nil _⟩
  | cons hop way ih =>
      rcases Node.at?_cons_some hw with ⟨fields', name, next, rfl, rfl, hf, hr⟩ |
        ⟨element', rfl, rfl, hr⟩
      · rcases Node.growsTo_object_right.mp hg with ⟨fields, rfl, hfields⟩
        by_cases hknown : ∃ known, field? fields name = some known ∧ known.hasLeaf = true
        · rcases hknown with ⟨known, hknown, hleaf⟩
          rcases hfields.field? hknown with ⟨next', hnext, hgrow⟩
          rw [hf, Option.some.injEq] at hnext
          subst hnext
          rcases ih hgrow hleaf hr with ⟨type', h⟩ | ⟨p, turn, q, inner, rfl, hp, hpl, hno⟩
          · exact Or.inl ⟨type', by rw [Node.at?_member, hknown, Option.bind_some, h]⟩
          · refine Or.inr ⟨.member name :: p, turn, q, inner, rfl, ?_, hpl, hno⟩
            rw [Node.at?_member, hknown, Option.bind_some, hp]
        · refine Or.inr ⟨[], name, way, fields, rfl, Node.at?_nil _, hl, fun known hf => ?_⟩
          cases hleaf : known.hasLeaf with
          | false => rfl
          | true => exact absurd ⟨known, hf, hleaf⟩ hknown
      · rcases Node.growsTo_array_right.mp hg with ⟨element, rfl, hgrow⟩
        have helement : element.hasLeaf = true := hl
        rcases ih hgrow helement hr with ⟨type', h⟩ | ⟨p, turn, q, inner, rfl, hp, hpl, hno⟩
        · exact Or.inl ⟨type', h⟩
        · exact Or.inr ⟨.element :: p, turn, q, inner, rfl, hp, hpl, hno⟩

/-! ### Depths -/

/-- The depths at which sources are looked for, the deepest first. -/
def depths (n : Nat) : List Nat :=
  (List.range n).reverse.filter (0 < ·)

theorem depths_succ {n : Nat} (h : 0 < n) : depths (n + 1) = n :: depths n := by
  rw [depths, List.range_succ, List.reverse_append, List.reverse_singleton, List.singleton_append,
    List.filter_cons_of_pos (by simpa only [decide_eq_true_eq] using h), depths]

theorem mem_depths {n depth : Nat} : depth ∈ depths n ↔ 0 < depth ∧ depth < n := by
  rw [depths, List.mem_filter, List.mem_reverse, List.mem_range, decide_eq_true_eq, and_comm]

section

variable {table : List ProjectedColumn} {full : ProjectedColumn} {stored : Nat → List Triple}

theorem borrowed_eq_nil {sources : List (ProjectedColumn × Nat)}
    (h : ∀ source ∈ sources, stored source.1.column = []) : borrowed stored full sources = [] := by
  induction sources with
  | nil => rfl
  | cons source rest ih =>
      rcases source with ⟨c, depth⟩
      rw [Projection.borrowed_cons_of_nil (h _ List.mem_cons_self)]
      exact ih fun source hs => h source (List.mem_cons_of_mem _ hs)

/-- Depths below which nothing is stored are passed over. -/
theorem borrowed_depths {m n : Nat} (hm : m < n) (hpos : 0 < m)
    (h : ∀ depth c shared, m < depth → depth < n →
      shapeSourceAt table full depth = some (c, shared) → stored c.column = []) :
    borrowed stored full ((depths n).filterMap (shapeSourceAt table full)) =
      borrowed stored full ((depths (m + 1)).filterMap (shapeSourceAt table full)) := by
  induction n with
  | zero => exact absurd hm (Nat.not_lt_zero m)
  | succ n ih =>
      by_cases hn : n = m
      · rw [hn]
      · have hlt : m < n := by omega
        rw [depths_succ (by omega), List.filterMap_cons]
        have hrest := ih hlt fun depth c shared h₁ h₂ => h depth c shared h₁ (by omega)
        cases hs : shapeSourceAt table full n with
        | none => exact hrest
        | some source =>
            rcases source with ⟨c, shared⟩
            have hc := h n c shared hlt (Nat.lt_succ_self n) hs
            simp only
            rw [Projection.borrowed_cons_of_nil hc, hrest]

end

/-! ### What every column has -/

section

variable {schema : Schema} {past : List (String × Node)} {bound : Nat}
  {members : List (String × Json)} {stored : Nat → List Triple}

/-- The stream of a column of the table is that of its way, if the document knew it. -/
theorem stored_column (hn : (Node.object schema.fields).NamesUnique)
    (hd : (Node.object schema.fields).columns.Nodup) (hu : (Node.object past).NamesUnique)
    (hg : (Node.object past).GrowsTo bound (.object schema.fields)) {v : Json}
    (hs : StoredBy past v stored) {c : ProjectedColumn} {way : Way}
    (hw : (Node.object schema.fields).along? c.steps = some (way, .leaf c.column c.type)) :
    stored c.column =
      if c.column ∈ (Node.object past).columns then
        (touched (stream DataValue.ofJson? way v 0 0 0)).getD []
      else [] := by
  by_cases hc : c.column ∈ (Node.object past).columns
  · rw [if_pos hc]
    rcases Node.exists_way hu hc with ⟨way', type, hway⟩
    rcases hg.at?_leaf hway with ⟨type', hnow⟩
    rw [Node.way_unique hd (Node.at?_of_along? hn hw) hnow]
    exact hs.own way' c.column type hway
  · rw [if_neg hc]
    exact hs.others _ hc

/-- Nothing is stored below a top-level field that the document does not have. -/
theorem stored_of_absent (hn : (Node.object schema.fields).NamesUnique)
    (hd : (Node.object schema.fields).columns.Nodup) (hu : (Node.object past).NamesUnique)
    (hg : (Node.object past).GrowsTo bound (.object schema.fields))
    (hs : StoredBy past (.object members) stored) {c : ProjectedColumn} {name : String} {way : Way}
    (hw : (Node.object schema.fields).along? c.steps =
      some (.member name :: way, .leaf c.column c.type))
    (ha : present? members name = none) : stored c.column = [] := by
  rw [stored_column hn hd hu hg hs hw, touched_member, ha, Option.map_none, Option.getD_none,
    ite_self]

/-- A source that is found shares the way up to its depth. -/
theorem way_of_source (hn : (Node.object schema.fields).NamesUnique) {full c : ProjectedColumn}
    {way : Way}
    (hw : (Node.object schema.fields).along? full.steps = some (way, .leaf full.column full.type))
    {depth shared : Nat}
    (h : shapeSourceAt (Projection.ofSchema schema).columns full depth = some (c, shared)) :
    ∃ way', (Node.object schema.fields).along? c.steps = some (way', .leaf c.column c.type) ∧
      way.take depth <+: way' := by
  rcases Projection.shapeSourceAt_eq_some h with ⟨-, hmem, -, hprefix⟩
  rcases Projection.exists_way hmem with ⟨way', hw'⟩
  exact ⟨way', hw', (Projection.take_steps_prefix_iff hn hw hw' depth).mp hprefix⟩

/-- If the document does not have the top-level field, a column borrows nothing. -/
theorem borrowed_of_absent (hn : (Node.object schema.fields).NamesUnique)
    (hd : (Node.object schema.fields).columns.Nodup) (hu : (Node.object past).NamesUnique)
    (hg : (Node.object past).GrowsTo bound (.object schema.fields))
    (hs : StoredBy past (.object members) stored) {full : ProjectedColumn} {name : String}
    {way : Way}
    (hw : (Node.object schema.fields).along? full.steps =
      some (.member name :: way, .leaf full.column full.type))
    (ha : present? members name = none) :
    borrowed stored full (shapeSourcesOf (Projection.ofSchema schema).columns full) = [] := by
  rw [shapeSourcesOf, Projection.borrowed_dropRepeats none _ fun c hc => by cases hc]
  refine borrowed_eq_nil fun source hsource => ?_
  rcases List.mem_filterMap.mp hsource with ⟨depth, hdepth, hat⟩
  have hpos : 0 < depth := (mem_depths.mp hdepth).1
  rcases way_of_source hn hw hat with ⟨way', hw', hprefix⟩
  rcases Nat.exists_eq_succ_of_ne_zero (Nat.ne_of_gt hpos) with ⟨k, rfl⟩
  rw [List.take_succ_cons] at hprefix
  rcases hprefix with ⟨rest, hrest⟩
  rw [← hrest, List.cons_append] at hw'
  exact stored_of_absent hn hd hu hg hs hw' ha

/-- A leaf of the old schema below an object is a source for what is new there. -/
theorem exists_source (hn : (Node.object schema.fields).NamesUnique)
    (hd : (Node.object schema.fields).columns.Nodup) (hu : (Node.object past).NamesUnique)
    (hg : (Node.object past).GrowsTo bound (.object schema.fields))
    (hb : ∀ column ∈ (Node.object past).columns, column < bound) {full : ProjectedColumn}
    {stem q : Way} {turn : String} {inner : List (String × Node)}
    (hw : (Node.object schema.fields).along? full.steps =
      some (stem ++ .member turn :: q, .leaf full.column full.type))
    (hnew : full.column ∉ (Node.object past).columns)
    (hp : (Node.object past).at? stem = some (.object inner))
    (hleaf : (Node.object inner).hasLeaf = true) :
    ∃ c, shapeSourceAt (Projection.ofSchema schema).columns full stem.length = some (c, stem.length) ∧
      c.column ∈ (Node.object past).columns := by
  rcases Node.hasLeaf_iff.mp hleaf with ⟨column, hc⟩
  rcases Node.exists_way (Node.namesUnique_of_at? hu hp) hc with ⟨below, type, hbelow⟩
  have hold : (Node.object past).at? (stem ++ below) = some (.leaf column type) := by
    rw [Node.at?_append, hp, Option.bind_some, hbelow]
  have hmem := Node.mem_columns_of_at? hold
  rcases hg.at?_leaf hold with ⟨type', hnow⟩
  rcases Projection.exists_column hn hd hnow with ⟨c, htable, rfl, hcw⟩
  -- The column is new, so its number is above those of the old schema.
  have hfull : bound ≤ full.column := by
    have hin := Node.mem_columns_of_at? (Node.at?_of_along? hn hw)
    exact (hg.old_or_new hin).resolve_left hnew
  have hlt : c.column < full.column := Nat.lt_of_lt_of_le (hb _ hmem) hfull
  have hshared : full.steps.take stem.length <+: c.steps := by
    rw [Projection.take_steps_prefix_iff hn hw hcw, List.take_left]
    exact List.prefix_append _ _
  have hstep : ∃ index, full.steps[stem.length]? = some (.member index) := by
    have hhop : (stem ++ .member turn :: q)[stem.length]? = some (.member turn) := by
      rw [List.getElem?_append_right (Nat.le_refl _), Nat.sub_self]
      rfl
    exact Node.along?_getElem?_member hw hhop
  rcases hstep with ⟨index, hstep⟩
  rw [shapeSourceAt, hstep]
  simp only
  cases holdest : Projection.oldest? ((Projection.ofSchema schema).columns.filter fun d =>
      d.column < full.column && (full.steps.take stem.length).isPrefixOf d.steps) with
  | none =>
      have hnone := Projection.oldest?_eq_none_iff.mp holdest
      rw [List.filter_eq_nil_iff] at hnone
      have hno := hnone c htable
      simp only [hlt, decide_true, Bool.true_and, List.isPrefixOf_iff_prefix] at hno
      exact absurd hshared hno
  | some d =>
      refine ⟨d, rfl, ?_⟩
      rcases Projection.oldest?_le holdest with ⟨hdmem, hle⟩
      have hdc : d.column ≤ c.column := by
        refine hle c (List.mem_filter.mpr ⟨htable, ?_⟩)
        simp only [hlt, decide_true, Bool.true_and, List.isPrefixOf_iff_prefix]
        exact hshared
      rcases Projection.exists_way (List.mem_filter.mp hdmem).1 with ⟨way, hdw⟩
      have hin := Node.mem_columns_of_at? (Node.at?_of_along? hn hdw)
      have hcb := hb _ hmem
      exact (hg.old_or_new hin).resolve_right (by omega)

-- A column that shares more of the way than the old schema knows is younger than the document.
theorem stored_of_deeper (hn : (Node.object schema.fields).NamesUnique)
    (hd : (Node.object schema.fields).columns.Nodup) (hu : (Node.object past).NamesUnique)
    (hg : (Node.object past).GrowsTo bound (.object schema.fields)) {v : Json}
    (hs : StoredBy past v stored) {full c : ProjectedColumn} {stem q : Way} {turn : String}
    {inner : List (String × Node)} {depth shared : Nat}
    (hw : (Node.object schema.fields).along? full.steps =
      some (stem ++ .member turn :: q, .leaf full.column full.type))
    (hp : (Node.object past).at? stem = some (.object inner))
    (hno : ∀ next, field? inner turn = some next → next.hasLeaf = false)
    (hlt : stem.length < depth)
    (hat : shapeSourceAt (Projection.ofSchema schema).columns full depth = some (c, shared)) :
    stored c.column = [] := by
  rcases way_of_source hn hw hat with ⟨way', hw', hprefix⟩
  refine hs.others _ fun hc => ?_
  rcases Node.exists_way hu hc with ⟨old, type, hold⟩
  rcases hg.at?_leaf hold with ⟨type', hnow⟩
  have hsame := Node.way_unique hd (Node.at?_of_along? hn hw') hnow
  have hlonger : stem ++ [Hop.member turn] <+: old := by
    rw [← hsame]
    refine List.IsPrefix.trans ?_ hprefix
    rw [List.prefix_take_iff, List.length_append, List.length_singleton]
    refine ⟨?_, hlt⟩
    rw [List.prefix_append_right_inj]
    exact ⟨q, rfl⟩
  rcases hlonger with ⟨rest, rfl⟩
  rw [List.append_assoc, Node.at?_append, hp, Option.bind_some, List.singleton_append,
    Node.at?_member, Option.bind_eq_some_iff] at hold
  rcases hold with ⟨next, hnext, hend⟩
  have hhas := Node.hasLeaf_iff.mpr ⟨_, Node.mem_columns_of_at? hend⟩
  rw [hno next hnext] at hhas
  cases hhas

/-- The object at which a way leaves the old schema lends a new column its shape. -/
theorem borrowed_at_turn (hn : (Node.object schema.fields).NamesUnique)
    (hd : (Node.object schema.fields).columns.Nodup) (hu : (Node.object past).NamesUnique)
    (hg : (Node.object past).GrowsTo bound (.object schema.fields))
    (hb : ∀ column ∈ (Node.object past).columns, column < bound) {v : Json}
    (hs : StoredBy past v stored) {full : ProjectedColumn} {stem q : Way} {turn : String}
    {inner : List (String × Node)}
    (hw : (Node.object schema.fields).along? full.steps =
      some (stem ++ .member turn :: q, .leaf full.column full.type))
    (hnew : full.column ∉ (Node.object past).columns)
    (hp : (Node.object past).at? stem = some (.object inner))
    (hleaf : (Node.object inner).hasLeaf = true)
    (hno : ∀ next, field? inner turn = some next → next.hasLeaf = false)
    (hpos : 0 < stem.length)
    (htells : ∀ rest, touched (stream DataValue.ofJson? (stem ++ rest) v 0 0 0) =
      some (stream DataValue.ofJson? (stem ++ rest) v 0 0 0)) :
    borrowed stored full (shapeSourcesOf (Projection.ofSchema schema).columns full) =
      outline stem v 0 0 0 := by
  have hlen := (Node.along?_measure hw).1
  rw [List.length_append, List.length_cons] at hlen
  have hdeeper : ∀ depth c shared, stem.length < depth → depth < full.steps.length →
      shapeSourceAt (Projection.ofSchema schema).columns full depth = some (c, shared) →
      stored c.column = [] :=
    fun _ _ _ hlt _ hat => stored_of_deeper hn hd hu hg hs hw hp hno hlt hat
  rw [shapeSourcesOf, Projection.borrowed_dropRepeats none _ fun c hc => by cases hc]
  rcases exists_source hn hd hu hg hb hw hnew hp hleaf with ⟨c, hat, hc⟩
  rcases way_of_source hn hw hat with ⟨way', hw', rest, rfl⟩
  rw [List.take_left] at hw'
  have hstored : stored c.column = stream DataValue.ofJson? (stem ++ rest) v 0 0 0 := by
    rw [stored_column hn hd hu hg hs hw', if_pos hc, htells, Option.getD_some]
  have hne : stored c.column ≠ [] := by
    rw [hstored]
    exact Json.stream_ne_nil _ _ _ _ _ _
  have hrep : Step.elements (full.steps.take stem.length) = stem.elements := by
    rcases Node.along?_take hw stem.length with ⟨part, hpart⟩
    rw [List.take_left] at hpart
    exact (Node.along?_measure hpart).2.symm
  have hcut : cut (0 + stem.elements) (0 + stem.length)
      (stream DataValue.ofJson? (stem ++ rest) v 0 0 0) = outline stem v 0 0 0 :=
    Json.cut_stream stem rest (Nat.le_refl 0)
  rw [Nat.zero_add, Nat.zero_add] at hcut
  have hdepths : (List.range full.steps.length).reverse.filter (0 < ·) = depths full.steps.length :=
    rfl
  rw [hdepths, borrowed_depths (by omega) hpos hdeeper, depths_succ hpos, List.filterMap_cons, hat]
  simp only
  rw [Projection.borrowed_cons_of_ne_nil hne, hrep, hstored, hcut]

/-- With what is borrowed, every column of the table has the entries of what was kept
    of the document. -/
theorem entries_eq (hn : (Node.object schema.fields).NamesUnique)
    (hd : (Node.object schema.fields).columns.Nodup) (hu : (Node.object past).NamesUnique)
    (hg : (Node.object past).GrowsTo bound (.object schema.fields))
    (hb : ∀ column ∈ (Node.object past).columns, column < bound)
    (hs : StoredBy past (.object (keptMembers past members)) stored) {full : ProjectedColumn}
    {way : Way}
    (hw : (Node.object schema.fields).along? full.steps = some (way, .leaf full.column full.type)) :
    (if stored full.column = [] then
        borrowed stored full (shapeSourcesOf (Projection.ofSchema schema).columns full)
      else stored full.column) =
      (touched (stream DataValue.ofJson? way (.object (keptMembers past members)) 0 0 0)).getD [] := by
  have hat := Node.at?_of_along? hn hw
  cases way with
  | nil =>
      rw [Node.at?_nil, Option.some.injEq] at hat
      cases hat
  | cons hop rest =>
      rcases Node.at?_cons_some hat with ⟨fields, first, next, hobj, rfl, hf, hr⟩ | ⟨_, hobj, -⟩
      · cases hobj
        rw [touched_member]
        cases hpresent : present? (keptMembers past members) first with
        | none =>
            rw [Option.map_none, Option.getD_none, if_pos (stored_of_absent hn hd hu hg hs hw hpresent)]
            exact borrowed_of_absent hn hd hu hg hs hw hpresent
        | some x =>
            rw [Option.map_some, Option.getD_some]
            by_cases hc : full.column ∈ (Node.object past).columns
            · have hstored := stored_column hn hd hu hg hs hw
              rw [if_pos hc, touched_member, hpresent, Option.map_some, Option.getD_some] at hstored
              rw [hstored, if_neg (Json.stream_ne_nil _ _ _ _ _ _)]
            · rw [if_pos (hs.others _ hc)]
              have hthere := hpresent
              rw [Json.present?_keptMembers hu.1, Option.bind_eq_some_iff] at hpresent
              rcases hpresent with ⟨known, hknown, hkept⟩
              have hleaf : known.hasLeaf = true := by
                by_contra hno
                rw [if_neg hno] at hkept
                cases hkept
              rcases Node.GrowsToOf.field? hg hknown with ⟨next', hnext, hgrow⟩
              rw [hf, Option.some.injEq] at hnext
              subst hnext
              rcases exists_turn hgrow hleaf hr with ⟨type', hold⟩ |
                ⟨p, turn, q, inner, rfl, hp, hpl, hno⟩
              · have hway : (Node.object past).at? (.member first :: rest) =
                    some (.leaf full.column type') := by
                  rw [Node.at?_member, hknown, Option.bind_some, hold]
                exact absurd (Node.mem_columns_of_at? hway) hc
              · have hstem : (Node.object past).at? (.member first :: p) = some (.object inner) := by
                  rw [Node.at?_member, hknown, Option.bind_some, hp]
                have htells : ∀ q, touched (stream DataValue.ofJson? ((.member first :: p) ++ q)
                    (.object (keptMembers past members)) 0 0 0) =
                    some (stream DataValue.ofJson? ((.member first :: p) ++ q)
                      (.object (keptMembers past members)) 0 0 0) := by
                  intro q
                  rw [List.cons_append, touched_member, hthere, Option.map_some]
                have hlong : (Node.object schema.fields).along? full.steps =
                    some ((.member first :: p) ++ .member turn :: q,
                      .leaf full.column full.type) := hw
                rw [borrowed_at_turn hn hd hu hg hb hs hlong hc hstem hpl hno (Nat.succ_pos _) htells]
                exact (Json.stream_kept_of_missing (v := .object members) hu hstem hno q).symm
      · cases hobj

end

end Documents

end NestedColumns
