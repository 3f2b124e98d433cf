import NestedColumns.Assembly
import NestedColumns.Proofs.Documents.Streams
import Mathlib.Data.List.Forall2

/-!
# Columns linked to their sources

A projected column names its sources by their places among the columns that are
read. The places are kept when further columns are added at the end, so at the
end of linking each still names the column it was made for, and what a column
borrows depends on the streams of the columns only, not on the order in which
they are read.

A source that repeats the one before it could be left in as well: it has no
entries if that one had none.

## Main definitions

* `Projection.borrowed`: The entries that a column takes over from its sources.
* `Projection.streamsOf`: The streams of the columns that are read.

## Theorems

* `Projection.borrowed_dropRepeats`: Repeated sources make no difference.
* `Projection.withShapeSources_spec`: What a linked column takes over.
-/

namespace NestedColumns

namespace Projection

open Json (cut)

/-- The entries that a column takes over: those of the first source that has any, cut
    to the steps it shares. -/
def borrowed (stored : Nat → List Triple) (full : ProjectedColumn) :
    List (ProjectedColumn × Nat) → List Triple
  | [] => []
  | (c, depth) :: rest =>
    match stored c.column with
    | [] => borrowed stored full rest
    | t :: triples => cut (Step.elements (full.steps.take depth)) depth (t :: triples)

variable {stored : Nat → List Triple} {full : ProjectedColumn}

theorem borrowed_cons_of_nil {c : ProjectedColumn} {depth : Nat}
    {rest : List (ProjectedColumn × Nat)} (h : stored c.column = []) :
    borrowed stored full ((c, depth) :: rest) = borrowed stored full rest := by
  rw [borrowed, h]

theorem borrowed_cons_of_ne_nil {c : ProjectedColumn} {depth : Nat}
    {rest : List (ProjectedColumn × Nat)} (h : stored c.column ≠ []) :
    borrowed stored full ((c, depth) :: rest) =
      cut (Step.elements (full.steps.take depth)) depth (stored c.column) := by
  rw [borrowed]
  cases hs : stored c.column with
  | nil => exact absurd hs h
  | cons t triples => rfl

/-- Repeated sources make no difference. -/
theorem borrowed_dropRepeats (last : Option Nat) (sources : List (ProjectedColumn × Nat))
    (hl : ∀ column, last = some column → stored column = []) :
    borrowed stored full (dropRepeats last sources) = borrowed stored full sources := by
  induction sources generalizing last with
  | nil => rfl
  | cons source rest ih =>
      rcases source with ⟨c, depth⟩
      rw [dropRepeats]
      by_cases hlast : last = some c.column
      · rw [if_pos hlast, ih last hl, borrowed_cons_of_nil (hl _ hlast)]
      · rw [if_neg hlast]
        by_cases hs : stored c.column = []
        · rw [borrowed_cons_of_nil hs, borrowed_cons_of_nil hs]
          refine ih _ fun column hc => ?_
          rw [Option.some.injEq] at hc
          exact hc ▸ hs
        · rw [borrowed_cons_of_ne_nil hs, borrowed_cons_of_ne_nil hs]

/-! ### Places of columns -/

/-- Linking only adds columns at the end, and the place that is given is the one of a
    column with the number asked for. -/
theorem readIndex_spec (columns shapes : List ProjectedColumn) (c : ProjectedColumn) :
    ∃ added, (readIndex columns shapes c).2 = shapes ++ added ∧
      ∃ d, (columns ++ (shapes ++ added))[(readIndex columns shapes c).1]? = some d ∧
        d.column = c.column := by
  have hfind : ∀ {xs : List ProjectedColumn} {i : Nat},
      xs.findIdx? (·.column = c.column) = some i → ∃ d, xs[i]? = some d ∧ d.column = c.column := by
    intro xs i h
    rcases List.findIdx?_eq_some_iff_getElem.mp h with ⟨hlt, hp, -⟩
    exact ⟨xs[i], List.getElem?_eq_getElem hlt, by simpa only [decide_eq_true_eq] using hp⟩
  rw [readIndex]
  split
  · next i h =>
    rcases hfind h with ⟨d, hd, hc⟩
    refine ⟨[], (List.append_nil _).symm, d, ?_, hc⟩
    rw [List.getElem?_append_left (List.getElem?_eq_some_iff.mp hd).1, hd]
  · split
    · next i h =>
      rcases hfind h with ⟨d, hd, hc⟩
      refine ⟨[], (List.append_nil _).symm, d, ?_, hc⟩
      rw [List.getElem?_append_right (Nat.le_add_right _ _), Nat.add_sub_cancel_left,
        List.append_nil, hd]
    · refine ⟨[c], rfl, c, ?_, rfl⟩
      rw [List.getElem?_append_right (Nat.le_add_right _ _), Nat.add_sub_cancel_left,
        List.getElem?_append_right (Nat.le_refl _), Nat.sub_self]
      rfl

/-- The streams of columns, by their numbers. -/
def streamsOf (stored : Nat → List Triple) (columns : List ProjectedColumn) : List (List Triple) :=
  columns.map fun c => stored c.column

theorem streamsOf_append (a b : List ProjectedColumn) :
    streamsOf stored (a ++ b) = streamsOf stored a ++ streamsOf stored b :=
  List.map_append

theorem streamsOf_congr {a b : List ProjectedColumn}
    (h : List.Forall₂ (fun c d => d.column = c.column) a b) :
    streamsOf stored b = streamsOf stored a := by
  induction h with
  | nil => rfl
  | cons hc _ ih =>
      rw [streamsOf, List.map_cons, hc]
      exact congrArg _ ih

theorem missingShape_cons {reads : List (List Triple)} {source : ShapeSource}
    {rest : List ShapeSource} {triples : List Triple} (h : reads[source.read]? = some triples) :
    Assembly.missingShape reads (source :: rest) =
      if triples = [] then Assembly.missingShape reads rest
      else cut source.rep source.depth triples := by
  rw [Assembly.missingShape, h]
  cases triples with
  | nil => rfl
  | cons t triples => rw [if_neg (List.cons_ne_nil _ _)]; rfl

theorem linkSources_cons (columns shapes : List ProjectedColumn) (full c : ProjectedColumn)
    (depth : Nat) (rest : List (ProjectedColumn × Nat)) :
    linkSources columns shapes full ((c, depth) :: rest) =
      let next := linkSources columns (readIndex columns shapes c).2 full rest
      (⟨(readIndex columns shapes c).1, depth, Step.elements (full.steps.take depth)⟩ :: next.1,
        next.2) := rfl

/-- The sources of one column, linked: columns are added at the end, and whatever is
    added later the column takes over what its sources have. -/
theorem linkSources_spec (stored : Nat → List Triple) (columns shapes : List ProjectedColumn)
    (full : ProjectedColumn) (sources : List (ProjectedColumn × Nat)) :
    ∃ added, (linkSources columns shapes full sources).2 = shapes ++ added ∧
      ∀ later, Assembly.missingShape (streamsOf stored (columns ++ (shapes ++ added ++ later)))
        (linkSources columns shapes full sources).1 = borrowed stored full sources := by
  induction sources generalizing shapes with
  | nil => exact ⟨[], (List.append_nil _).symm, fun _ => rfl⟩
  | cons source rest ih =>
      rcases source with ⟨c, depth⟩
      rcases readIndex_spec columns shapes c with ⟨first, hshapes, d, hd, hc⟩
      rcases ih (shapes ++ first) with ⟨added, hrest, hborrowed⟩
      refine ⟨first ++ added, ?_, fun later => ?_⟩
      · rw [linkSources_cons, hshapes, hrest, List.append_assoc]
      · have hread : (streamsOf stored (columns ++ (shapes ++ (first ++ added) ++ later)))[(readIndex
            columns shapes c).1]? = some (stored c.column) := by
          have happ : columns ++ (shapes ++ (first ++ added) ++ later) =
              columns ++ (shapes ++ first) ++ (added ++ later) := by
            simp only [List.append_assoc]
          rw [happ, streamsOf, List.getElem?_map, List.getElem?_append_left
            (List.getElem?_eq_some_iff.mp hd).1, hd, Option.map_some, hc]
        have hnext := hborrowed later
        rw [List.append_assoc shapes] at hnext
        rw [linkSources_cons, missingShape_cons hread, hshapes, hnext]
        split
        · next hs => rw [borrowed_cons_of_nil hs]
        · next hs => rw [borrowed_cons_of_ne_nil hs]

theorem linkColumns_cons (table columns shapes : List ProjectedColumn) (c : ProjectedColumn)
    (rest : List ProjectedColumn) :
    linkColumns table columns shapes (c :: rest) =
      let here := match table.find? (·.column = c.column) with
        | some full => linkSources columns shapes full (shapeSourcesOf table full)
        | none => ([], shapes)
      let next := linkColumns table columns here.2 rest
      (⟨c.column, c.path, c.type, c.steps, here.1⟩ :: next.1, next.2) := by
  cases hfound : table.find? (·.column = c.column) with
  | none => simp only [linkColumns, hfound]
  | some full => simp only [linkColumns, hfound]

/-- Columns, linked: each is what it was but for its sources, and takes over what the
    sources of its column in the table have. -/
theorem linkColumns_spec (stored : Nat → List Triple)
    (table columns shapes rest : List ProjectedColumn) :
    ∃ added, (linkColumns table columns shapes rest).2 = shapes ++ added ∧
      List.Forall₂ (fun c linked => linked.column = c.column ∧ linked.steps = c.steps ∧
        ∀ full, table.find? (·.column = c.column) = some full → ∀ later,
          Assembly.missingShape (streamsOf stored (columns ++ (shapes ++ added ++ later)))
            linked.shapeSources = borrowed stored full (shapeSourcesOf table full))
        rest (linkColumns table columns shapes rest).1 := by
  induction rest generalizing shapes with
  | nil => exact ⟨[], (List.append_nil _).symm, .nil⟩
  | cons c rest ih =>
      rw [linkColumns_cons]
      cases hfind : table.find? (·.column = c.column) with
      | none =>
          rcases ih shapes with ⟨added, hrest, hall⟩
          refine ⟨added, hrest, .cons ⟨rfl, rfl, fun full hf => ?_⟩ hall⟩
          rw [hfind] at hf
          cases hf
      | some full =>
          rcases linkSources_spec stored columns shapes full
            (shapeSourcesOf table full) with ⟨first, hfirst, hborrowed⟩
          rcases ih (shapes ++ first) with ⟨added, hrest, hall⟩
          refine ⟨first ++ added, ?_, .cons ⟨rfl, rfl, fun full' hf later => ?_⟩ ?_⟩
          · simp only [hfirst, hrest, List.append_assoc]
          · rw [hfind, Option.some.injEq] at hf
            subst hf
            have happ : shapes ++ (first ++ added) ++ later =
                shapes ++ first ++ (added ++ later) := by
              simp only [List.append_assoc]
            rw [happ]
            exact hborrowed (added ++ later)
          · simp only [hfirst]
            refine hall.imp fun e linked h => ⟨h.1, h.2.1, fun full' hf later => ?_⟩
            have hlater := h.2.2 full' hf later
            rw [List.append_assoc shapes] at hlater
            exact hlater

/-- What a linked column takes over: it is what it was but for its sources, and these
    give what the sources of its column in the table have. -/
theorem withShapeSources_spec (stored : Nat → List Triple) (p : Projection) (table : Schema)
    (hp : p.shapeColumns = []) :
    List.Forall₂ (fun c linked => linked.column = c.column ∧ linked.steps = c.steps ∧
        ∀ full, (ofSchema table).columns.find? (·.column = c.column) = some full →
          Assembly.missingShape (streamsOf stored (p.withShapeSources table).reads)
            linked.shapeSources =
              borrowed stored full (shapeSourcesOf (ofSchema table).columns full))
      p.columns (p.withShapeSources table).columns := by
  rcases linkColumns_spec stored (ofSchema table).columns p.columns p.shapeColumns p.columns with
    ⟨added, hadded, hall⟩
  have hshapes : (p.withShapeSources table).shapeColumns = added := by
    have hall : (p.withShapeSources table).shapeColumns = p.shapeColumns ++ added := hadded
    rw [hall, hp, List.nil_append]
  have hsame : streamsOf stored (p.withShapeSources table).columns = streamsOf stored p.columns :=
    streamsOf_congr (hall.imp fun _ _ h => h.1)
  refine hall.imp fun c linked h => ⟨h.1, h.2.1, fun full hf => ?_⟩
  have hreads : streamsOf stored (p.withShapeSources table).reads =
      streamsOf stored (p.columns ++ (p.shapeColumns ++ added ++ [])) := by
    rw [reads, hshapes, hp, List.nil_append, List.append_nil, streamsOf_append, hsame,
      streamsOf_append]
  rw [hreads]
  exact h.2.2 full hf []

end Projection

end NestedColumns
