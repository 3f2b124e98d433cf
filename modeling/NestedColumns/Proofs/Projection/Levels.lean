import NestedColumns.Proofs.Projection.Columns
import NestedColumns.Proofs.Projection.Links
import NestedColumns.Proofs.Projection.Pruning
import NestedColumns.Proofs.Schema.Merging

/-!
# The levels that columns are read with

Whatever a projection reads, be it for its values or for its shape, is a column of the
table, and is read with the levels of the way that leads to it there.

## Theorems

* `Projection.shapeColumns_subset`: What is read for shape is a column of the table.
* `Projection.exists_way_of_reads`: A column that is read has the levels of its way.
-/

namespace NestedColumns

namespace Projection

open Schema (Node)

theorem mem_of_mem_dropRepeats {last : Option Nat} {sources : List (ProjectedColumn × Nat)}
    {source : ProjectedColumn × Nat} (h : source ∈ dropRepeats last sources) :
    source ∈ sources := by
  induction sources generalizing last with
  | nil => cases h
  | cons first rest ih =>
      rcases first with ⟨c, depth⟩
      rw [dropRepeats] at h
      by_cases hlast : last = some c.column
      · rw [if_pos hlast] at h
        exact List.mem_cons_of_mem _ (ih h)
      · rw [if_neg hlast] at h
        rcases List.mem_cons.mp h with rfl | h
        · exact List.mem_cons_self
        · exact List.mem_cons_of_mem _ (ih h)

theorem mem_of_mem_shapeSourcesOf {table : List ProjectedColumn} {full : ProjectedColumn}
    {source : ProjectedColumn × Nat} (h : source ∈ shapeSourcesOf table full) :
    source.1 ∈ table := by
  rcases List.mem_filterMap.mp (mem_of_mem_dropRepeats h) with ⟨depth, -, hat⟩
  exact (shapeSourceAt_eq_some hat).2.1

theorem mem_readIndex {columns shapes : List ProjectedColumn} {c d : ProjectedColumn}
    (h : d ∈ (readIndex columns shapes c).2) : d ∈ shapes ∨ d = c := by
  rw [readIndex] at h
  split at h
  · exact Or.inl h
  · split at h
    · exact Or.inl h
    · simpa only [List.mem_append, List.mem_singleton] using h

-- Linking adds sources only, which come from the table.
theorem linkSources_subset {table columns shapes : List ProjectedColumn} {full : ProjectedColumn}
    {sources : List (ProjectedColumn × Nat)} (hs : ∀ source ∈ sources, source.1 ∈ table)
    (hshapes : shapes ⊆ table) : (linkSources columns shapes full sources).2 ⊆ table := by
  induction sources generalizing shapes with
  | nil => exact hshapes
  | cons source rest ih =>
      rcases source with ⟨c, depth⟩
      rw [linkSources_cons]
      refine ih (fun source h => hs source (List.mem_cons_of_mem _ h)) fun d hd => ?_
      rcases mem_readIndex hd with hd | rfl
      · exact hshapes hd
      · exact hs _ List.mem_cons_self

theorem linkColumns_subset {table columns shapes rest : List ProjectedColumn}
    (hshapes : shapes ⊆ table) : (linkColumns table columns shapes rest).2 ⊆ table := by
  induction rest generalizing shapes with
  | nil => exact hshapes
  | cons c rest ih =>
      rw [linkColumns_cons]
      cases table.find? (·.column = c.column) with
      | none => exact ih hshapes
      | some full => exact ih (linkSources_subset (fun _ h => mem_of_mem_shapeSourcesOf h) hshapes)

theorem shapeColumns_subset {p : Projection} {table : Schema} (hp : p.shapeColumns = []) :
    (p.withShapeSources table).shapeColumns ⊆ (ofSchema table).columns := by
  refine linkColumns_subset ?_
  rw [hp]
  exact List.nil_subset _

theorem levels_of_along? {node last : Node} {c : ProjectedColumn} {way : Way}
    (h : node.along? c.steps = some (way, last)) :
    c.maxRep = way.elements ∧ c.maxDef = way.length := by
  rcases Node.along?_measure h with ⟨hlength, helements⟩
  exact ⟨helements.symm, hlength.symm⟩

-- A projected column is a leaf of the part, and so of the whole.
theorem exists_way_of_reads {schema : Schema} {limit : Nat} (hs : schema.Sound limit)
    {paths : List String} {p : Projection} (h : resolve schema paths = .ok p) :
    ∀ c ∈ p.reads, ∃ way type, schema.root.at? way = some (.leaf c.column type) ∧
      c.maxRep = way.elements ∧ c.maxDef = way.length := by
  rcases resolve_eq_ok hs.names h with ⟨fields, rfl, hpart, hu, -⟩
  intro c hc
  rcases List.mem_append.mp hc with hc | hc
  · have hspec := withShapeSources_spec (fun _ => []) (ofSchema (Schema.ofFields fields)) schema rfl
    rcases List.mem_iff_getElem.mp hc with ⟨i, hi, rfl⟩
    have hi' : i < (ofSchema (Schema.ofFields fields)).columns.length := hspec.length_eq ▸ hi
    have hlinked := hspec.get hi' hi
    have hmem : (ofSchema (Schema.ofFields fields)).columns[i] ∈
        (ofSchema (Schema.ofFields fields)).columns := List.getElem_mem hi'
    rcases exists_way hmem with ⟨way, hw⟩
    have hwhole := hpart.at? (Node.at?_of_along? hu hw)
    have hsteps : (Node.object fields).along?
        (((ofSchema (Schema.ofFields fields)).withShapeSources schema).columns.get ⟨i, hi⟩).steps =
          some (way, .leaf (ofSchema (Schema.ofFields fields)).columns[i].column
            (ofSchema (Schema.ofFields fields)).columns[i].type) := by
      rw [hlinked.2.1]
      exact hw
    refine ⟨way, (ofSchema (Schema.ofFields fields)).columns[i].type, ?_, levels_of_along? hsteps⟩
    have hcolumn := hlinked.1
    simp only [List.get_eq_getElem] at hcolumn
    rw [hcolumn]
    exact hwhole
  · rcases exists_way (shapeColumns_subset rfl hc) with ⟨way, hw⟩
    exact ⟨way, c.type, Node.at?_of_along? hs.names hw, levels_of_along? hw⟩

end Projection

end NestedColumns
