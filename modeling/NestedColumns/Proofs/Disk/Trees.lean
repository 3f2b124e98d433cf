import NestedColumns.Disk
import Mathlib.Data.List.Basic

/-!
# Disks as trees

Everything on a disk is in a directory that was made before it, so the paths of a disk form
a tree, and one after another in the order in which they came about no later one is above an
earlier one. All effects keep it so. This is why a directory is emptied when its paths are
removed from the last to the first.

## Main definitions

* `Disk.Tree`: A disk on which everything is in a directory that was made before it.

## Theorems

* `Disk.node?_append`, `Disk.node?_remove`: What is at a path after a change.
* `Disk.Tree.add`, `Disk.Tree.remove`: A path more and a path less.
-/

namespace NestedColumns

namespace Disk

/-! ### Looking up paths -/

theorem node?_append {d : Disk} {path : Path} {node : DiskNode} (hnone : d.node? path = none)
    (other : Path) :
    (d.setEntries (d.entries ++ [(path, node)])).node? other =
      if other = path then some node else d.node? other := by
  rw [node?] at hnone
  rw [node?, node?, setEntries]
  by_cases hgiven : path.isGiven = true
  · rw [if_pos hgiven] at hnone
    cases hnone
  · rw [if_neg hgiven] at hnone
    rw [List.lookup_append]
    by_cases hsame : other = path
    · subst hsame
      rw [if_pos rfl, if_neg hgiven, hnone, Option.none_or, List.lookup_cons_self]
    · have hmiss : List.lookup other [(path, node)] = none := by
        rw [List.lookup_cons, beq_eq_false_iff_ne.mpr hsame]
        rfl
      rw [if_neg hsame, hmiss, Option.or_none]

theorem lookup_filter_ne (entries : List (Path × DiskNode)) (path other : Path) :
    (entries.filter (·.1 ≠ path)).lookup other =
      if other = path then none else entries.lookup other := by
  induction entries with
  | nil => simp only [List.filter_nil, List.lookup_nil, ite_self]
  | cons e rest ih =>
      rcases e with ⟨p, node⟩
      by_cases hp : p = path
      · rw [List.filter_cons_of_neg (by simpa only [ne_eq, decide_not, Bool.not_eq_true',
          decide_eq_false_iff_not, not_not] using hp), ih, List.lookup_cons]
        by_cases ho : other = path
        · rw [if_pos ho, if_pos ho]
        · rw [if_neg ho, if_neg ho, hp, beq_eq_false_iff_ne.mpr ho]
      · rw [List.filter_cons_of_pos (by simpa only [ne_eq, decide_not, Bool.not_eq_true',
          decide_eq_false_iff_not] using hp), List.lookup_cons, ih, List.lookup_cons]
        by_cases ho : other = p
        · rw [ho, beq_self_eq_true]
          simp only
          rw [if_neg hp]
        · rw [beq_eq_false_iff_ne.mpr ho]

theorem node?_remove (d : Disk) (path other : Path) :
    (d.setEntries (d.entries.filter (·.1 ≠ path))).node? other =
      if other = path ∧ path.isGiven = false then none else d.node? other := by
  rw [node?, node?, setEntries, lookup_filter_ne]
  by_cases hsame : other = path
  · subst hsame
    cases hgiven : other.isGiven with
    | true => simp only [if_true, Bool.true_eq_false, and_false, if_false]
    | false => simp only [Bool.false_eq_true, if_false, if_true, and_self]
  · rw [if_neg hsame]
    simp only [hsame, false_and, if_false]

/-! ### Trees -/

/-- Everything is in a directory, which came about before it: no path is above one that came
    before, and what is above a path is a directory. What is given is not noted. -/
structure Tree (d : Disk) : Prop where
  later : d.entries.Pairwise fun a b => ¬ b.1 <+: a.1
  above : ∀ e ∈ d.entries, ∀ path, path <+: e.1 → path ≠ e.1 → d.node? path = some .directory
  noted : ∀ e ∈ d.entries, Path.isGiven e.1 = false

variable {d d' : Disk} {path : Path} {node : DiskNode}

theorem tree_empty : empty.Tree where
  later := .nil
  above := fun _ he => absurd he List.not_mem_nil
  noted := fun _ he => absurd he List.not_mem_nil

-- The contents of files are not looked at.
theorem Tree.of_entries (h : d.Tree) (he : d'.entries = d.entries) : d'.Tree where
  later := he ▸ h.later
  above := fun e hin path hp hne => by
    rw [he] at hin
    rw [node?, he]
    exact h.above e hin path hp hne
  noted := he ▸ h.noted

theorem isGiven_of_start {other : Path} (h : other <+: path) (hgiven : path.isGiven = true) :
    other.isGiven = true := by
  rw [Path.isGiven, Bool.or_eq_true, beq_iff_eq, List.all_eq_true] at hgiven
  rcases hgiven with rfl | hall
  · rcases List.prefix_cons_iff.mp h with rfl | ⟨rest, rfl, hrest⟩
    · rfl
    · rw [List.prefix_nil.mp hrest]
      rfl
  · rw [Path.isGiven, Bool.or_eq_true, List.all_eq_true]
    exact Or.inr fun name hname => hall name (h.subset hname)

theorem isGiven_of_none (hnone : d.node? path = none) : path.isGiven = false := by
  rw [← Bool.not_eq_true]
  intro hgiven
  rw [node?, if_pos hgiven] at hnone
  cases hnone

theorem mem_of_node? (hgiven : path.isGiven = false) (hnode : d.node? path = some node) :
    ∃ e ∈ d.entries, e.1 = path := by
  rw [node?, hgiven, if_neg Bool.false_ne_true] at hnode
  by_contra hnot
  have hnone : d.entries.lookup path = none := by
    rw [List.lookup_eq_none_iff]
    intro e he
    rw [bne_iff_ne]
    exact fun heq => hnot ⟨e, he, heq.symm⟩
  rw [hnone] at hnode
  cases hnode

-- No path is noted twice.
theorem Tree.node?_of_mem (h : d.Tree) {e : Path × DiskNode} (he : e ∈ d.entries) :
    d.node? e.1 = some e.2 := by
  rcases List.append_of_mem he with ⟨before, after, hsplit⟩
  have hlater := h.later
  rw [hsplit, List.pairwise_append] at hlater
  rw [node?, h.noted e he, if_neg Bool.false_ne_true, List.lookup_eq_some_iff]
  refine ⟨before, after, hsplit, fun other hother => ?_⟩
  rw [bne_iff_ne]
  exact fun heq => hlater.2.2 other hother e List.mem_cons_self (heq ▸ List.prefix_refl _)

-- Whatever is at a path, above it are directories.
theorem Tree.directory_above (h : d.Tree) (hnode : d.node? path = some node) {other : Path}
    (hother : other <+: path) (hne : other ≠ path) : d.node? other = some .directory := by
  by_cases hgiven : path.isGiven = true
  · rw [node?, if_pos (isGiven_of_start hother hgiven)]
  · rw [Bool.not_eq_true] at hgiven
    rcases mem_of_node? hgiven hnode with ⟨e, he, rfl⟩
    exact h.above e he other hother hne

theorem Tree.add (h : d.Tree) (hnone : d.node? path = none)
    (hparent : d.node? path.dropLast = some .directory) (node : DiskNode) :
    (d.setEntries (d.entries ++ [(path, node)])).Tree := by
  have hgiven := isGiven_of_none hnone
  have hne : path ≠ [] := by
    rintro rfl
    cases hgiven
  have hup : ∀ other, other <+: path → other ≠ path → d.node? other = some .directory := by
    intro other hother hdiffer
    rw [← List.dropLast_concat_getLast hne] at hother hdiffer
    rcases List.prefix_concat_iff.mp hother with heq | hother
    · exact absurd heq hdiffer
    · by_cases hsame : other = path.dropLast
      · rw [hsame, hparent]
      · exact h.directory_above hparent hother hsame
  have hkeep : ∀ other, d.node? other = some .directory →
      (d.setEntries (d.entries ++ [(path, node)])).node? other = some .directory := by
    intro other hother
    have hdiffer : other ≠ path := by
      rintro rfl
      rw [hnone] at hother
      cases hother
    rw [node?_append hnone, if_neg hdiffer, hother]
  refine ⟨?_, fun e he other hother hdiffer => ?_, fun e he => ?_⟩
  · refine List.pairwise_append.mpr ⟨h.later, List.pairwise_singleton _ _, fun a ha b hb => ?_⟩
    rw [List.mem_singleton] at hb
    subst hb
    intro hpre
    by_cases hsame : path = a.1
    · rw [hsame, h.node?_of_mem ha] at hnone
      cases hnone
    · rw [h.above a ha path hpre hsame] at hnone
      cases hnone
  · refine hkeep other ?_
    rcases List.mem_append.mp he with he | he
    · exact h.above e he other hother hdiffer
    · rw [List.mem_singleton] at he
      rw [he] at hother hdiffer
      exact hup other hother hdiffer
  · rcases List.mem_append.mp he with he | he
    · exact h.noted e he
    · rw [List.mem_singleton] at he
      rw [he, hgiven]

-- Nothing is in a directory of which nothing is listed.
theorem Tree.below_of_list (h : d.Tree) (hempty : d.list path = []) (hgiven : path.isGiven = false)
    {e : Path × DiskNode} (he : e ∈ d.entries) (hpre : path <+: e.1) : e.1 = path := by
  by_contra hne
  rcases hpre with ⟨rest, hrest⟩
  cases rest with
  | nil => exact hne (by rw [← hrest, List.append_nil])
  | cons name rest =>
      -- The first name below the path is that of something in it.
      have hway : path ++ [name] <+: e.1 := by
        rw [← hrest]
        exact (List.prefix_append_right_inj path).mpr (List.cons_prefix_cons.mpr
          ⟨rfl, List.nil_prefix⟩)
      have hchild : ∃ f ∈ d.entries, f.1 = path ++ [name] := by
        by_cases hsame : path ++ [name] = e.1
        · exact ⟨e, he, hsame.symm⟩
        · have hdirectory := h.above e he _ hway hsame
          refine mem_of_node? ?_ hdirectory
          rw [← Bool.not_eq_true]
          intro hchild
          rw [isGiven_of_start (List.prefix_append ..) hchild] at hgiven
          cases hgiven
      rcases hchild with ⟨⟨child, node⟩, hchild, hpath⟩
      have hlisted : (name, node) ∈ d.list path := by
        refine List.mem_filterMap.mpr ⟨(child, node), hchild, ?_⟩
        simp only at hpath
        simp only [hpath, List.getLast?_concat, List.dropLast_concat, if_true]
      rw [hempty] at hlisted
      cases hlisted

-- A path may go if nothing is below it.
theorem Tree.remove (h : d.Tree)
    (hbelow : path.isGiven = false → ∀ e ∈ d.entries, path <+: e.1 → e.1 = path) :
    (d.setEntries (d.entries.filter (·.1 ≠ path))).Tree where
  later := h.later.filter _
  above := fun e he other hother hne => by
    rcases List.mem_filter.mp he with ⟨hin, hkept⟩
    rw [node?_remove]
    have hnot : ¬ (other = path ∧ path.isGiven = false) := by
      rintro ⟨rfl, hgiven⟩
      exact of_decide_eq_true hkept (hbelow hgiven e hin hother)
    rw [if_neg hnot]
    exact h.above e hin other hother hne
  noted := fun e he => h.noted e (List.mem_of_mem_filter he)

-- Nothing is below a file.
theorem Tree.below_of_file (h : d.Tree) {number : Nat} (hnode : d.node? path = some (.file number))
    {e : Path × DiskNode} (he : e ∈ d.entries) (hpre : path <+: e.1) : e.1 = path := by
  by_contra hne
  rw [h.above e he path hpre (Ne.symm hne)] at hnode
  cases hnode

end Disk

end NestedColumns
