import NestedColumns.Proofs.Disk.Writing

/-!
# Removing directories from a disk that does not fail

A directory is removed with all it contains from the last path to the first. When the turn
of a directory comes nothing is left in it, so on a tree no removal is refused.

## Theorems

* `Disk.removeTree_spec`: A directory is removed.
* `Disk.removeTrees_spec`: Directories apart from each other are removed.
* `Disk.discardTrees_gone`: None of them is there afterwards.
* `Disk.removeTrees_exact`: Everything else is.
-/

namespace NestedColumns

namespace Disk

variable {d : Disk} {path : Path}

theorem Tree.pairwise_filter (h : d.Tree) (keep : Path → Bool) :
    ((d.entries.map (·.1)).filter keep).Pairwise fun a b => ¬ b <+: a :=
  (List.pairwise_map.mpr h.later).filter keep

theorem mem_list {name : String} {node : DiskNode} (h : (name, node) ∈ d.list path) :
    (path ++ [name], node) ∈ d.entries := by
  rcases List.mem_filterMap.mp h with ⟨⟨other, found⟩, hin, hsome⟩
  simp only at hsome
  split at hsome
  · next last hlast =>
    split at hsome
    · next hparent =>
      rw [Option.some.injEq, Prod.mk.injEq] at hsome
      rcases hsome with ⟨rfl, rfl⟩
      rw [← hparent, List.dropLast_append_getLast? last hlast]
      exact hin
    · cases hsome
  · cases hsome

-- The last of the paths below a directory has nothing in it.
theorem Tree.list_last (h : d.Tree) {p : Path} {before : List Path}
    (hpaths : (d.entries.map (·.1)).filter (path.isPrefixOf ·) = before ++ [p]) :
    d.list p = [] := by
  have hp : p ∈ (d.entries.map (·.1)).filter (path.isPrefixOf ·) := by
    rw [hpaths]
    exact List.mem_append_right _ List.mem_cons_self
  have hpre : path <+: p := List.isPrefixOf_iff_prefix.mp (List.mem_filter.mp hp).2
  have hordered := h.pairwise_filter (path.isPrefixOf ·)
  rw [hpaths, List.pairwise_append] at hordered
  rw [List.eq_nil_iff_forall_not_mem]
  rintro ⟨name, node⟩ hlisted
  have hentry : p ++ [name] ∈ d.entries.map (·.1) := List.mem_map.mpr ⟨_, mem_list hlisted, rfl⟩
  have hbelow : p ++ [name] ∈ before ++ [p] := by
    rw [← hpaths]
    exact List.mem_filter.mpr ⟨hentry,
      List.isPrefixOf_iff_prefix.mpr (hpre.trans (List.prefix_append ..))⟩
  rcases List.mem_append.mp hbelow with hbefore | hsame
  · exact hordered.2.2 _ hbefore p List.mem_cons_self (List.prefix_append ..)
  · have hlength := congrArg List.length (List.mem_singleton.mp hsame)
    rw [List.length_append, List.length_singleton] at hlength
    omega

theorem remove_spec (hr : d.Reliable) (h : d.Tree) {p : Path} {node : DiskNode}
    (hnode : d.node? p = some node) (hempty : d.list p = []) :
    ∃ after, d.perform (.remove p) = (after, .ok ()) ∧
      after.entries = d.entries.filter (·.1 ≠ p) ∧ after.Reliable ∧ after.Tree := by
  have hbefore : d.attempted.node? p = some node := hnode
  have hlist : (d.attempted.list p).isEmpty = true := List.isEmpty_iff.mpr hempty
  have happly : d.attempted.apply (.remove p) =
      .ok (d.attempted.setEntries (d.entries.filter (·.1 ≠ p))) := by
    rw [apply, hbefore]
    cases node with
    | directory =>
        simp only [hlist, if_true]
        rfl
    | file number => rfl
  have hperform := perform_eq_ok hr happly
  have hchanges : Changes (fun other => other ≠ p) (fun _ _ => False) (fun _ => False) d _ :=
    changes_of_perform hperform fun hne => hne rfl
  exact ⟨_, hperform, rfl, hchanges.reliable hr, hchanges.tree h⟩

-- The induction is on the paths that are left, of which the first is the last one made.
theorem removeAll_spec {paths : List Path} (hr : d.Reliable) (h : d.Tree)
    (hpaths : d.pathsBelow path = paths) :
    ∃ after, d.performAll (paths.map .remove) = (after, .ok ()) := by
  induction paths generalizing d with
  | nil => exact ⟨d, rfl⟩
  | cons p rest ih =>
      rw [pathsBelow, List.reverse_eq_cons_iff] at hpaths
      have hordered := h.pairwise_filter (path.isPrefixOf ·)
      rw [hpaths, List.pairwise_append] at hordered
      have hp : p ∈ (d.entries.map (·.1)).filter (path.isPrefixOf ·) := by
        rw [hpaths]
        exact List.mem_append_right _ List.mem_cons_self
      rcases List.mem_map.mp (List.mem_filter.mp hp).1 with ⟨e, he, rfl⟩
      have hnode := h.node?_of_mem he
      rcases remove_spec hr h hnode (h.list_last hpaths) with
        ⟨after, hperform, hentries, hreliable, htree⟩
      have hrest : after.pathsBelow path = rest := by
        have hkept : rest.reverse.filter (· ≠ e.1) = rest.reverse := by
          refine List.filter_eq_self.mpr fun other hother => decide_eq_true fun heq => ?_
          exact hordered.2.2 other hother e.1 List.mem_cons_self (heq ▸ List.prefix_refl _)
        have hmap : after.entries.map (·.1) = (d.entries.map (·.1)).filter (· ≠ e.1) := by
          rw [hentries, List.filter_map]
          rfl
        rw [pathsBelow, hmap, List.filter_comm, hpaths, List.filter_append, hkept,
          List.filter_cons_of_neg (by simp only [ne_eq, not_true, decide_false,
            Bool.false_eq_true, not_false_eq_true]), List.filter_nil, List.append_nil,
          List.reverse_reverse]
      rcases ih hreliable htree hrest with ⟨last, hall⟩
      refine ⟨last, ?_⟩
      rw [List.map_cons, performAll, hperform]
      exact hall

theorem removeTree_spec (hr : d.Reliable) (h : d.Tree) (hnode : d.node? path = some .directory) :
    ∃ after, d.removeTree path = (after, .ok ()) := by
  rw [removeTree, hnode]
  exact removeAll_spec hr h rfl

/-- Directories apart from each other are removed. -/
theorem removeTrees_spec {paths : List Path} (hr : d.Reliable) (h : d.Tree)
    (hnodes : ∀ p ∈ paths, d.node? p = some .directory)
    (hapart : paths.Pairwise fun a b => ¬ a <+: b) :
    ∃ after, d.removeTrees paths = (after, .ok ()) := by
  induction paths generalizing d with
  | nil => exact ⟨d, rfl⟩
  | cons p rest ih =>
      rw [List.pairwise_cons] at hapart
      rcases removeTree_spec hr h (hnodes p List.mem_cons_self) with ⟨middle, hremove⟩
      have hchanges : Changes (fun other => ¬ p <+: other) (fun _ _ => False) (fun _ => False) d
          (d.removeTree p).1 := removeTree_changes fun _ hpre hspared => hspared hpre
      rw [hremove] at hchanges
      rcases ih (hchanges.reliable hr) (hchanges.tree h)
        (fun other hother => hchanges.kept other _ (hapart.1 other hother)
          (hnodes other (List.mem_cons_of_mem _ hother))) hapart.2 with ⟨last, hall⟩
      refine ⟨last, ?_⟩
      rw [removeTrees, hremove]
      exact hall

/-! ### What is gone -/

-- What is there after a removal was there before.
theorem Changes.old {spared : Path → Prop} {written : Nat → Prop} {d' : Disk} {node : DiskNode}
    (h : Changes spared (fun _ _ => False) written d d') (hnode : d'.node? path = some node) :
    d.node? path = some node := by
  rcases h.new path node hnode with hold | ⟨hmade, -⟩
  · exact hold
  · exact absurd hmade id

theorem gone_of_remove {d' : Disk} (h : d.perform (.remove path) = (d', .ok ()))
    (hgiven : path.isGiven = false) : d'.node? path = none := by
  rcases apply_of_perform_ok h with ⟨after, happly, rfl⟩
  have hremoved := node?_remove d.attempted path path
  rw [if_pos ⟨rfl, hgiven⟩] at hremoved
  have hafter : after.node? path = none := by
    rw [apply] at happly
    split at happly
    · cases happly
    · split at happly
      · rw [← Except.ok.inj happly, hremoved]
      · cases happly
    · rw [← Except.ok.inj happly, hremoved]
  exact hafter

-- The induction is on the paths, of which one that is removed does not come back.
theorem gone_of_removeAll {paths : List Path} {d' : Disk} {p : Path}
    (h : d.performAll (paths.map .remove) = (d', .ok ())) (hp : p ∈ paths)
    (hgiven : p.isGiven = false) : d'.node? p = none := by
  induction paths generalizing d with
  | nil => exact absurd hp List.not_mem_nil
  | cons q rest ih =>
      rw [List.map_cons, performAll] at h
      rcases hperform : d.perform (.remove q) with ⟨d₁, result⟩
      rw [hperform] at h
      cases result with
      | error fault => cases h
      | ok _ =>
          have hrest : d₁.performAll (rest.map .remove) = (d', .ok ()) := h
          have hchanges : Changes (fun _ => False) (fun _ _ => False) (fun _ => False) d₁ d' :=
            changes_of_performAll hrest fun e he => by
              rcases List.mem_map.mp he with ⟨other, -, rfl⟩
              exact id
          rcases List.mem_cons.mp hp with rfl | hp
          · refine Option.eq_none_iff_forall_ne_some.mpr fun node hnode => ?_
            have hback := hchanges.old hnode
            rw [gone_of_remove hperform hgiven] at hback
            cases hback
          · exact ih hrest hp

theorem removeTree_gone (hr : d.Reliable) (h : d.Tree) (hgiven : path.isGiven = false) :
    (d.removeTree path).1.node? path ≠ some .directory := by
  rcases hnode : d.node? path with _ | _ | number
  · rw [removeTree, hnode, hnode]
    exact fun hsame => by cases hsame
  · rcases removeTree_spec hr h hnode with ⟨after, hremove⟩
    rw [hremove]
    rw [removeTree, hnode] at hremove
    have hbelow : path ∈ d.pathsBelow path := by
      rcases mem_of_node? hgiven hnode with ⟨e, he, rfl⟩
      exact List.mem_reverse.mpr (List.mem_filter.mpr ⟨List.mem_map_of_mem he,
        List.isPrefixOf_iff_prefix.mpr (List.prefix_refl _)⟩)
    rw [gone_of_removeAll hremove hbelow hgiven]
    exact fun hsame => by cases hsame
  · rw [removeTree, hnode, hnode]
    exact fun hsame => by cases hsame

/-- Directories that were removed are not there afterwards, and neither is anything in them. -/
theorem discardTrees_gone {paths : List Path} (hr : d.Reliable) (h : d.Tree) {p whole : Path}
    (hp : p ∈ paths) (hgiven : p.isGiven = false) (hw : p <+: whole) :
    (d.discardTrees paths).node? whole ≠ some .directory := by
  have hgone : (d.discardTrees paths).node? p ≠ some .directory := by
    clear hw
    induction paths generalizing d with
    | nil => exact absurd hp List.not_mem_nil
    | cons q rest ih =>
        have hfirst : Changes (fun _ => False) (fun _ _ => False) (fun _ => False) d
            (d.removeTree q).1 := removeTree_changes fun _ _ hspared => hspared
        have hrest : Changes (fun _ => False) (fun _ _ => False) (fun _ => False)
            (d.removeTree q).1 ((d.removeTree q).1.discardTrees rest) :=
          discardTrees_changes fun _ _ _ _ hspared => hspared
        have hsame : d.discardTrees (q :: rest) = (d.removeTree q).1.discardTrees rest := rfl
        rw [hsame]
        rcases List.mem_cons.mp hp with rfl | hp
        · exact fun hnode => removeTree_gone hr h hgiven (hrest.old hnode)
        · exact ih (hfirst.reliable hr) (hfirst.tree h) hp
  intro hnode
  have hall : Changes (fun _ => False) (fun _ _ => False) (fun _ => False) d
      (d.discardTrees paths) := discardTrees_changes fun _ _ _ _ hspared => hspared
  by_cases hsame : p = whole
  · exact hgone (hsame ▸ hnode)
  · exact hgone ((hall.tree h).directory_above hnode hw hsame)

-- Where no removal fails it does not matter what would be done then.
theorem removeTrees_eq_discardTrees {paths : List Path} {d' : Disk}
    (h : d.removeTrees paths = (d', .ok ())) : d' = d.discardTrees paths := by
  induction paths generalizing d with
  | nil => exact (Prod.mk.inj h).1.symm
  | cons p rest ih =>
      rw [removeTrees] at h
      rcases hremove : d.removeTree p with ⟨d₁, result⟩
      rw [hremove] at h
      cases result with
      | error fault => cases h
      | ok _ =>
          have hsame : d.discardTrees (p :: rest) = (d.removeTree p).1.discardTrees rest := rfl
          rw [hsame, hremove]
          exact ih h

/-- On a disk that does not fail, directories apart from each other are removed with all they
    contain, and nothing else is. -/
theorem removeTrees_exact {paths : List Path} (hr : d.Reliable) (h : d.Tree)
    (hnodes : ∀ p ∈ paths, d.node? p = some .directory)
    (hgiven : ∀ p ∈ paths, p.isGiven = false)
    (hapart : paths.Pairwise fun a b => ¬ a <+: b) :
    ∃ after, d.removeTrees paths = (after, .ok ()) ∧ after.Reliable ∧ after.Tree ∧
      after.contents = d.contents ∧
      (∀ p ∈ paths, ∀ whole, p <+: whole → after.node? whole = none) ∧
      ∀ whole, (∀ p ∈ paths, ¬ p <+: whole) → after.node? whole = d.node? whole := by
  rcases removeTrees_spec hr h hnodes hapart with ⟨after, hremove⟩
  have htrail : ∃ effects, Trail (fun other => ∀ p ∈ paths, ¬ p <+: other)
      (fun _ node => node = .directory) (fun _ => False) d (d.removeTrees paths).1 effects :=
    removeTrees_trail fun p hp other hpre hspared => hspared p hp hpre
  have hchanges : Changes (fun other => ∀ p ∈ paths, ¬ p <+: other) (fun _ _ => False)
      (fun _ => False) d (d.removeTrees paths).1 :=
    removeTrees_changes fun p hp other hpre hspared => hspared p hp hpre
  rw [hremove] at htrail hchanges
  rcases htrail with ⟨effects, htrail⟩
  have htree := hchanges.tree h
  refine ⟨after, hremove, hchanges.reliable hr, htree, htrail.contents, ?_, ?_⟩
  · intro p hp whole hpre
    have hgone := discardTrees_gone hr h hp (hgiven p hp) (List.prefix_refl p)
    rw [← removeTrees_eq_discardTrees hremove] at hgone
    refine Option.eq_none_iff_forall_ne_some.mpr fun node hnode => hgone ?_
    by_cases hsame : p = whole
    · rw [← hsame] at hnode
      have hold := hchanges.old hnode
      rw [hnodes p hp] at hold
      rw [hnode, ← hold]
    · exact htree.directory_above hnode hpre hsame
  · intro whole hspared
    cases hnode : d.node? whole with
    | some node => exact hchanges.kept whole node hspared hnode
    | none =>
        refine Option.eq_none_iff_forall_ne_some.mpr fun node hafter => ?_
        rw [hchanges.old hafter] at hnode
        cases hnode

end Disk

end NestedColumns
