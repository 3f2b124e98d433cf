import NestedColumns.Proofs.Disk.Trees
import NestedColumns.Proofs.IdMap

/-!
# What changes of a disk leave alone

A single effect changes the disk in a small way, whether it succeeds, fails, or is cut
short by a fault: it adds paths, removes one, or writes to one file. Everything that a
store does is a sequence of these, so what a sequence spares, what it makes and which
files it writes to is known from its effects.

## Main definitions

* `Disk.Changes`: A disk that differs from another one in the given ways only.
* `Effect.Within`: The ways in which an effect may change a disk.

## Theorems

* `Disk.Changes.trans`: Changes one after another.
* `Disk.apply_changes`: A single effect.
* `Disk.perform_cases`: What becomes of an attempt.
-/

namespace NestedColumns

namespace Disk

/-- A disk after changes of another one: paths that are spared keep what is at them, what
    is at a path was there before or is made, files keep their contents if they are not
    written to, new files have new numbers, and a tree stays one. -/
structure Changes (spared : Path → Prop) (made : Path → DiskNode → Prop) (written : Nat → Prop)
    (d d' : Disk) : Prop where
  faults : d'.faults = d.faults
  nextFile : d.nextFile ≤ d'.nextFile
  kept : ∀ path node, spared path → d.node? path = some node → d'.node? path = some node
  new : ∀ path node, d'.node? path = some node → d.node? path = some node ∨
    made path node ∧ ∀ number, node = .file number → d.nextFile ≤ number ∧ number < d'.nextFile
  contents : ∀ number, number < d.nextFile → ¬ written number →
    d'.contentsOf number = d.contentsOf number
  tree : d.Tree → d'.Tree

namespace Changes

variable {spared spared' : Path → Prop} {made made' : Path → DiskNode → Prop}
  {written written' : Nat → Prop} {d d' d'' : Disk}

theorem refl (spared : Path → Prop) (made : Path → DiskNode → Prop) (written : Nat → Prop)
    (d : Disk) : Changes spared made written d d where
  faults := rfl
  nextFile := Nat.le_refl _
  kept := fun _ _ _ h => h
  new := fun _ _ h => Or.inl h
  contents := fun _ _ _ => rfl
  tree := fun h => h

theorem trans (h : Changes spared made written d d') (h' : Changes spared made written d' d'') :
    Changes spared made written d d'' where
  faults := h'.faults.trans h.faults
  nextFile := Nat.le_trans h.nextFile h'.nextFile
  kept := fun path node hs hn => h'.kept path node hs (h.kept path node hs hn)
  new := fun path node hn => by
    rcases h'.new path node hn with hold | ⟨hmade, hnumbers⟩
    · rcases h.new path node hold with hold | ⟨hmade, hnumbers⟩
      · exact Or.inl hold
      · refine Or.inr ⟨hmade, fun number hnumber => ?_⟩
        have hnew := hnumbers number hnumber
        have hmore := h'.nextFile
        omega
    · refine Or.inr ⟨hmade, fun number hnumber => ?_⟩
      have hnew := hnumbers number hnumber
      have hmore := h.nextFile
      omega
  contents := fun number hn hw => by
    have hmore := h.nextFile
    rw [h'.contents number (by omega) hw, h.contents number hn hw]
  tree := fun ht => h'.tree (h.tree ht)

-- Changes may be described less precisely.
theorem weaken (h : Changes spared made written d d') (hs : ∀ path, spared' path → spared path)
    (hm : ∀ path node, made path node → made' path node)
    (hw : ∀ number, written number → written' number) : Changes spared' made' written' d d' where
  faults := h.faults
  nextFile := h.nextFile
  kept := fun path node hspared => h.kept path node (hs path hspared)
  new := fun path node hn => by
    rcases h.new path node hn with hold | ⟨hmade, hnumbers⟩
    · exact Or.inl hold
    · exact Or.inr ⟨hm path node hmade, hnumbers⟩
  contents := fun number hn hwritten => h.contents number hn fun hw' => hwritten (hw number hw')
  tree := h.tree

end Changes

/-! ### Single effects -/

/-- An effect changes a disk in the given ways only. Files are replaced and renamed for
    exports alone, which are no part of what a store keeps. -/
def Effect.Within (spared : Path → Prop) (made : Path → DiskNode → Prop) (written : Nat → Prop) :
    Effect → Prop
  | .makeDirectories path => ∀ other, other <+: path → made other .directory
  | .createFile path _ => ∀ number, made path (.file number)
  | .writeAt file _ _ _ => written file
  | .truncate file _ _ => written file
  | .remove path => ¬ spared path
  | .replaceFile _ _ => False
  | .rename _ _ => False

variable {spared : Path → Prop} {made : Path → DiskNode → Prop} {written : Nat → Prop}
  {d d' : Disk}

-- Ways may be described less precisely.
theorem Effect.Within.weaken {spared' : Path → Prop} {made' : Path → DiskNode → Prop}
    {written' : Nat → Prop} {e : Effect} (h : Effect.Within spared made written e)
    (hs : ∀ path, spared' path → spared path) (hm : ∀ path node, made path node → made' path node)
    (hw : ∀ number, written number → written' number) :
    Effect.Within spared' made' written' e := by
  cases e with
  | makeDirectories path => exact fun other hother => hm _ _ (h other hother)
  | createFile path bytes => exact fun number => hm _ _ (h number)
  | replaceFile path bytes => exact h
  | writeAt file path position bytes => exact hw _ h
  | truncate file path length => exact hw _ h
  | remove path => exact fun hspared => h (hs path hspared)
  | rename source target => exact h

-- A part of a write is a write to the same file.
theorem Effect.Within.torn {e part : Effect} {n : Nat} (h : Effect.Within spared made written e)
    (ht : Effect.torn n e = some part) : Effect.Within spared made written part := by
  cases e <;> simp only [Effect.torn, Option.some.injEq, reduceCtorEq] at ht <;> subst ht <;> exact h

theorem directory_of_checkParent {path : Path} (h : d.checkParent path = .ok ()) :
    d.node? path.dropLast = some .directory := by
  rw [checkParent] at h
  split at h
  · next hnode => exact hnode
  · cases h
  · cases h

theorem changes_add_directory {path : Path} (hnone : d.node? path = none)
    (hparent : d.node? path.dropLast = some .directory) (hm : made path .directory) :
    Changes spared made written d (d.setEntries (d.entries ++ [(path, DiskNode.directory)])) where
  faults := rfl
  nextFile := Nat.le_refl _
  kept := fun other node _ hn => by
    rw [node?_append hnone]
    by_cases hsame : other = path
    · rw [hsame, hnone] at hn
      cases hn
    · rw [if_neg hsame, hn]
  new := fun other node hn => by
    rw [node?_append hnone] at hn
    by_cases hsame : other = path
    · rw [if_pos hsame, Option.some.injEq] at hn
      subst hn
      exact Or.inr ⟨hsame ▸ hm, fun _ h => by cases h⟩
    · rw [if_neg hsame] at hn
      exact Or.inl hn
  contents := fun _ _ _ => rfl
  tree := fun h => h.add hnone hparent .directory

theorem changes_addFile {path : Path} (hnone : d.node? path = none)
    (hparent : d.node? path.dropLast = some .directory)
    (hm : ∀ number, made path (.file number)) (bytes : List UInt8) :
    Changes spared made written d (d.addFile path bytes) where
  faults := rfl
  nextFile := Nat.le_succ _
  kept := fun other node _ hn => by
    have hat : (d.addFile path bytes).node? other =
        if other = path then some (.file d.nextFile) else d.node? other := node?_append hnone other
    by_cases hsame : other = path
    · rw [hsame, hnone] at hn
      cases hn
    · rw [hat, if_neg hsame, hn]
  new := fun other node hn => by
    have hat : (d.addFile path bytes).node? other =
        if other = path then some (.file d.nextFile) else d.node? other := node?_append hnone other
    rw [hat] at hn
    by_cases hsame : other = path
    · rw [if_pos hsame, Option.some.injEq] at hn
      subst hn
      refine Or.inr ⟨hsame ▸ hm _, fun number h => ?_⟩
      rw [DiskNode.file.injEq] at h
      rw [← h]
      exact ⟨Nat.le_refl _, Nat.lt_succ_self _⟩
    · rw [if_neg hsame] at hn
      exact Or.inl hn
  contents := fun number hn _ => by
    rw [contentsOf, addFile]
    simp only [IdMap.find?_insert]
    rw [if_neg (Nat.ne_of_gt hn), contentsOf]
  tree := fun h => (h.add hnone hparent (.file d.nextFile)).of_entries rfl

theorem changes_setContents {file : Nat} (hw : written file) (bytes : List UInt8) :
    Changes spared made written d (d.setContents file bytes) where
  faults := rfl
  nextFile := Nat.le_refl _
  kept := fun _ _ _ h => h
  new := fun _ _ h => Or.inl h
  contents := fun number _ hwritten => by
    have hne : file ≠ number := fun h => hwritten (h ▸ hw)
    rw [contentsOf, setContents]
    simp only [IdMap.find?_insert]
    rw [if_neg hne, contentsOf]
  tree := fun h => h.of_entries rfl

theorem changes_remove {path : Path} (hs : ¬ spared path)
    (hbelow : d.Tree → path.isGiven = false → ∀ e ∈ d.entries, path <+: e.1 → e.1 = path) :
    Changes spared made written d (d.setEntries (d.entries.filter (·.1 ≠ path))) where
  faults := rfl
  nextFile := Nat.le_refl _
  kept := fun other node hspared hn => by
    have hne : other ≠ path := fun h => hs (h ▸ hspared)
    rw [node?_remove, if_neg fun h => hne h.1, hn]
  new := fun other node hn => by
    rw [node?_remove] at hn
    split at hn
    · cases hn
    · exact Or.inl hn
  contents := fun _ _ _ => rfl
  tree := fun h => h.remove (hbelow h)

theorem makeFrom_changes {done rest : Path} (hdone : d.node? done = some .directory)
    (hm : ∀ other, other <+: done ++ rest → made other .directory)
    (h : d.makeFrom done rest = .ok d') : Changes spared made written d d' := by
  induction rest generalizing d done with
  | nil =>
      rw [makeFrom, Except.ok.injEq] at h
      subst h
      exact .refl ..
  | cons name rest ih =>
      have happend : done ++ name :: rest = done ++ [name] ++ rest := by
        rw [List.append_assoc, List.singleton_append]
      rw [happend] at hm
      rw [makeFrom] at h
      cases hnode : d.node? (done ++ [name]) with
      | none =>
          rw [hnode] at h
          have hparent : d.node? (done ++ [name]).dropLast = some .directory := by
            rw [List.dropLast_concat, hdone]
          have hthere : (d.setEntries (d.entries ++ [(done ++ [name], DiskNode.directory)])).node?
              (done ++ [name]) = some .directory := by
            rw [node?_append hnode, if_pos rfl]
          exact (changes_add_directory hnode hparent (hm _ (List.prefix_append ..))).trans
            (ih hthere hm h)
      | some node =>
          rw [hnode] at h
          cases node with
          | directory => exact ih hnode hm h
          | file number => cases h

theorem apply_changes {e : Effect} (hw : Effect.Within spared made written e)
    (h : d.apply e = .ok d') : Changes spared made written d d' := by
  cases e with
  | makeDirectories path =>
      have hprefix : ∀ other, other <+: [] ++ path → made other .directory := hw
      exact makeFrom_changes rfl hprefix h
  | createFile path bytes =>
      rw [apply] at h
      cases hnode : d.node? path with
      | some node => rw [hnode] at h; cases h
      | none =>
          rw [hnode] at h
          cases hparent : d.checkParent path with
          | error e => rw [hparent] at h; cases h
          | ok _ =>
              rw [hparent] at h
              simp only [Except.ok.injEq] at h
              exact h ▸ changes_addFile hnode (directory_of_checkParent hparent) hw bytes
  | writeAt file path position bytes =>
      rw [apply, Except.ok.injEq] at h
      exact h ▸ changes_setContents hw _
  | truncate file path length =>
      rw [apply, Except.ok.injEq] at h
      exact h ▸ changes_setContents hw _
  | remove path =>
      rw [apply] at h
      cases hnode : d.node? path with
      | none => rw [hnode] at h; cases h
      | some node =>
          rw [hnode] at h
          cases node with
          | directory =>
              simp only at h
              split at h
              · next hempty =>
                rw [Except.ok.injEq] at h
                exact h ▸ changes_remove hw fun ht hgiven _ he hprefix =>
                  ht.below_of_list (List.isEmpty_iff.mp hempty) hgiven he hprefix
              · cases h
          | file number =>
              rw [Except.ok.injEq] at h
              exact h ▸ changes_remove hw fun ht _ _ he hprefix =>
                ht.below_of_file hnode he hprefix
  | replaceFile path bytes => exact absurd hw id
  | rename source target => exact absurd hw id

/-! ### Attempts -/

-- An attempt changes nothing, or what it is for, or what a part of that is for; only the
-- second is a success.
theorem perform_cases (d : Disk) (e : Effect) :
    (∃ fault, d.perform e = (d.attempted, .error fault)) ∨
    (∃ after, d.attempted.apply e = .ok after ∧ d.perform e = (after.noted e, .ok ())) ∨
    ∃ n part after fault, Effect.torn n e = some part ∧ d.attempted.apply part = .ok after ∧
      d.perform e = (after.noted part, .error fault) := by
  rw [perform]
  cases d.faults d.attempts with
  | none =>
      simp only
      cases d.attempted.apply e with
      | ok after => exact Or.inr (Or.inl ⟨after, rfl, rfl⟩)
      | error fault => exact Or.inl ⟨fault, rfl⟩
  | some n =>
      simp only
      cases htorn : Effect.torn n e with
      | none => exact Or.inl ⟨.device, rfl⟩
      | some part =>
          simp only
          cases happly : d.attempted.apply part with
          | ok after => exact Or.inr (Or.inr ⟨n, part, after, .device, htorn, happly, rfl⟩)
          | error fault => exact Or.inl ⟨fault, rfl⟩

end Disk

end NestedColumns
