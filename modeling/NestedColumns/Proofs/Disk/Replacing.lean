import NestedColumns.Proofs.Disk.Writing

/-!
# Replacing and renaming files

A file that is replaced keeps its number and loses its contents, and one that is renamed takes its
number along. Neither touches what is at other paths: each file is at one path only, and whatever
is attempted leaves it so.

## Main definitions

* `Disk.Numbered`: Every file is at one path only, and has a number that was given out.
* `Disk.SameAt`: What is at a path is the same on two disks.

## Theorems

* `Disk.replaceFile_spec`, `Disk.rename_spec`: What replacing and renaming a file does.
* `Disk.exists_replaceFile`, `Disk.exists_rename`: When a file can be replaced and renamed.
* `Disk.Numbered.perform`: Whatever is attempted, every file is at one path only.
-/

namespace NestedColumns

namespace Disk

/-- Every file is at one path only, and has a number that was given out. -/
structure Numbered (d : Disk) : Prop where
  below : ∀ path number, d.node? path = some (.file number) → number < d.nextFile
  single : ∀ path other number, d.node? path = some (.file number) →
    d.node? other = some (.file number) → other = path

/-- What is at a path is the same on two disks, with its contents if it is a file. -/
def SameAt (d d' : Disk) (path : Path) : Prop :=
  d'.node? path = d.node? path ∧
    ∀ number, d.node? path = some (.file number) → d'.contentsOf number = d.contentsOf number

variable {d d' d'' : Disk} {path source target : Path} {bytes : List UInt8}

theorem SameAt.trans (h : d.SameAt d' path) (h' : d'.SameAt d'' path) : d.SameAt d'' path :=
  ⟨h'.1.trans h.1, fun number hnode =>
    (h'.2 number (h.1.trans hnode)).trans (h.2 number hnode)⟩

theorem SameAt.read (h : d.SameAt d' path) : d'.read path = d.read path := by
  rw [Disk.read, Disk.read, h.1]
  rcases hnode : d.node? path with _ | _ | number
  · rfl
  · rfl
  · simp only [h.2 number hnode]

/-! ### Single effects -/

theorem apply_replaceFile (h : d.apply (.replaceFile path bytes) = .ok d') :
    (∃ number, d.node? path = some (.file number) ∧ d' = d.setContents number bytes) ∨
      d.node? path = none ∧ d.node? path.dropLast = some .directory ∧ d' = d.addFile path bytes := by
  rw [apply] at h
  rcases hnode : d.node? path with _ | _ | number
  · rw [hnode] at h
    cases hcheck : d.checkParent path with
    | error e =>
        rw [hcheck] at h
        cases h
    | ok there =>
        rw [hcheck] at h
        cases h
        exact Or.inr ⟨rfl, directory_of_checkParent hcheck, rfl⟩
  · rw [hnode] at h
    cases h
  · rw [hnode] at h
    cases h
    exact Or.inl ⟨number, rfl, rfl⟩

/-- A file that is replaced holds the bytes afterwards. Every file is at one path, so nothing else
    changes. -/
theorem replaceFile_spec (hd : d.Numbered) (h : d.apply (.replaceFile path bytes) = .ok d') :
    (∃ number, d'.node? path = some (.file number) ∧ d'.contentsOf number = bytes) ∧
      ∀ other, other ≠ path → d.SameAt d' other := by
  rcases apply_replaceFile h with ⟨number, hnode, rfl⟩ | ⟨hnone, hparent, rfl⟩
  · refine ⟨⟨number, hnode, contentsOf_setContents ..⟩, fun other hother => ⟨rfl, ?_⟩⟩
    have hchanges : Changes (fun _ => True) (fun _ _ => True) (· = number) d
        (d.setContents number bytes) := changes_setContents (by rfl) bytes
    exact fun found hfound => hchanges.contents found (hd.below _ _ hfound) fun hsame =>
      hother (hd.single _ _ _ hnode (hsame ▸ hfound))
  · have hchanges : Changes (fun _ => True) (fun _ _ => True) (fun _ => False) d
        (d.addFile path bytes) := changes_addFile hnone hparent (fun _ => trivial) bytes
    refine ⟨⟨d.nextFile, ?_, contentsOf_addFile ..⟩, fun other hother => ⟨?_, ?_⟩⟩
    · rw [node?_addFile hnone, if_pos rfl]
    · rw [node?_addFile hnone, if_neg hother]
    · exact fun found hfound => hchanges.contents found (hd.below _ _ hfound) id

/-- A path that no directory is at can be written to in a directory. -/
theorem exists_replaceFile (hnode : d.node? path ≠ some .directory)
    (hparent : d.node? path.dropLast = some .directory) (bytes : List UInt8) :
    ∃ d', d.apply (.replaceFile path bytes) = .ok d' := by
  have hcheck : d.checkParent path = .ok () := by rw [checkParent, hparent]
  rw [apply, hcheck]
  rcases hfound : d.node? path with _ | _ | number
  · exact ⟨_, rfl⟩
  · exact absurd hfound hnode
  · exact ⟨_, rfl⟩

theorem apply_rename (h : d.apply (.rename source target) = .ok d') :
    ∃ number, d.node? source = some (.file number) ∧ d.node? target ≠ some .directory ∧
      d' = d.setEntries ((d.entries.filter fun e => e.1 ≠ source && e.1 ≠ target) ++
        [(target, .file number)]) := by
  rw [apply] at h
  rcases hsource : d.node? source with _ | _ | number
  · rw [hsource] at h
    cases h
  · rw [hsource] at h
    cases h
  · rw [hsource] at h
    refine ⟨number, rfl, ?_⟩
    rcases htarget : d.node? target with _ | _ | other
    · rw [htarget] at h
      cases hcheck : d.checkParent target with
      | error e =>
          rw [hcheck] at h
          cases h
      | ok there =>
          rw [hcheck] at h
          cases h
          exact ⟨(fun hnot => by cases hnot), rfl⟩
    · rw [htarget] at h
      cases h
    · rw [htarget] at h
      cases hcheck : d.checkParent target with
      | error e =>
          rw [hcheck] at h
          cases h
          exact ⟨(fun hnot => by cases hnot), rfl⟩
      | ok there =>
          rw [hcheck] at h
          cases h
          exact ⟨(fun hnot => by cases hnot), rfl⟩

/-- A file that is renamed is at its new path, in place of one that was there, and no longer at its
    old one. -/
theorem rename_spec (h : d.apply (.rename source target) = .ok d') :
    ∃ number, d.node? source = some (.file number) ∧ d'.contentsOf = d.contentsOf ∧
      d'.nextFile = d.nextFile ∧ ∀ path, d'.node? path =
        if path = target then some (.file number) else if path = source then none
          else d.node? path := by
  rcases apply_rename h with ⟨number, hsource, htarget, rfl⟩
  refine ⟨number, hsource, rfl, rfl, fun path => ?_⟩
  have hgiven : ∀ {p : Path}, d.node? p ≠ some .directory → p.isGiven = false := by
    intro p hp
    by_contra hpath
    rw [Bool.not_eq_false] at hpath
    exact hp (by rw [node?, if_pos hpath])
  have hsourceGiven : source.isGiven = false := hgiven (by rw [hsource]; exact fun h => by cases h)
  -- Both paths are taken away first, and the new one is added.
  have hfilter : (d.entries.filter fun e => e.1 ≠ source && e.1 ≠ target) =
      (d.entries.filter (·.1 ≠ target)).filter (·.1 ≠ source) := by
    rw [List.filter_filter]
  have hboth : ∀ p, ((d.setEntries (d.entries.filter (·.1 ≠ target))).setEntries
      ((d.entries.filter (·.1 ≠ target)).filter (·.1 ≠ source))).node? p =
        if p = source ∨ p = target then none else d.node? p := by
    intro p
    have hfirst := node?_remove d target p
    have hsecond := node?_remove (d.setEntries (d.entries.filter (·.1 ≠ target))) source p
    rw [hgiven htarget] at hfirst
    rw [hsourceGiven, hfirst] at hsecond
    refine hsecond.trans ?_
    by_cases hp : p = source
    · simp only [hp, and_self, if_true, true_or]
    · simp only [hp, if_false, false_or, and_true]
  rw [hfilter]
  have hnone := (hboth target).trans (if_pos (Or.inr rfl))
  refine (node?_append hnone path).trans ?_
  rw [hboth]
  by_cases hpath : path = target
  · rw [if_pos hpath, if_pos hpath]
  · simp only [hpath, if_false, or_false]

theorem exists_rename {number : Nat} (hsource : d.node? source = some (.file number))
    (htarget : d.node? target ≠ some .directory)
    (hparent : d.node? target.dropLast = some .directory) :
    ∃ d', d.apply (.rename source target) = .ok d' := by
  have hcheck : d.checkParent target = .ok () := by rw [checkParent, hparent]
  rw [apply, hsource, hcheck]
  rcases hnode : d.node? target with _ | _ | other
  · exact ⟨_, rfl⟩
  · exact absurd hnode htarget
  · exact ⟨_, rfl⟩

/-! ### Every file is at one path -/

namespace Numbered

theorem empty : Disk.empty.Numbered := by
  have hnone : ∀ (path : Path) (number : Nat), Disk.empty.node? path ≠ some (.file number) := by
    intro path number h
    rw [node?] at h
    split at h
    · cases h
    · cases h
  exact ⟨fun path number h => absurd h (hnone path number),
    fun path other number h => absurd h (hnone path number)⟩

/-- Each file of the list is in it once. -/
theorem of_entries (h : ∀ e ∈ d.entries, e.2 ≠ .directory →
    e.2 ∈ (List.range d.nextFile).map DiskNode.file ∧ ∀ e' ∈ d.entries, e'.2 = e.2 → e'.1 = e.1) :
    d.Numbered := by
  have hmem : ∀ {p : Path} {number : Nat}, d.node? p = some (.file number) →
      (p, DiskNode.file number) ∈ d.entries := by
    intro p number hnode
    rw [node?] at hnode
    split at hnode
    · cases hnode
    · rcases List.lookup_eq_some_iff.mp hnode with ⟨before, after, hentries, -⟩
      rw [hentries]
      exact List.mem_append_right _ List.mem_cons_self
  constructor
  · intro p number hnode
    have hnumber := (h _ (hmem hnode) fun hnot => by cases hnot).1
    rcases List.mem_map.mp hnumber with ⟨found, hfound, heq⟩
    rw [DiskNode.file.injEq] at heq
    exact heq ▸ List.mem_range.mp hfound
  · exact fun p other number hp hother =>
      (h _ (hmem hp) fun hnot => by cases hnot).2 _ (hmem hother) rfl

-- A disk without new files.
theorem of_files (h : d.Numbered) (hnext : d.nextFile ≤ d'.nextFile)
    (hfiles : ∀ path number, d'.node? path = some (.file number) →
      d.node? path = some (.file number)) : d'.Numbered where
  below := fun path number hnode =>
    Nat.lt_of_lt_of_le (h.below path number (hfiles path number hnode)) hnext
  single := fun path other number hpath hother =>
    h.single path other number (hfiles path number hpath) (hfiles other number hother)

theorem addFile (h : d.Numbered) (hnone : d.node? path = none) (bytes : List UInt8) :
    (d.addFile path bytes).Numbered := by
  have hold : ∀ {p : Path} {number : Nat},
      (d.addFile path bytes).node? p = some (.file number) →
        p = path ∧ number = d.nextFile ∨ p ≠ path ∧ d.node? p = some (.file number) := by
    intro p number hnode
    rw [node?_addFile hnone] at hnode
    by_cases hp : p = path
    · rw [if_pos hp, Option.some.injEq, DiskNode.file.injEq] at hnode
      exact Or.inl ⟨hp, hnode.symm⟩
    · rw [if_neg hp] at hnode
      exact Or.inr ⟨hp, hnode⟩
  constructor
  · intro p number hnode
    rcases hold hnode with ⟨-, rfl⟩ | ⟨-, hnode⟩
    · exact Nat.lt_succ_self _
    · exact Nat.lt_succ_of_lt (h.below p number hnode)
  · intro p other number hp hother
    rcases hold hp with ⟨rfl, rfl⟩ | ⟨-, hp⟩
    · rcases hold hother with ⟨rfl, -⟩ | ⟨-, hother⟩
      · rfl
      · exact absurd (h.below _ _ hother) (Nat.lt_irrefl _)
    · rcases hold hother with ⟨-, rfl⟩ | ⟨-, hother⟩
      · exact absurd (h.below _ _ hp) (Nat.lt_irrefl _)
      · exact h.single p other number hp hother

theorem rename (h : d.Numbered) (happly : d.apply (.rename source target) = .ok d') :
    d'.Numbered := by
  rcases rename_spec happly with ⟨number, hsource, -, hnext, hnodes⟩
  -- A file of the new disk was at its path, or it is the one that was renamed.
  have hold : ∀ {p : Path} {found : Nat}, d'.node? p = some (.file found) →
      p = target ∧ found = number ∨ p ≠ source ∧ d.node? p = some (.file found) := by
    intro p found hnode
    rw [hnodes] at hnode
    by_cases htarget : p = target
    · rw [if_pos htarget, Option.some.injEq, DiskNode.file.injEq] at hnode
      exact Or.inl ⟨htarget, hnode.symm⟩
    · rw [if_neg htarget] at hnode
      by_cases hp : p = source
      · rw [if_pos hp] at hnode
        cases hnode
      · rw [if_neg hp] at hnode
        exact Or.inr ⟨hp, hnode⟩
  constructor
  · intro p found hnode
    rw [hnext]
    rcases hold hnode with ⟨-, rfl⟩ | ⟨-, hnode⟩
    · exact h.below _ _ hsource
    · exact h.below _ _ hnode
  · intro p other found hp hother
    rcases hold hp with ⟨rfl, rfl⟩ | ⟨hpsource, hp⟩
    · rcases hold hother with ⟨rfl, -⟩ | ⟨hosource, hother⟩
      · rfl
      · exact absurd (h.single _ _ _ hsource hother) hosource
    · rcases hold hother with ⟨-, rfl⟩ | ⟨-, hother⟩
      · exact absurd (h.single _ _ _ hsource hp) hpsource
      · exact h.single p other found hp hother

theorem apply {e : Effect} (h : d.Numbered) (happly : d.apply e = .ok d') : d'.Numbered := by
  cases e with
  | makeDirectories path =>
      have hroot : d.node? [] = some .directory := rfl
      have hchanges : Changes (fun _ => True) (fun _ node => node = .directory) (fun _ => False)
          d d' := makeFrom_changes hroot (fun _ _ => rfl) happly
      refine h.of_files hchanges.nextFile fun path number hnode => ?_
      rcases hchanges.new path _ hnode with hold | ⟨hmade, -⟩
      · exact hold
      · cases hmade
  | createFile path bytes =>
      rw [Disk.apply] at happly
      rcases hnode : d.node? path with _ | node
      · rw [hnode] at happly
        cases hcheck : d.checkParent path with
        | error e =>
            rw [hcheck] at happly
            cases happly
        | ok there =>
            rw [hcheck] at happly
            cases happly
            exact h.addFile hnode bytes
      · rw [hnode] at happly
        cases happly
  | replaceFile path bytes =>
      rcases apply_replaceFile happly with ⟨number, -, rfl⟩ | ⟨hnone, -, rfl⟩
      · exact h.of_files (Nat.le_refl _) fun _ _ hnode => hnode
      · exact h.addFile hnone bytes
  | writeAt file path position bytes =>
      cases happly
      exact h.of_files (Nat.le_refl _) fun _ _ hnode => hnode
  | truncate file path length =>
      cases happly
      exact h.of_files (Nat.le_refl _) fun _ _ hnode => hnode
  | remove path =>
      have hremoved : (d.setEntries (d.entries.filter (·.1 ≠ path))).Numbered := by
        refine h.of_files (Nat.le_refl _) fun other number hnode => ?_
        rw [node?_remove] at hnode
        split at hnode
        · cases hnode
        · exact hnode
      rw [Disk.apply] at happly
      rcases hnode : d.node? path with _ | _ | number
      · rw [hnode] at happly
        cases happly
      · rw [hnode] at happly
        simp only at happly
        split at happly
        · cases happly
          exact hremoved
        · cases happly
      · rw [hnode] at happly
        cases happly
        exact hremoved
  | rename source target => exact h.rename happly

/-- Whatever is attempted, every file is at one path only. -/
theorem perform (h : d.Numbered) (e : Effect) : (d.perform e).1.Numbered := by
  have hattempted : d.attempted.Numbered := h.of_files (Nat.le_refl _) fun _ _ hnode => hnode
  have hnoted : ∀ {after : Disk} {done part : Effect}, d.attempted.apply part = .ok after →
      (after.noted done).Numbered := fun happly =>
    (hattempted.apply happly).of_files (Nat.le_refl _) fun _ _ hnode => hnode
  rcases perform_cases d e with ⟨fault, heq⟩ | ⟨after, happly, heq⟩ |
    ⟨n, part, after, fault, -, happly, heq⟩
  · rw [heq]
    exact hattempted
  · rw [heq]
    exact hnoted happly
  · rw [heq]
    exact hnoted happly

end Numbered

end Disk

end NestedColumns
