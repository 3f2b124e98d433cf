import NestedColumns.Disk.Walk
import NestedColumns.Proofs.Disk.Writing

/-!
# Directories along a route

After the directories along a route were made, every step of the route leads to one, and so
does everything on the way to its end. As long as they are there, making them again changes
nothing.

## Main definitions

* `Disk.Above`: Everything on the way to a path is a directory, and so is what is at it.

## Theorems

* `Disk.makeAlong_trail`: Directories are made, and nothing else.
* `Disk.makeAlong_spec`: The directories are there.
* `Disk.makeAlong_again`: They are not made again.
-/

namespace NestedColumns

namespace Disk

/-- Everything on the way to a path is a directory, and so is what is at it. -/
def Above (d : Disk) (path : Path) : Prop :=
  ∀ other, other <+: path → d.node? other = some .directory

variable {spared : Path → Prop} {made : Path → DiskNode → Prop} {written : Nat → Prop}
  {d d' : Disk} {path : Path} {steps : List String}

theorem Above.changes (h : d.Above path) (hc : Changes spared made written d d')
    (hs : ∀ other, other <+: path → spared other) : d'.Above path :=
  fun other hother => hc.kept other _ (hs other hother) (h other hother)

theorem above_start (d : Disk) (r : Route) : d.Above r.start := by
  intro other hother
  rw [Route.start] at hother
  by_cases habsolute : r.absolute = true
  · rw [if_pos habsolute] at hother
    rcases List.prefix_cons_iff.mp hother with rfl | ⟨rest, rfl, hrest⟩
    · rfl
    · rw [List.prefix_nil.mp hrest]
      rfl
  · rw [if_neg habsolute] at hother
    rw [List.prefix_nil.mp hother]
    rfl

-- Double dots lead up, where everything is a directory, or to what is always there.
theorem Above.step {name : String} (h : d.Above path)
    (hnext : d.node? (path.step name) = some .directory) : d.Above (path.step name) := by
  intro other hother
  rw [Path.step] at hother hnext
  by_cases hdot : name = "."
  · rw [if_pos hdot] at hother
    exact h other hother
  · rw [if_neg hdot] at hother hnext
    by_cases hdots : name = ".."
    · rw [if_pos hdots, Path.up] at hother
      split at hother
      · exact h other hother
      · split at hother
        · next hall =>
          have hgiven : Path.isGiven other = true := by
            rw [Path.isGiven, Bool.or_eq_true, List.all_eq_true]
            refine Or.inr fun s hs => ?_
            rcases List.mem_append.mp (hother.subset hs) with hs | hs
            · have hsame := List.all_eq_true.mp hall s hs
              exact hsame
            · rw [List.mem_singleton.mp hs]
              rfl
          rw [node?, if_pos hgiven]
        · exact h other (hother.trans (List.dropLast_prefix _))
    · rw [if_neg hdots] at hother hnext
      rcases List.prefix_concat_iff.mp hother with rfl | hother
      · exact hnext
      · exact h other hother

-- Every step leads to a directory that is there or is made.
theorem makeSteps_spec (habove : d.Above path) (h : d.makeSteps path steps = (d', .ok ())) :
    Changes (fun _ => True) (fun _ node => node = .directory) (fun _ => False) d d' ∧
      ∀ before, before <+: steps → d'.Above (before.foldl Path.step path) := by
  induction steps generalizing d path with
  | nil =>
      rw [makeSteps, Prod.mk.injEq] at h
      refine ⟨h.1 ▸ .refl .., fun before hbefore => ?_⟩
      rw [List.prefix_nil.mp hbefore, ← h.1]
      exact habove
  | cons name rest ih =>
      have hcons : ∀ {middle : Disk},
          Changes (fun _ => True) (fun _ node => node = .directory) (fun _ => False) d middle →
            middle.node? (path.step name) = some .directory →
            middle.makeSteps (path.step name) rest = (d', .ok ()) →
            Changes (fun _ => True) (fun _ node => node = .directory) (fun _ => False) d d' ∧
              ∀ before, before <+: name :: rest → d'.Above (before.foldl Path.step path) := by
        intro middle hfirst hnext hrest
        have hmiddle := habove.changes hfirst fun _ _ => trivial
        rcases ih (hmiddle.step hnext) hrest with ⟨hchanges, hall⟩
        refine ⟨hfirst.trans hchanges, fun before hbefore => ?_⟩
        rcases List.prefix_cons_iff.mp hbefore with rfl | ⟨before', rfl, hbefore'⟩
        · exact hmiddle.changes hchanges fun _ _ => trivial
        · exact hall before' hbefore'
      rw [makeSteps] at h
      cases hnode : d.node? (path.step name) with
      | some node =>
          rw [hnode] at h
          cases node with
          | directory => exact hcons (.refl ..) hnode h
          | file number => cases h
      | none =>
          rw [hnode] at h
          simp only at h
          split at h
          · cases h
          · split at h
            · cases h
            · rcases hperform : d.perform (.makeDirectories (path.step name)) with ⟨middle, result⟩
              rw [hperform] at h
              cases result with
              | error fault => cases h
              | ok _ =>
                  have hchanges : Changes (fun _ => True) (fun _ node => node = .directory)
                      (fun _ => False) d middle := changes_of_perform hperform fun _ _ => rfl
                  exact hcons hchanges (there_of_makeDirectories hperform) h

-- Whether all of them can be made or not, nothing but directories is made.
theorem makeSteps_trail (d : Disk) (path : Path) (steps : List String) : ∃ effects,
    Trail (fun _ => True) (fun _ node => node = .directory) (fun _ => False) d
      (d.makeSteps path steps).1 effects := by
  induction steps generalizing d path with
  | nil => exact ⟨[], .refl ..⟩
  | cons name rest ih =>
      rw [makeSteps]
      rcases d.node? (path.step name) with _ | _ | number
      · simp only
        split
        · exact ⟨[], .refl ..⟩
        · split
          · exact ⟨[], .refl ..⟩
          · have hmade : ∃ effects,
                Trail (fun _ => True) (fun _ node => node = .directory) (fun _ => False) d
                  (d.perform (.makeDirectories (path.step name))).1 effects :=
              perform_trail fun _ _ => rfl
            rcases hmade with ⟨first, hfirst⟩
            rcases hperform : d.perform (.makeDirectories (path.step name)) with ⟨after, result⟩
            rw [hperform] at hfirst
            cases result with
            | error fault => exact ⟨first, hfirst⟩
            | ok _ =>
                rcases ih after (path.step name) with ⟨more, hmore⟩
                exact ⟨_, hfirst.trans hmore⟩
      · exact ih d (path.step name)
      · exact ⟨[], .refl ..⟩

theorem makeAlong_trail (d : Disk) (r : Route) : ∃ effects,
    Trail (fun _ => True) (fun _ node => node = .directory) (fun _ => False) d (d.makeAlong r).1
      effects := by
  rw [makeAlong]
  split
  · exact ⟨[], .refl ..⟩
  · exact makeSteps_trail ..

/-- The directories along a route are there when they have been made. -/
theorem makeAlong_spec {r : Route} (h : d.makeAlong r = (d', .ok ())) :
    Changes (fun _ => True) (fun _ node => node = .directory) (fun _ => False) d d' ∧
      ∀ before, before <+: r.steps → d'.Above (before.foldl Path.step r.start) := by
  rw [makeAlong] at h
  split at h
  · cases h
  · exact makeSteps_spec (above_start d r) h

theorem makeSteps_again (h : ∀ before, before <+: steps → before ≠ [] →
      d.node? (before.foldl Path.step path) = some .directory) :
    d.makeSteps path steps = (d, .ok ()) := by
  induction steps generalizing path with
  | nil => rfl
  | cons name rest ih =>
      have hnext : d.node? (path.step name) = some .directory :=
        h [name] (List.cons_prefix_cons.mpr ⟨rfl, List.nil_prefix⟩) (List.cons_ne_nil _ _)
      rw [makeSteps]
      simp only [hnext]
      exact ih fun before hbefore _ =>
        h (name :: before) (List.cons_prefix_cons.mpr ⟨rfl, hbefore⟩) (List.cons_ne_nil _ _)

/-- What is there is not made again. -/
theorem makeAlong_again {r : Route} {d₀ d₁ : Disk} (h : d₀.makeAlong r = (d₁, .ok ()))
    (hthere : ∀ before, before <+: r.steps → before ≠ [] →
      d.node? (before.foldl Path.step r.start) = some .directory) :
    d.makeAlong r = (d, .ok ()) := by
  rw [makeAlong] at h ⊢
  split at h
  · cases h
  · next hnames =>
    rw [if_neg hnames]
    exact makeSteps_again hthere

end Disk

end NestedColumns
