import NestedColumns.Proofs.Disk.Writing

/-!
# The disk without its faults

What succeeds on a disk with faults does the same on that disk without them: nothing else
than the faults decides otherwise than the disk as it is. So what is known of disks that do
not fail is known of every success.

## Main definitions

* `Disk.faultless`: A disk without its faults.

## Theorems

* `Disk.apply_faultless`: A change does the same without faults.
* `Disk.perform_faultless`, `Disk.performAll_faultless`: So do attempts that succeed.
-/

namespace NestedColumns

namespace Disk

/-- A disk without its faults. -/
def faultless (d : Disk) : Disk :=
  ⟨d.entries, d.contents, d.nextFile, d.attempts, fun _ => none, d.performed⟩

/-- A disk with other faults. -/
def setFaults (d : Disk) (faults : Nat → Option Nat) : Disk :=
  ⟨d.entries, d.contents, d.nextFile, d.attempts, faults, d.performed⟩

variable {d d' : Disk}

theorem faultless_reliable (d : Disk) : d.faultless.Reliable := rfl

theorem faultless_setFaults (hr : d.Reliable) (faults : Nat → Option Nat) :
    (d.setFaults faults).faultless = d := by
  have hsame : (d.setFaults faults).faultless =
      ⟨d.entries, d.contents, d.nextFile, d.attempts, fun _ => none, d.performed⟩ := rfl
  rw [hsame, ← hr]

theorem apply_faultless (d : Disk) (e : Effect) :
    d.faultless.apply e = (d.apply e).map faultless := by
  have hdress : d.faultless.apply e = (d.apply e).map (dress d.attempts (fun _ => none) d.performed) :=
    apply_dress ..
  rw [hdress]
  cases happly : d.apply e with
  | error fault => rfl
  | ok after =>
      have hsame := apply_same happly
      refine congrArg Except.ok ?_
      rw [hsame]
      rfl

theorem perform_faultless {e : Effect} (h : d.perform e = (d', .ok ())) :
    d.faultless.perform e = (d'.faultless, .ok ()) := by
  rcases apply_of_perform_ok h with ⟨after, happly, rfl⟩
  have hsame : d.faultless.attempted.apply e = .ok after.faultless := by
    have hboth := apply_faultless d.attempted e
    rw [happly] at hboth
    exact hboth
  exact perform_eq_ok (faultless_reliable d) hsame

theorem performAll_faultless {effects : List Effect} (h : d.performAll effects = (d', .ok ())) :
    d.faultless.performAll effects = (d'.faultless, .ok ()) := by
  induction effects generalizing d with
  | nil =>
      rw [performAll, Prod.mk.injEq] at h
      rw [performAll, h.1]
  | cons e rest ih =>
      rw [performAll] at h
      rcases hfirst : d.perform e with ⟨after, result⟩
      rw [hfirst] at h
      cases result with
      | error fault =>
          rw [Prod.mk.injEq] at h
          cases h.2
      | ok _ =>
          rw [performAll, perform_faultless hfirst]
          exact ih h

theorem Changes.faultless {spared : Path → Prop} {made : Path → DiskNode → Prop}
    {written : Nat → Prop} (h : Changes spared made written d d') :
    Changes spared made written d.faultless d'.faultless where
  faults := rfl
  nextFile := h.nextFile
  kept := h.kept
  new := h.new
  contents := h.contents
  tree := fun ht => (h.tree (ht.of_entries rfl)).of_entries rfl

end Disk

end NestedColumns
