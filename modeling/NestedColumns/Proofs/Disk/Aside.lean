import NestedColumns.Disk.Walk
import NestedColumns.Proofs.Disk.Replacing
import NestedColumns.Proofs.Outcome

/-!
# Files that are written aside

A file that is exported is written under a hidden name and renamed then. Where a route leads a
file depends on the directories on its way, and the hidden file is none of them, so the route
leads to the same place before and after. What is elsewhere stays as it is until the hidden file
is in its place.

## Main definitions

* `Disk.Admits`: There may be a file at the end of a route.
* `Disk.writeAside`: A file written under its hidden name and renamed.
* `Disk.Aside`: A disk on which a hidden file was written.

## Theorems

* `Disk.place_eq_ok`: Where a route leads a file that is to be made.
* `Disk.writeAside_read`: What is read afterwards.
* `Disk.exists_writeAside`: When a file can be written aside.
-/

namespace NestedColumns

namespace Disk

variable {d d' d'' : Disk} {path : Path} {bytes : List UInt8}

/-! ### Where a route leads a file -/

/-- There may be a file at the end of a route: it ends in a name in a directory, at which there is
    no directory. -/
def Admits (d : Disk) (r : Route) : Prop :=
  ∃ path, d.place r = .ok path ∧ d.node? path ≠ some .directory

-- The induction is on the steps of the route.
theorem foldlM_stepFrom_congr (h : ∀ p, d.node? p = some .directory → d'.node? p = some .directory)
    {steps : List String} {from_ path : Path} (hwalk : steps.foldlM d.stepFrom from_ = .ok path) :
    steps.foldlM d'.stepFrom from_ = .ok path := by
  induction steps generalizing from_ with
  | nil => exact hwalk
  | cons name rest ih =>
      rw [List.foldlM_cons] at hwalk ⊢
      rcases Outcome.bind_eq_ok.mp hwalk with ⟨next, hstep, hrest⟩
      refine Outcome.bind_eq_ok.mpr ⟨next, ?_, ih hrest⟩
      rw [stepFrom] at hstep ⊢
      rcases hnode : d.node? from_ with _ | _ | number
      · rw [hnode] at hstep
        cases hstep
      · rw [hnode] at hstep
        rw [h _ hnode]
        exact hstep
      · rw [hnode] at hstep
        cases hstep

-- Only directories are gone through, so a disk with the same directories has the same ways.
theorem place_of_directories (h : ∀ p, d.node? p = some .directory → d'.node? p = some .directory)
    {r : Route} (hplace : d.place r = .ok path) : d'.place r = .ok path := by
  have hwalk : ∀ {path}, d.walk r = .ok path → d'.walk r = .ok path := by
    intro path hwalk
    rw [walk] at hwalk ⊢
    by_cases hempty : r.isEmpty = true
    · rw [if_pos hempty] at hwalk
      cases hwalk
    · rw [if_neg hempty] at hwalk ⊢
      exact foldlM_stepFrom_congr h hwalk
  rw [place, placeOfName] at hplace ⊢
  cases hfound : d.walk r with
  | error e =>
      rw [hfound] at hplace
      cases hplace
  | ok found =>
      rw [hfound] at hplace
      rw [hwalk hfound]
      exact hplace

/-- A route leads a file into a directory that is there, under the last name of the route. -/
theorem place_eq_ok {r : Route} (hplace : d.place r = .ok path) :
    ∃ directory name, r.steps.getLast? = some name ∧ path = directory ++ [name] ∧
      d.node? directory = some .directory := by
  rw [place, placeOfName] at hplace
  cases hwalk : d.walk r with
  | error e =>
      rw [hwalk] at hplace
      cases hplace
  | ok found =>
      rw [hwalk] at hplace
      rcases hlast : r.steps.getLast? with _ | name
      · rw [hlast] at hplace
        cases hplace
      · simp only [hlast] at hplace
        by_cases hdots : name = "." ∨ name = ".."
        · rw [if_pos hdots] at hplace
          cases hplace
        · rw [if_neg hdots] at hplace
          rw [not_or] at hdots
          have hfound : found = path := by
            simp only at hplace
            split at hplace
            · cases hplace
            · exact Except.ok.inj hplace
          subst hfound
          rcases List.getLast?_eq_some_iff.mp hlast with ⟨before, hsteps⟩
          rw [walk] at hwalk
          split at hwalk
          · cases hwalk
          · rw [hsteps, List.foldlM_append] at hwalk
            rcases Outcome.bind_eq_ok.mp hwalk with ⟨directory, -, hstep⟩
            rw [List.foldlM_cons] at hstep
            rcases Outcome.bind_eq_ok.mp hstep with ⟨next, hnext, hend⟩
            cases hend
            rw [stepFrom] at hnext
            rcases hnode : d.node? directory with _ | _ | number
            · rw [hnode] at hnext
              cases hnext
            · rw [hnode] at hnext
              simp only at hnext
              split at hnext
              · refine ⟨directory, name, rfl, ?_, hnode⟩
                rw [← Except.ok.inj hnext, Path.step, if_neg hdots.1, if_neg hdots.2]
              · cases hnext
            · rw [hnode] at hnext
              cases hnext

/-- The hidden file beside the end of a route has a name of its own kind. -/
theorem getLast?_hiddenSibling (r : Route) :
    ∃ stem, r.hiddenSibling.steps.getLast? = some (stem ++ ".tmp") := by
  rw [Route.hiddenSibling]
  rcases r.properSteps.getLast? with _ | name
  · exact ⟨".", List.getLast?_concat⟩
  · simp only
    split
    · exact ⟨".", List.getLast?_concat⟩
    · exact ⟨"." ++ name, List.getLast?_concat⟩

/-! ### Files that are written aside -/

/-- A file written at the end of a route: under its hidden name first, which it keeps if it cannot
    be renamed. If it cannot be written, it is removed. -/
def writeAside (d : Disk) (output : Route) (bytes : List UInt8) : Disk × Except FileError Unit :=
  match d.place output.hiddenSibling with
  | .error e => (d, .error e)
  | .ok hidden =>
    match d.performAll [.replaceFile hidden [], .replaceFile hidden bytes] with
    | (d, .error e) => ((d.removeFile hidden).1, .error e)
    | (d, .ok _) =>
      match d.place output with
      | .error e => (d, .error e)
      | .ok path => d.perform (.rename hidden path)

/-- A disk on which a hidden file was written. -/
structure Aside (d d' : Disk) (hidden : Path) (bytes : List UInt8) : Prop where
  file : ∃ number, d'.node? hidden = some (.file number) ∧ d'.contentsOf number = bytes
  same : ∀ other, other ≠ hidden → d.SameAt d' other
  notDirectory : d.node? hidden ≠ some .directory
  numbered : d'.Numbered
  faults : d'.faults = d.faults

theorem Aside.directory {hidden : Path} (h : Aside d d' hidden bytes) (p : Path) :
    d'.node? p = some .directory ↔ d.node? p = some .directory := by
  by_cases hp : p = hidden
  · subst hp
    rcases h.file with ⟨number, hnode, -⟩
    rw [hnode]
    exact ⟨(fun hnot => by cases hnot), fun hdirectory => absurd hdirectory h.notDirectory⟩
  · rw [(h.same p hp).1]

theorem aside_of_perform {hidden : Path} (hd : d.Numbered)
    (h : d.perform (.replaceFile hidden bytes) = (d', .ok ())) : Aside d d' hidden bytes := by
  rcases apply_of_perform_ok h with ⟨after, happly, rfl⟩
  have hattempted : d.attempted.Numbered := hd.of_files (Nat.le_refl _) fun _ _ hnode => hnode
  rcases replaceFile_spec hattempted happly with ⟨hfile, hsame⟩
  refine ⟨hfile, hsame, fun hnode => ?_, ?_, ?_⟩
  · rcases apply_replaceFile happly with ⟨number, hother, -⟩ | ⟨hother, -⟩
    · rw [show d.attempted.node? hidden = d.node? hidden from rfl, hnode] at hother
      cases hother
    · rw [show d.attempted.node? hidden = d.node? hidden from rfl, hnode] at hother
      cases hother
  · have hperform := hd.perform (.replaceFile hidden bytes)
    rw [h] at hperform
    exact hperform
  · have hfaults : after.faults = d.faults := by rw [apply_same happly]; rfl
    exact hfaults

theorem Aside.trans {hidden : Path} {before : List UInt8} (h : Aside d d' hidden before)
    (h' : Aside d' d'' hidden bytes) : Aside d d'' hidden bytes where
  file := h'.file
  same := fun other hother => (h.same other hother).trans (h'.same other hother)
  notDirectory := h.notDirectory
  numbered := h'.numbered
  faults := h'.faults.trans h.faults

theorem aside_of_performAll {hidden : Path} {before : List UInt8} (hd : d.Numbered)
    (h : d.performAll [.replaceFile hidden before, .replaceFile hidden bytes] = (d', .ok ())) :
    Aside d d' hidden bytes := by
  rw [performAll] at h
  rcases hfirst : d.perform (.replaceFile hidden before) with ⟨d₁, e | ⟨⟩⟩
  · rw [hfirst] at h
    cases h
  · rw [hfirst] at h
    simp only [performAll] at h
    have haside := aside_of_perform hd hfirst
    rcases hsecond : d₁.perform (.replaceFile hidden bytes) with ⟨d₂, e | ⟨⟩⟩
    · rw [hsecond] at h
      cases h
    · rw [hsecond] at h
      cases h
      exact haside.trans (aside_of_perform haside.numbered hsecond)

/-- A file that was written aside is where its route leads a file. -/
theorem writeAside_read {output : Route} (hd : d.Numbered)
    (h : d.writeAside output bytes = (d', .ok ())) :
    ∃ path, d.place output = .ok path ∧ d'.read path = .ok bytes := by
  rw [writeAside] at h
  cases hhidden : d.place output.hiddenSibling with
  | error e =>
      rw [hhidden] at h
      cases h
  | ok hidden =>
      rw [hhidden] at h
      rcases hwritten : d.performAll [.replaceFile hidden [], .replaceFile hidden bytes] with
        ⟨d₁, e | ⟨⟩⟩
      · simp only [hwritten] at h
        cases h
      · simp only [hwritten] at h
        have haside := aside_of_performAll hd hwritten
        cases hplace : d₁.place output with
        | error e =>
            rw [hplace] at h
            cases h
        | ok path =>
            rw [hplace] at h
            refine ⟨path, place_of_directories (fun p hp => (haside.directory p).mp hp) hplace, ?_⟩
            rcases haside.file with ⟨number, hnode, hcontents⟩
            rcases apply_of_perform_ok h with ⟨after, happly, rfl⟩
            rcases rename_spec happly with ⟨found, hfound, hkept, -, hnodes⟩
            have hsame : some (DiskNode.file number) = some (.file found) := hnode.symm.trans hfound
            have hthere : (after.noted (.rename hidden path)).node? path = some (.file found) :=
              (hnodes path).trans (if_pos rfl)
            rw [Option.some.injEq, DiskNode.file.injEq] at hsame
            rw [Disk.read, hthere]
            refine congrArg Except.ok (Eq.trans ?_ hcontents)
            rw [hsame]
            exact congrFun hkept found

/-- A disk that does not fail takes a file where its route and that of the hidden file lead one. -/
theorem exists_writeAside {output : Route} (hd : d.Numbered) (hr : d.Reliable)
    (hhidden : d.Admits output.hiddenSibling) (houtput : d.Admits output) (bytes : List UInt8) :
    ∃ d', d.writeAside output bytes = (d', .ok ()) := by
  rcases hhidden with ⟨hidden, hplace, hfile⟩
  rcases houtput with ⟨path, htarget, hnotDirectory⟩
  rcases place_eq_ok hplace with ⟨directory, name, -, rfl, hdirectory⟩
  rcases place_eq_ok htarget with ⟨parent, last, -, rfl, hparent⟩
  -- The hidden file is written twice.
  have hwrite : ∀ (bytes : List UInt8) {d : Disk}, d.Reliable →
      d.node? (directory ++ [name]) ≠ some .directory → d.node? directory = some .directory →
        ∃ d', d.perform (.replaceFile (directory ++ [name]) bytes) = (d', .ok ()) := by
    intro bytes d hr hnode hdirectory
    have habove : d.attempted.node? (directory ++ [name]).dropLast = some .directory := by
      rw [List.dropLast_concat]
      exact hdirectory
    rcases exists_replaceFile (d := d.attempted) hnode habove bytes with ⟨after, happly⟩
    exact ⟨_, perform_eq_ok hr happly⟩
  rcases hwrite [] hr hfile hdirectory with ⟨d₁, hfirst⟩
  have haside₁ := aside_of_perform hd hfirst
  rcases hwrite bytes (haside₁.faults.trans hr)
    (fun h => hfile ((haside₁.directory _).mp h)) ((haside₁.directory _).mpr hdirectory) with
      ⟨d₂, hsecond⟩
  have haside := haside₁.trans (aside_of_perform haside₁.numbered hsecond)
  have hwritten : d.performAll [.replaceFile (directory ++ [name]) [],
      .replaceFile (directory ++ [name]) bytes] = (d₂, .ok ()) := by
    rw [performAll, hfirst]
    simp only [performAll, hsecond]
  have htarget₂ : d₂.place output = .ok (parent ++ [last]) :=
    place_of_directories (fun p hp => (haside.directory p).mpr hp) htarget
  -- It is renamed into a directory, and no directory is in its way.
  rcases haside.file with ⟨number, hnode, -⟩
  have hsource : d₂.attempted.node? (directory ++ [name]) = some (.file number) := hnode
  have hfree : d₂.attempted.node? (parent ++ [last]) ≠ some .directory := fun h =>
    hnotDirectory ((haside.directory _).mp h)
  have habove : d₂.attempted.node? (parent ++ [last]).dropLast = some .directory := by
    rw [List.dropLast_concat]
    exact (haside.directory _).mpr hparent
  rcases exists_rename hsource hfree habove with ⟨after, happly⟩
  refine ⟨after.noted (.rename (directory ++ [name]) (parent ++ [last])), ?_⟩
  rw [writeAside, hplace]
  simp only [hwritten, htarget₂]
  exact perform_eq_ok (haside.faults.trans hr) happly

end Disk

end NestedColumns
