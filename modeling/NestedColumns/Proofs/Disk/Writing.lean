import NestedColumns.Proofs.Disk.Trails

/-!
# Writing to a disk that does not fail

Without faults a directory is made if no file is in the way, and a file is made in a
directory that is there. What was written stays as long as its path is spared and its
file is not written to; the one file that a store writes to again is its log.

## Main definitions

* `Disk.Reliable`: No attempt fails because of the device.
* `Disk.Free`: Nothing is in the way of a new directory.
* `Disk.Since`: A file that is new holds some bytes.
* `Disk.Keeps`: A file holds some bytes, and is not the one that is written to.

## Theorems

* `Disk.Changes.keeps`: What is kept stays.
* `Disk.makeDirectories_spec`, `Disk.createFiles_spec`: Directories and files are made.
* `Disk.createFiles_since`: Files that could be made hold what was written to them.
-/

namespace NestedColumns

namespace Disk

/-- No attempt fails because of the device. -/
def Reliable (d : Disk) : Prop :=
  d.faults = fun _ => none

/-- Nothing is in the way of a new directory: no file is on the way to it, and nothing in it. -/
structure Free (d : Disk) (directory : Path) : Prop where
  way : ∀ path number, path <+: directory → d.node? path ≠ some (.file number)
  inside : ∀ name, d.node? (directory ++ [name]) = none

/-- A file holds some bytes, and its number is `first` or a later one. -/
def Since (d : Disk) (first : Nat) (path : Path) (bytes : List UInt8) : Prop :=
  ∃ number, d.node? path = some (.file number) ∧ first ≤ number ∧ number < d.nextFile ∧
    d.contentsOf number = bytes

/-- A file holds some bytes, and is not the file `written`. -/
def Keeps (d : Disk) (written : Nat) (path : Path) (bytes : List UInt8) : Prop :=
  ∃ number, d.node? path = some (.file number) ∧ number ≠ written ∧ number < d.nextFile ∧
    d.contentsOf number = bytes

variable {spared : Path → Prop} {made : Path → DiskNode → Prop} {d d' : Disk} {written : Nat}
  {path : Path} {bytes : List UInt8}

theorem Keeps.read (h : d.Keeps written path bytes) : d.read path = .ok bytes := by
  rcases h with ⟨number, hnode, -, -, hcontents⟩
  rw [Disk.read, hnode]
  exact congrArg Except.ok hcontents

theorem Changes.keeps (h : Changes spared made (· = written) d d') (hs : spared path)
    (hk : d.Keeps written path bytes) : d'.Keeps written path bytes := by
  rcases hk with ⟨number, hnode, hne, hlt, hcontents⟩
  refine ⟨number, h.kept path _ hs hnode, hne, Nat.lt_of_lt_of_le hlt h.nextFile, ?_⟩
  rw [h.contents number hlt hne, hcontents]

theorem Since.read {first : Nat} (h : d.Since first path bytes) : d.read path = .ok bytes := by
  rcases h with ⟨number, hnode, -, -, hcontents⟩
  rw [Disk.read, hnode]
  exact congrArg Except.ok hcontents

theorem Since.earlier {first first' : Nat} (h : d.Since first path bytes) (hle : first' ≤ first) :
    d.Since first' path bytes := by
  rcases h with ⟨number, hnode, hfirst, hrest⟩
  exact ⟨number, hnode, Nat.le_trans hle hfirst, hrest⟩

-- A file that is new is none that was there to be written to.
theorem Since.keeps {first : Nat} (h : d.Since first path bytes) (hw : written < first) :
    d.Keeps written path bytes := by
  rcases h with ⟨number, hnode, hfirst, hrest⟩
  exact ⟨number, hnode, Nat.ne_of_gt (Nat.lt_of_lt_of_le hw hfirst), hrest⟩

theorem Changes.since {first : Nat} (h : Changes spared made (fun _ => False) d d')
    (hs : spared path) (hk : d.Since first path bytes) : d'.Since first path bytes := by
  rcases hk with ⟨number, hnode, hfirst, hlt, hcontents⟩
  refine ⟨number, h.kept path _ hs hnode, hfirst, Nat.lt_of_lt_of_le hlt h.nextFile, ?_⟩
  rw [h.contents number hlt id, hcontents]

theorem Changes.reliable {written : Nat → Prop} (h : Changes spared made written d d')
    (hr : d.Reliable) : d'.Reliable :=
  h.faults.trans hr

theorem perform_eq_ok {e : Effect} {after : Disk} (hr : d.Reliable)
    (h : d.attempted.apply e = .ok after) : d.perform e = (after.noted e, .ok ()) := by
  have hfault : d.faults d.attempts = none := by rw [hr]
  rw [perform, hfault]
  simp only [h]

theorem apply_of_perform_ok {e : Effect} (h : d.perform e = (d', .ok ())) :
    ∃ after, d.attempted.apply e = .ok after ∧ d' = after.noted e := by
  rcases perform_cases d e with ⟨fault, hfault⟩ | ⟨after, happly, hok⟩ |
    ⟨n, part, after, fault, -, -, hfault⟩
  · rw [hfault, Prod.mk.injEq] at h
    cases h.2
  · rw [hok, Prod.mk.injEq] at h
    exact ⟨after, happly, h.1.symm⟩
  · rw [hfault, Prod.mk.injEq] at h
    cases h.2

/-! ### Bytes -/

-- What is written behind all bytes leaves them as they are.
theorem overwrite_end (bytes new : List UInt8) :
    overwrite bytes bytes.length new = bytes ++ new := by
  rw [overwrite, List.take_length, Nat.sub_self, List.replicate_zero, List.append_nil,
    List.drop_eq_nil_of_le (Nat.le_add_right ..), List.append_nil]

theorem contentsOf_setContents (d : Disk) (file : Nat) (bytes : List UInt8) :
    (d.setContents file bytes).contentsOf file = bytes := by
  rw [contentsOf, setContents]
  simp only [IdMap.find?_insert, if_true, Option.getD_some]

-- Cutting off what is behind some bytes leaves them.
theorem resize_append (bytes more : List UInt8) :
    resize (bytes ++ more) bytes.length = bytes := by
  rw [resize, List.take_left, Nat.sub_eq_zero_of_le, List.replicate_zero, List.append_nil]
  rw [List.length_append]
  exact Nat.le_add_right ..

/-! ### Directories -/

-- The induction is on the names that are left, with a directory at what is done.
theorem exists_makeFrom {done rest : Path} (hdone : d.node? done = some .directory)
    (hfree : ∀ path number, path <+: done ++ rest → d.node? path ≠ some (.file number)) :
    ∃ d', d.makeFrom done rest = .ok d' := by
  induction rest generalizing d done with
  | nil => exact ⟨d, rfl⟩
  | cons name rest ih =>
      have happend : done ++ name :: rest = done ++ [name] ++ rest := by
        rw [List.append_assoc, List.singleton_append]
      rw [happend] at hfree
      rw [makeFrom]
      cases hnode : d.node? (done ++ [name]) with
      | none =>
          have hat : ∀ other, (d.setEntries (d.entries ++
              [(done ++ [name], DiskNode.directory)])).node? other =
                if other = done ++ [name] then some .directory else d.node? other :=
            node?_append hnode
          refine ih ?_ fun path number hp hfile => ?_
          · rw [hat, if_pos rfl]
          · rw [hat] at hfile
            by_cases hsame : path = done ++ [name]
            · rw [if_pos hsame] at hfile
              cases hfile
            · rw [if_neg hsame] at hfile
              exact hfree path number hp hfile
      | some node =>
          cases node with
          | directory => exact ih hnode hfree
          | file number => exact absurd hnode (hfree _ number (List.prefix_append ..))

theorem node?_of_makeFrom {done rest : Path} (hdone : d.node? done = some .directory)
    (h : d.makeFrom done rest = .ok d') : d'.node? (done ++ rest) = some .directory := by
  induction rest generalizing d done with
  | nil =>
      rw [makeFrom, Except.ok.injEq] at h
      rw [List.append_nil, ← h]
      exact hdone
  | cons name rest ih =>
      have happend : done ++ name :: rest = done ++ [name] ++ rest := by
        rw [List.append_assoc, List.singleton_append]
      rw [makeFrom] at h
      rw [happend]
      cases hnode : d.node? (done ++ [name]) with
      | none =>
          rw [hnode] at h
          refine ih ?_ h
          rw [node?_append hnode, if_pos rfl]
      | some node =>
          rw [hnode] at h
          cases node with
          | directory => exact ih hnode h
          | file number => cases h

-- Whatever the faults, a directory that was made is there.
theorem there_of_makeDirectories (h : d.perform (.makeDirectories path) = (d', .ok ())) :
    d'.node? path = some .directory := by
  rcases apply_of_perform_ok h with ⟨after, happly, rfl⟩
  have hroot : d.attempted.node? [] = some .directory := rfl
  have hmake : d.attempted.makeFrom [] path = .ok after := happly
  have hthere : after.node? ([] ++ path) = some .directory := node?_of_makeFrom hroot hmake
  exact hthere

theorem makeDirectories_spec (hr : d.Reliable)
    (hfree : ∀ other number, other <+: path → d.node? other ≠ some (.file number)) :
    ∃ d', d.perform (.makeDirectories path) = (d', .ok ()) := by
  have hroot : d.attempted.node? [] = some .directory := rfl
  have hmake : ∃ after, d.attempted.makeFrom [] path = .ok after := exists_makeFrom hroot hfree
  rcases hmake with ⟨after, happly⟩
  exact ⟨_, perform_eq_ok hr happly⟩

/-! ### Files -/

theorem node?_addFile (hnone : d.node? path = none) (bytes : List UInt8) (other : Path) :
    (d.addFile path bytes).node? other =
      if other = path then some (.file d.nextFile) else d.node? other :=
  node?_append hnone other

theorem contentsOf_addFile (d : Disk) (path : Path) (bytes : List UInt8) :
    (d.addFile path bytes).contentsOf d.nextFile = bytes := by
  rw [contentsOf, addFile]
  simp only [IdMap.find?_insert, if_true, Option.getD_some]

theorem apply_createFile (hnone : d.node? path = none)
    (hparent : d.node? path.dropLast = some .directory) (bytes : List UInt8) :
    d.apply (.createFile path bytes) = .ok (d.addFile path bytes) := by
  have hcheck : d.checkParent path = .ok () := by rw [checkParent, hparent]
  rw [apply, hnone, hcheck]

-- Whatever the faults, a file that was made is there.
theorem createFile_spec (hnone : d.node? path = none)
    (h : d.perform (.createFile path bytes) = (d', .ok ())) :
    d'.node? path = some (.file d.nextFile) ∧ d'.nextFile = d.nextFile + 1 ∧
      d'.contentsOf d.nextFile = bytes := by
  rcases apply_of_perform_ok h with ⟨after, happly, rfl⟩
  have hbefore : d.attempted.node? path = none := hnone
  rw [apply, hbefore] at happly
  cases hparent : d.attempted.checkParent path with
  | error fault =>
      rw [hparent] at happly
      cases happly
  | ok _ =>
      rw [hparent] at happly
      simp only [Except.ok.injEq] at happly
      rw [← happly]
      refine ⟨?_, rfl, ?_⟩
      · have hat := node?_addFile hbefore bytes path
        rw [if_pos rfl] at hat
        exact hat
      · exact contentsOf_addFile d.attempted path bytes

-- A file that could be made was not there.
theorem absent_of_createFile (h : d.perform (.createFile path bytes) = (d', .ok ())) :
    d.node? path = none := by
  rcases apply_of_perform_ok h with ⟨after, happly, -⟩
  rw [apply] at happly
  cases hnode : d.attempted.node? path with
  | none => exact hnode
  | some node =>
      rw [hnode] at happly
      cases happly

theorem createFiles_changes {files : List (Path × List UInt8)} {result : Except FileError Unit}
    (h : d.performAll (files.map fun f => .createFile f.1 f.2) = (d', result)) :
    Changes (fun _ => True) (fun _ _ => True) (fun _ => False) d d' :=
  changes_of_performAll h fun e he => by
    rcases List.mem_map.mp he with ⟨f, -, rfl⟩
    exact fun _ => trivial

-- Each file that could be made was new then, so the later ones spare the earlier.
theorem createFiles_since {files : List (Path × List UInt8)}
    (h : d.performAll (files.map fun f => .createFile f.1 f.2) = (d', .ok ())) :
    ∀ f ∈ files, d'.Since d.nextFile f.1 f.2 := by
  induction files generalizing d with
  | nil => exact fun f hf => absurd hf List.not_mem_nil
  | cons file rest ih =>
      rcases file with ⟨path, bytes⟩
      rw [List.map_cons, performAll] at h
      rcases hperform : d.perform (.createFile path bytes) with ⟨after, result⟩
      rw [hperform] at h
      cases result with
      | error fault => cases h
      | ok _ =>
          rcases createFile_spec (absent_of_createFile hperform) hperform with
            ⟨hnode, hnext, hcontents⟩
          have hsince : after.Since d.nextFile path bytes :=
            ⟨d.nextFile, hnode, Nat.le_refl _, by omega, hcontents⟩
          have hrest : after.performAll (rest.map fun f => .createFile f.1 f.2) = (d', .ok ()) := h
          intro f hf
          rcases List.mem_cons.mp hf with rfl | hf
          · exact (createFiles_changes hrest).since trivial hsince
          · exact (ih hrest f hf).earlier (by omega)

-- On a disk that does not fail new files are made in directories that are there.
theorem createFiles_spec {files : List (Path × List UInt8)} (hr : d.Reliable)
    (hnone : ∀ f ∈ files, d.node? f.1 = none)
    (hparent : ∀ f ∈ files, d.node? f.1.dropLast = some .directory)
    (hdistinct : (files.map (·.1)).Nodup) :
    ∃ d', d.performAll (files.map fun f => .createFile f.1 f.2) = (d', .ok ()) := by
  induction files generalizing d with
  | nil => exact ⟨d, rfl⟩
  | cons file rest ih =>
      rcases file with ⟨path, bytes⟩
      rw [List.map_cons, List.nodup_cons] at hdistinct
      have hfirst := hnone _ List.mem_cons_self
      have hother : ∀ f ∈ rest, f.1 ≠ path := fun f hf heq =>
        hdistinct.1 (List.mem_map.mpr ⟨f, hf, heq⟩)
      have happly := apply_createFile (d := d.attempted) hfirst
        (hparent _ List.mem_cons_self) bytes
      generalize hafter : (d.attempted.addFile path bytes).noted (.createFile path bytes) = after
      have hperform : d.perform (.createFile path bytes) = (after, .ok ()) := by
        rw [perform_eq_ok hr happly, hafter]
      have hnode : ∀ other, after.node? other =
          if other = path then some (.file d.nextFile) else d.node? other := by
        rw [← hafter]
        exact node?_addFile (d := d.attempted) hfirst bytes
      have hreliable : after.Reliable := by
        rw [← hafter]
        exact hr
      rcases ih hreliable
        (fun f hf => by rw [hnode, if_neg (hother f hf), hnone f (List.mem_cons_of_mem _ hf)])
        (fun f hf => by
          have hdirectory := hparent f (List.mem_cons_of_mem _ hf)
          have hne : f.1.dropLast ≠ path := fun heq => by
            have hfile : d.node? f.1.dropLast = none := heq ▸ hfirst
            rw [hdirectory] at hfile
            cases hfile
          rw [hnode, if_neg hne, hdirectory])
        hdistinct.2 with ⟨d', hrest⟩
      refine ⟨d', ?_⟩
      rw [List.map_cons, performAll, hperform]
      exact hrest

end Disk

end NestedColumns
