import NestedColumns.Proofs.Disk.Changes

/-!
# The effects that took place

A disk notes its effects, so what is on it is what these have made of an earlier disk, whatever
was attempted besides. A program may be stopped between any two of them: what is left then is
what the effects up to there have made, and differs from the earlier disk in the ways of these
effects only.

## Main definitions

* `Disk.left`: What is on a disk, without what was attempted and planned.
* `Disk.redo`: What effects make of a disk.
* `Disk.Trail`: The effects that lead from a disk to another one.
* `Disk.since`, `Disk.stopped`: The effects since a disk, and what the first of them leave.
* `Effect.appends`: An effect that writes to an open file.
* `Disk.Whole`: Attempts succeed or do nothing.
* `Disk.Stops`: Wherever effects are stopped, something holds of what is left.

## Theorems

* `Disk.apply_dress`: What was attempted and planned does not matter for an effect.
* `Disk.Trail.cut`: What the first effects of a trail have changed.
* `Disk.Trail.contents`: What leaves the contents of files alone.
* `Disk.Stops.trans`: Stopped in the first effects, or in those behind them.
* `Disk.perform_trail`, `Disk.performAll_trail`: Attempts.
* `Disk.changes_of_perform`, `Disk.changes_of_performAll`: What they have changed.
* `Disk.removeTrees_trail`, `Disk.discardTrees_trail`: Removing directories.
-/

namespace NestedColumns

/-- Bytes are written to an open file, as a transaction is to the log. -/
def Effect.appends : Effect → Bool
  | .writeAt _ _ _ bytes => !bytes.isEmpty
  | _ => false

namespace Disk

variable {spared spared' : Path → Prop} {made made' : Path → DiskNode → Prop}
  {written written' : Nat → Prop} {d d' d'' : Disk} {effects effects' : List Effect}

/-! ### What is on a disk -/

/-- A disk with other attempts, faults and effects. -/
def dress (attempts : Nat) (faults : Nat → Option Nat) (performed : List Effect) (d : Disk) :
    Disk :=
  ⟨d.entries, d.contents, d.nextFile, attempts, faults, performed⟩

/-- What is on a disk: a disk of which nothing was attempted yet, and nothing is planned. -/
def left (d : Disk) : Disk :=
  d.dress 0 (fun _ => none) []

-- The induction is on the directories that are left to make.
theorem makeFrom_dress (attempts : Nat) (faults : Nat → Option Nat) (performed : List Effect)
    (d : Disk) (done rest : Path) : (d.dress attempts faults performed).makeFrom done rest =
      (d.makeFrom done rest).map (dress attempts faults performed) := by
  induction rest generalizing d done with
  | nil => rfl
  | cons name rest ih =>
      have hnode : (d.dress attempts faults performed).node? (done ++ [name]) =
          d.node? (done ++ [name]) := rfl
      rw [makeFrom, makeFrom, hnode]
      cases d.node? (done ++ [name]) with
      | none =>
          exact ih (d.setEntries (d.entries ++ [(done ++ [name], DiskNode.directory)]))
            (done ++ [name])
      | some node =>
          cases node with
          | directory => exact ih d (done ++ [name])
          | file number => rfl

theorem apply_dress (attempts : Nat) (faults : Nat → Option Nat) (performed : List Effect)
    (d : Disk) (e : Effect) : (d.dress attempts faults performed).apply e =
      (d.apply e).map (dress attempts faults performed) := by
  have hnode : (d.dress attempts faults performed).node? = d.node? := rfl
  have hparent : (d.dress attempts faults performed).checkParent = d.checkParent := rfl
  have hlist : (d.dress attempts faults performed).list = d.list := rfl
  cases e with
  | makeDirectories path => exact makeFrom_dress attempts faults performed d [] path
  | createFile path bytes =>
      rw [apply, apply, hnode, hparent]
      cases d.node? path <;> cases d.checkParent path <;> rfl
  | replaceFile path bytes =>
      rw [apply, apply, hnode, hparent]
      rcases d.node? path with _ | _ | _ <;> cases d.checkParent path <;> rfl
  | writeAt file path position bytes => rfl
  | truncate file path length => rfl
  | remove path =>
      rw [apply, apply, hnode, hlist]
      rcases d.node? path with _ | _ | _
      · rfl
      · simp only
        split <;> rfl
      · rfl
  | rename source target =>
      rw [apply, apply, hnode, hparent]
      rcases d.node? source with _ | _ | _ <;> rcases d.node? target with _ | _ | _ <;>
        cases d.checkParent target <;> rfl

-- A disk is dressed in what it has.
theorem apply_same {e : Effect} (h : d.apply e = .ok d') :
    d' = d'.dress d.attempts d.faults d.performed := by
  have hboth := apply_dress d.attempts d.faults d.performed d e
  have hsame : d.dress d.attempts d.faults d.performed = d := rfl
  rw [hsame, h] at hboth
  exact Except.ok.inj hboth

/-! ### Effects one after another -/

/-- What effects make of a disk. One that the disk does not admit makes nothing of it. -/
def redo (d : Disk) (effects : List Effect) : Disk :=
  effects.foldl (fun d e => (d.apply e).toOption.getD d) d

theorem redo_append (d : Disk) (effects effects' : List Effect) :
    d.redo (effects ++ effects') = (d.redo effects).redo effects' :=
  List.foldl_append

theorem redo_singleton (d : Disk) (e : Effect) : d.redo [e] = (d.apply e).toOption.getD d := rfl

theorem redo_changes (h : ∀ e ∈ effects, Effect.Within spared made written e) :
    Changes spared made written d (d.redo effects) := by
  induction effects generalizing d with
  | nil => exact .refl ..
  | cons e rest ih =>
      have hrest := ih (d := (d.apply e).toOption.getD d) fun e he =>
        h e (List.mem_cons_of_mem _ he)
      cases happly : d.apply e with
      | error fault =>
          rw [happly] at hrest
          rw [redo, List.foldl_cons, happly]
          exact hrest
      | ok after =>
          rw [happly] at hrest
          rw [redo, List.foldl_cons, happly]
          exact (apply_changes (h e List.mem_cons_self) happly).trans hrest

/-- The effects that lead from a disk to another one, each of which changes it in the given ways
    only. -/
structure Trail (spared : Path → Prop) (made : Path → DiskNode → Prop) (written : Nat → Prop)
    (d d' : Disk) (effects : List Effect) : Prop where
  within : ∀ e ∈ effects, Effect.Within spared made written e
  performed : d'.performed = d.performed ++ effects
  left : d'.left = d.left.redo effects
  faults : d'.faults = d.faults

namespace Trail

theorem refl (spared : Path → Prop) (made : Path → DiskNode → Prop) (written : Nat → Prop)
    (d : Disk) : Trail spared made written d d [] where
  within := fun _ he => absurd he List.not_mem_nil
  performed := (List.append_nil _).symm
  left := rfl
  faults := rfl

theorem trans (h : Trail spared made written d d' effects)
    (h' : Trail spared made written d' d'' effects') :
    Trail spared made written d d'' (effects ++ effects') where
  within := fun e he => (List.mem_append.mp he).elim (h.within e) (h'.within e)
  performed := by rw [h'.performed, h.performed, List.append_assoc]
  left := by rw [h'.left, h.left, redo_append]
  faults := h'.faults.trans h.faults

theorem weaken (h : Trail spared made written d d' effects)
    (hs : ∀ path, spared' path → spared path) (hm : ∀ path node, made path node → made' path node)
    (hw : ∀ number, written number → written' number) :
    Trail spared' made' written' d d' effects where
  within := fun e he => (h.within e he).weaken hs hm hw
  performed := h.performed
  left := h.left
  faults := h.faults

/-- What the first effects of a trail have changed. -/
theorem cut (h : Trail spared made written d d' effects) (n : Nat) :
    Changes spared made written d.left (d.left.redo (effects.take n)) :=
  redo_changes fun e he => h.within e (List.mem_of_mem_take he)

theorem changes (h : Trail spared made written d d' effects) :
    Changes spared made written d d' := by
  have hleft := h.cut effects.length
  rw [List.take_length, ← h.left] at hleft
  exact {
    faults := h.faults
    nextFile := hleft.nextFile
    kept := hleft.kept
    new := hleft.new
    contents := hleft.contents
    tree := fun ht => (hleft.tree (ht.of_entries rfl)).of_entries rfl }

end Trail

theorem makeFrom_contents {done rest : Path} (h : d.makeFrom done rest = .ok d') :
    d'.contents = d.contents := by
  induction rest generalizing d done with
  | nil =>
      rw [makeFrom, Except.ok.injEq] at h
      rw [h]
  | cons name rest ih =>
      rw [makeFrom] at h
      split at h
      · exact ih h
      · cases h
      · have hrest := ih h
        exact hrest

theorem apply_contents {e : Effect}
    (hw : Effect.Within spared (fun _ node => node = .directory) (fun _ => False) e)
    (h : d.apply e = .ok d') : d'.contents = d.contents := by
  cases e with
  | makeDirectories path => exact makeFrom_contents h
  | createFile path bytes => cases hw 0
  | replaceFile path bytes => exact absurd hw id
  | writeAt file path position bytes => exact absurd hw id
  | truncate file path length => exact absurd hw id
  | rename source target => exact absurd hw id
  | remove path =>
      rw [apply] at h
      split at h
      · cases h
      · split at h
        · rw [← Except.ok.inj h]
          rfl
        · cases h
      · rw [← Except.ok.inj h]
        rfl

/-- Making directories and removing things touches no contents of any file. -/
theorem Trail.contents
    (h : Trail spared (fun _ node => node = .directory) (fun _ => False) d d' effects) :
    d'.contents = d.contents := by
  have hredo : ∀ (effects : List Effect) (d : Disk), (∀ e ∈ effects,
      Effect.Within spared (fun _ node => node = .directory) (fun _ => False) e) →
        (d.redo effects).contents = d.contents := by
    intro effects
    induction effects with
    | nil => exact fun _ _ => rfl
    | cons e rest ih =>
        intro d hw
        rcases List.forall_mem_cons.mp hw with ⟨hfirst, hrest⟩
        refine (ih ((d.apply e).toOption.getD d) hrest).trans ?_
        cases happly : d.apply e with
        | error fault => rfl
        | ok after => exact apply_contents hfirst happly
  have hleft := hredo effects d.left h.within
  rw [← h.left] at hleft
  exact hleft

/-! ### Attempts -/

-- What took place is what was attempted, or a part of it, or nothing. Only the first is a success.
theorem perform_effects (d : Disk) (e : Effect) : ∃ effects,
    (d.perform e).1.performed = d.performed ++ effects ∧
      (d.perform e).1.left = d.left.redo effects ∧ (d.perform e).1.faults = d.faults ∧
      (effects = [] ∧ (∃ fault, (d.perform e).2 = .error fault) ∨
        effects = [e] ∧ (d.perform e).2 = .ok () ∨
        ∃ n part, d.faults d.attempts = some n ∧ Effect.torn n e = some part ∧ effects = [part] ∧
          ∃ fault, (d.perform e).2 = .error fault) := by
  -- What an effect makes of a disk is what it makes of what is on it.
  have hnoted : ∀ part after, d.attempted.apply part = .ok after →
      (after.noted part).performed = d.performed ++ [part] ∧
        (after.noted part).left = d.left.redo [part] ∧ (after.noted part).faults = d.faults := by
    intro part after happly
    have hsame := apply_same happly
    have hleft := apply_dress 0 (fun _ => none) [] d.attempted part
    have hbefore : d.attempted.dress 0 (fun _ => none) [] = d.left := rfl
    rw [happly, hbefore] at hleft
    have hperformed := congrArg Disk.performed hsame
    have hfaults := congrArg Disk.faults hsame
    refine ⟨congrArg (· ++ [part]) hperformed, ?_, hfaults⟩
    rw [redo_singleton, hleft]
    rfl
  rw [perform]
  cases hfault : d.faults d.attempts with
  | none =>
      cases happly : d.attempted.apply e with
      | error fault => exact ⟨[], (List.append_nil _).symm, rfl, rfl, Or.inl ⟨rfl, fault, rfl⟩⟩
      | ok after =>
          rcases hnoted e after happly with ⟨hperformed, hleft, hfaults⟩
          exact ⟨[e], hperformed, hleft, hfaults, Or.inr (Or.inl ⟨rfl, rfl⟩)⟩
  | some n =>
      simp only
      cases htorn : Effect.torn n e with
      | none => exact ⟨[], (List.append_nil _).symm, rfl, rfl, Or.inl ⟨rfl, .device, rfl⟩⟩
      | some part =>
          simp only
          cases happly : d.attempted.apply part with
          | error fault => exact ⟨[], (List.append_nil _).symm, rfl, rfl, Or.inl ⟨rfl, fault, rfl⟩⟩
          | ok after =>
              rcases hnoted part after happly with ⟨hperformed, hleft, hfaults⟩
              exact ⟨[part], hperformed, hleft, hfaults,
                Or.inr (Or.inr ⟨n, part, rfl, htorn, rfl, .device, rfl⟩)⟩

theorem perform_trail {e : Effect} (hw : Effect.Within spared made written e) :
    ∃ effects, Trail spared made written d (d.perform e).1 effects := by
  rcases perform_effects d e with ⟨effects, hperformed, hleft, hfaults, hcases⟩
  refine ⟨effects, fun x hx => ?_, hperformed, hleft, hfaults⟩
  rcases hcases with ⟨rfl, -⟩ | ⟨rfl, -⟩ | ⟨n, part, -, htorn, rfl, -⟩
  · exact absurd hx List.not_mem_nil
  · exact List.mem_singleton.mp hx ▸ hw
  · exact List.mem_singleton.mp hx ▸ hw.torn htorn

theorem perform_changes {e : Effect} (hw : Effect.Within spared made written e) :
    Changes spared made written d (d.perform e).1 := by
  rcases perform_trail (d := d) hw with ⟨effects, h⟩
  exact h.changes

theorem changes_of_perform {e : Effect} {result : Except FileError Unit}
    (h : d.perform e = (d', result)) (hw : Effect.Within spared made written e) :
    Changes spared made written d d' := by
  have hchanges : Changes spared made written d (d.perform e).1 := perform_changes hw
  rwa [h] at hchanges

theorem performAll_trail {attempts : List Effect}
    (hw : ∀ e ∈ attempts, Effect.Within spared made written e) :
    ∃ effects, Trail spared made written d (d.performAll attempts).1 effects := by
  induction attempts generalizing d with
  | nil => exact ⟨[], .refl ..⟩
  | cons e rest ih =>
      rcases perform_trail (d := d) (hw e List.mem_cons_self) with ⟨first, hfirst⟩
      have hrest := fun e he => hw e (List.mem_cons_of_mem _ he)
      rw [performAll]
      rcases hperform : d.perform e with ⟨after, result⟩
      rw [hperform] at hfirst
      cases result with
      | ok _ =>
          rcases ih (d := after) hrest with ⟨more, hmore⟩
          exact ⟨_, hfirst.trans hmore⟩
      | error fault => exact ⟨_, hfirst⟩

theorem performAll_changes {attempts : List Effect}
    (hw : ∀ e ∈ attempts, Effect.Within spared made written e) :
    Changes spared made written d (d.performAll attempts).1 := by
  rcases performAll_trail (d := d) hw with ⟨effects, h⟩
  exact h.changes

theorem changes_of_performAll {attempts : List Effect} {result : Except FileError Unit}
    (h : d.performAll attempts = (d', result))
    (hw : ∀ e ∈ attempts, Effect.Within spared made written e) :
    Changes spared made written d d' := by
  have hchanges : Changes spared made written d (d.performAll attempts).1 := performAll_changes hw
  rwa [h] at hchanges

-- The second half is attempted where the first one got to its end.
theorem performAll_append_eq_ok {first second : List Effect} :
    d.performAll (first ++ second) = (d', .ok ()) ↔
      ∃ d₁, d.performAll first = (d₁, .ok ()) ∧ d₁.performAll second = (d', .ok ()) := by
  induction first generalizing d with
  | nil =>
      rw [List.nil_append, performAll]
      simp only [Prod.mk.injEq, and_true, exists_eq_left']
  | cons e rest ih =>
      rw [List.cons_append, performAll, performAll]
      rcases d.perform e with ⟨after, result⟩
      cases result with
      | ok _ => exact ih
      | error fault =>
          simp only [Prod.mk.injEq, reduceCtorEq, and_false, false_and, exists_false]

/-! ### Removing directories -/

theorem prefix_of_mem_pathsBelow {path other : Path} (h : other ∈ d.pathsBelow path) :
    path <+: other := by
  rw [pathsBelow, List.mem_reverse, List.mem_filter] at h
  exact List.isPrefixOf_iff_prefix.mp h.2

theorem removeTree_trail {path : Path} (hs : ∀ other, path <+: other → ¬ spared other) :
    ∃ effects, Trail spared made written d (d.removeTree path).1 effects := by
  rw [removeTree]
  cases d.node? path with
  | none => exact ⟨[], .refl ..⟩
  | some node =>
      cases node with
      | file number => exact ⟨[], .refl ..⟩
      | directory =>
          refine performAll_trail fun e he => ?_
          rcases List.mem_map.mp he with ⟨other, hother, rfl⟩
          exact hs other (prefix_of_mem_pathsBelow hother)

theorem removeTree_changes {path : Path} (hs : ∀ other, path <+: other → ¬ spared other) :
    Changes spared made written d (d.removeTree path).1 := by
  rcases removeTree_trail (d := d) hs with ⟨effects, h⟩
  exact h.changes

theorem removeTrees_trail {paths : List Path}
    (hs : ∀ path ∈ paths, ∀ other, path <+: other → ¬ spared other) :
    ∃ effects, Trail spared made written d (d.removeTrees paths).1 effects := by
  induction paths generalizing d with
  | nil => exact ⟨[], .refl ..⟩
  | cons path rest ih =>
      have hremoved : ∃ effects, Trail spared made written d (d.removeTree path).1 effects :=
        removeTree_trail (hs path List.mem_cons_self)
      rcases hremoved with ⟨first, hfirst⟩
      rw [removeTrees]
      rcases hremove : d.removeTree path with ⟨after, result⟩
      rw [hremove] at hfirst
      cases result with
      | ok _ =>
          rcases ih (d := after) fun path hp => hs path (List.mem_cons_of_mem _ hp) with
            ⟨more, hmore⟩
          exact ⟨_, hfirst.trans hmore⟩
      | error fault => exact ⟨_, hfirst⟩

theorem removeTrees_changes {paths : List Path}
    (hs : ∀ path ∈ paths, ∀ other, path <+: other → ¬ spared other) :
    Changes spared made written d (d.removeTrees paths).1 := by
  rcases removeTrees_trail (d := d) hs with ⟨effects, h⟩
  exact h.changes

theorem discardTrees_trail {paths : List Path}
    (hs : ∀ path ∈ paths, ∀ other, path <+: other → ¬ spared other) :
    ∃ effects, Trail spared made written d (d.discardTrees paths) effects := by
  induction paths generalizing d with
  | nil => exact ⟨[], .refl ..⟩
  | cons path rest ih =>
      have hremoved : ∃ effects, Trail spared made written d (d.removeTree path).1 effects :=
        removeTree_trail (hs path List.mem_cons_self)
      rcases hremoved with ⟨first, hfirst⟩
      rw [discardTrees, List.foldl_cons]
      rcases ih (d := (d.removeTree path).1) fun path hp => hs path (List.mem_cons_of_mem _ hp)
        with ⟨more, hmore⟩
      exact ⟨_, hfirst.trans hmore⟩

theorem discardTrees_changes {paths : List Path}
    (hs : ∀ path ∈ paths, ∀ other, path <+: other → ¬ spared other) :
    Changes spared made written d (d.discardTrees paths) := by
  rcases discardTrees_trail (d := d) hs with ⟨effects, h⟩
  exact h.changes

/-! ### Stopped on the way -/

/-- The effects that took place since a disk was as it was. -/
def since (before after : Disk) : List Effect :=
  after.performed.drop before.performed.length

/-- What is left when a program is stopped after so many of the effects since a disk was as it
    was. -/
def stopped (before after : Disk) (n : Nat) : Disk :=
  before.left.redo ((before.since after).take n)

/-- An attempt that fails has written nothing. -/
def Whole (faults : Nat → Option Nat) : Prop :=
  ∀ attempt written, faults attempt = some written → written = 0

/-- Effects lead from a disk to another one, and wherever they are stopped, something holds of what
    is left. -/
structure Stops (P : Disk → Prop) (d d' : Disk) (effects : List Effect) : Prop where
  performed : d'.performed = d.performed ++ effects
  left : d'.left = d.left.redo effects
  faults : d'.faults = d.faults
  cut : ∀ n, P (d.left.redo (effects.take n))

theorem Changes.left (h : Changes spared made written d d') :
    Changes spared made written d.left d'.left where
  faults := rfl
  nextFile := h.nextFile
  kept := h.kept
  new := h.new
  contents := h.contents
  tree := fun ht => (h.tree (ht.of_entries rfl)).of_entries rfl

namespace Stops

variable {P : Disk → Prop}

theorem refl (h : P d.left) : Stops P d d [] where
  performed := (List.append_nil _).symm
  left := rfl
  faults := rfl
  cut := fun n => by
    rw [List.take_nil]
    exact h

theorem trans (h : Stops P d d' effects) (h' : Stops P d' d'' effects') :
    Stops P d d'' (effects ++ effects') where
  performed := by rw [h'.performed, h.performed, List.append_assoc]
  left := by rw [h'.left, h.left, redo_append]
  faults := h'.faults.trans h.faults
  cut := fun n => by
    rcases Nat.le_total n effects.length with hle | hle
    · rw [List.take_append_of_le_length hle]
      exact h.cut n
    · rw [List.take_append, List.take_of_length_le hle, redo_append, ← h.left]
      exact h'.cut _

theorem last (h : Stops P d d' effects) : P d'.left := by
  have hall := h.cut effects.length
  rwa [List.take_length, ← h.left] at hall

theorem since_eq (h : Stops P d d' effects) : d.since d' = effects := by
  rw [since, h.performed, List.drop_left]

theorem stopped (h : Stops P d d' effects) (n : Nat) : P (d.stopped d' n) := by
  rw [Disk.stopped, h.since_eq]
  exact h.cut n

end Stops

-- A single attempt is stopped before it or after it.
theorem perform_stops {P : Disk → Prop} {e : Effect} (hbefore : P d.left)
    (hafter : P (d.perform e).1.left) : ∃ effects, Stops P d (d.perform e).1 effects := by
  rcases perform_effects d e with ⟨effects, hperformed, hleft, hfaults, hcases⟩
  rw [hleft] at hafter
  have hone : ∀ part n, P (d.left.redo [part]) → P (d.left.redo ([part].take n)) := by
    intro part n hpart
    cases n with
    | zero => exact hbefore
    | succ n =>
        rw [List.take_succ_cons, List.take_nil]
        exact hpart
  refine ⟨effects, hperformed, hleft, hfaults, fun n => ?_⟩
  rcases hcases with ⟨rfl, -⟩ | ⟨rfl, -⟩ | ⟨_, part, -, -, rfl, -⟩
  · rw [List.take_nil]
    exact hbefore
  · exact hone e n hafter
  · exact hone part n hafter

-- What holds of all disks that differ in the ways of a trail holds wherever it is stopped.
theorem Trail.stops {P : Disk → Prop} (h : Trail spared made written d d' effects)
    (hp : ∀ other, Changes spared made written d.left other → P other) : Stops P d d' effects where
  performed := h.performed
  left := h.left
  faults := h.faults
  cut := fun n => hp _ (h.cut n)

end Disk

end NestedColumns
