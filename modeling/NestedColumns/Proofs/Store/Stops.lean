import NestedColumns.Proofs.Store.Durable

/-!
# A store that is stopped

A change of the catalog counts from the moment at which its transaction is in the log, which is
written in one step. What comes before it and what comes after it may be stopped anywhere: chunks
that were begun are not known to the catalog, and only such directories are removed that the
catalog has nothing in.

An attempt that fails is taken to have written nothing. Then a transaction that could not be
written has left the log as it was, also if the log could not be cut back.

## Main definitions

* `Store.Rests`: A store after operations that have written no transaction.

## Theorems

* `Store.Moves.rests`: Chunks are written, and directories removed.
* `Store.commit_failed_rests`: A transaction cannot be written.
* `Store.commit_effect`: A transaction is written in one step.
-/

namespace NestedColumns

open Disk (Stops Whole)

namespace LogFile

variable {d d' : Disk} {log log' : LogFile} {effects : List Effect} {file position : Nat}
  {path : Path}

/-- What an attempt to write that has written nothing, and cutting the log back, may do to a log. -/
def Idle (log : LogFile) (x : Effect) : Prop :=
  x = .writeAt log.file log.path log.position [] ∨ x = .truncate log.file log.path log.position

theorem append_failed {entries : List LogEntry} {e : FileError} (hw : Whole d.faults)
    (hlog : log.committed = log.position) (h : log.append d entries = (d', .error e, log')) :
    log' = log ∧ ∃ effects, d'.performed = d.performed ++ effects ∧
      d'.left = d.left.redo effects ∧ ∀ x ∈ effects, log.Idle x := by
  rw [append] at h
  rcases Disk.perform_effects d (.writeAt log.file log.path log.position
    (Utf8.encode (LogEntry.transaction entries))) with ⟨first, hperformed, hleft, -, hcases⟩
  rcases hperform : d.perform (.writeAt log.file log.path log.position
    (Utf8.encode (LogEntry.transaction entries))) with ⟨after, result⟩
  rw [hperform] at h hperformed hleft hcases
  cases result with
  | ok _ => cases h
  | error fault =>
      have hidle : (∀ x ∈ first, log.Idle x) ∧ writtenBytes d after = 0 := by
        rw [writtenBytes, hperformed, List.drop_left]
        rcases hcases with ⟨rfl, -⟩ | ⟨-, hok⟩ | ⟨n, part, hfault, htorn, rfl, -⟩
        · exact ⟨fun _ hx => absurd hx List.not_mem_nil, rfl⟩
        · cases hok
        · rw [hw _ _ hfault, Disk.Effect.torn, List.take_zero, Option.some.injEq] at htorn
          rw [← htorn]
          exact ⟨fun x hx => Or.inl (List.mem_singleton.mp hx), rfl⟩
      simp only [hidle.2, Nat.add_zero, hlog] at h
      rcases Disk.perform_effects after (.truncate log.file log.path log.position) with
        ⟨more, hperformed', hleft', -, hcases'⟩
      have hcut : ∀ x ∈ more, log.Idle x := by
        rcases hcases' with ⟨rfl, -⟩ | ⟨rfl, -⟩ | ⟨n, part, -, htorn, -⟩
        · exact fun _ hx => absurd hx List.not_mem_nil
        · exact fun x hx => Or.inr (List.mem_singleton.mp hx)
        · cases htorn
      rcases htruncate : after.perform (.truncate log.file log.path log.position) with
        ⟨last, outcome⟩
      rw [htruncate] at h hperformed' hleft'
      have hsame : (⟨log.path, log.file, log.position, log.position⟩ : LogFile) = log := by
        cases log
        cases hlog
        rfl
      have hend : d' = last ∧ log' = log := by
        cases outcome with
        | ok _ =>
            simp only [Prod.mk.injEq, hsame] at h
            exact ⟨h.1.symm, h.2.2.symm⟩
        | error _ =>
            simp only [Prod.mk.injEq, hsame] at h
            exact ⟨h.1.symm, h.2.2.symm⟩
      rw [hend.1]
      refine ⟨hend.2, first ++ more, ?_, ?_, fun x hx => ?_⟩
      · rw [hperformed', hperformed, List.append_assoc]
      · rw [hleft', hleft, Disk.redo_append]
      · exact (List.mem_append.mp hx).elim (hidle.1 x) (hcut x)

-- The induction is on the effects, each of which leaves what is in the log.
theorem contentsOf_idle (hlength : log.position = (d.contentsOf log.file).length)
    (h : ∀ x ∈ effects, log.Idle x) :
    (d.redo effects).contentsOf log.file = d.contentsOf log.file := by
  induction effects generalizing d with
  | nil => rfl
  | cons x rest ih =>
      have hfirst : ((d.apply x).toOption.getD d).contentsOf log.file = d.contentsOf log.file := by
        rcases h x List.mem_cons_self with rfl | rfl
        · rw [Disk.apply, hlength, Disk.overwrite_end, List.append_nil]
          exact Disk.contentsOf_setContents ..
        · have hresize := Disk.resize_append (d.contentsOf log.file) []
          rw [List.append_nil] at hresize
          rw [Disk.apply, hlength, hresize]
          exact Disk.contentsOf_setContents ..
      rw [Disk.redo, List.foldl_cons, ← Disk.redo,
        ih (by rw [hfirst, hlength]) fun x hx => h x (List.mem_cons_of_mem _ hx), hfirst]

end LogFile

namespace Store

variable {spared : Path → Prop} {kept : TableRef → List Taken} {s s' : Store} {ref : TableRef}
  {bodies : PageKey → Option (List UInt8)} {txs : List (List Operation)} {ops : List Operation}

/-- A store after operations that have written no transaction, and leave the same wherever they are
    stopped. -/
structure Rests (kept : TableRef → List Taken) (txs : List (List Operation)) (s s' : Store) : Prop
    where
  options : s'.options = s.options
  log : s'.log = s.log
  catalog : s'.catalog = s.catalog
  logged : s'.Logged txs
  stops : ∃ effects, Stops (Durable s.options s.catalog kept) s.disk s'.disk effects ∧
    ∀ x ∈ effects, x.appends = false

-- What is only in memory does not matter.
theorem Rests.of_disk (hs : s.Settled bodies kept) (hl : s.Logged txs)
    (ho : s'.options = s.options) (hlog : s'.log = s.log) (hc : s'.catalog = s.catalog)
    (hd : s'.disk = s.disk) : Rests kept txs s s' where
  options := ho
  log := hlog
  catalog := hc
  logged := by
    have hsame : Disk.Changes (fun _ => True) (fun _ _ => False) (fun _ => False) s.disk.left
        s'.disk.left := hd ▸ .refl ..
    exact hl.alter ho (by rw [hlog]) (by rw [hlog]) hc hsame (fun _ _ => trivial) (by rw [hd])
  stops := by
    rw [hd]
    exact ⟨[], .refl ((hs.durable hl).left rfl), fun _ hx => absurd hx List.not_mem_nil⟩

/-- Chunks are begun and directories are removed beside what the catalog has. -/
theorem Moves.rests (h : Moves spared ref s s') (hs : s.Settled bodies kept) (hl : s.Logged txs)
    (hspares : SparesAll spared s.options s.catalog)
    (haside : ∀ path, Aside s.options path → spared path) : Rests kept txs s s' where
  options := h.options
  log := h.log
  catalog := h.catalog
  logged := hl.quiet (h.quiet haside)
  stops := by
    rcases h.trail with ⟨effects, htrail⟩
    refine ⟨effects, (hs.durable hl).stops (htrail.weaken (fun path hneeded => ?_)
      (fun _ _ hm => hm) fun _ hw => hw) fun number hmade => ?_, fun x hx => ?_⟩
    · rcases hneeded with (hup | rfl) | ⟨ref, t, ht, chunk, hin, hp⟩
      · exact haside path (aside_of_prefix_directory hup)
      · exact haside _ (aside_logPath _)
      · exact hspares ref t ht chunk hin path hp
    · rcases hmade with ⟨id, -, -, hinside | ⟨-, hdirectory⟩⟩
      · exact aside_logPath _ _ ((StoreOptions.database_prefix_chunk ..).trans hinside)
      · cases hdirectory
    · have hwithin := htrail.within x hx
      cases x with
      | writeAt => exact absurd hwithin id
      | _ => rfl

/-- Where a transaction cannot be written the log stays as it was. -/
theorem commit_failed_rests {e : StoreError} (hs : s.Settled bodies kept) (hl : s.Logged txs)
    (hw : Whole s.disk.faults) (hlog : s.log.committed = s.log.position)
    (hfits : ∃ r, s.registry.applyAll ops = (r, .ok ())) (h : s.commit ops = (s', .error e)) :
    Rests kept txs s s' := by
  have hfaults := (commit_cases (fun _ => True) s ops).1.disk.faults
  rw [h] at hfaults
  rw [commit] at h
  rcases happend : s.log.append s.disk (ops.map .operation) with ⟨d, answer, log⟩
  rw [happend] at h
  cases answer with
  | ok _ =>
      rcases hfits with ⟨r, hfits⟩
      simp only [hfits, Prod.mk.injEq] at h
      cases h.2
  | error fault =>
      rcases LogFile.append_failed hw hlog happend with ⟨rfl, effects, hperformed, hleft, hidle⟩
      rw [Prod.mk.injEq] at h
      have hsame : s.setDisk d = s' := h.1
      -- However many of the effects took place, the log holds what it held.
      have hcut : ∀ n, (s.setDisk (s.disk.left.redo (effects.take n))).Settled bodies kept ∧
          (s.setDisk (s.disk.left.redo (effects.take n))).Logged txs := by
        intro n
        have hsome : ∀ x ∈ effects.take n, s.log.Idle x := fun x hx =>
          hidle x (List.mem_of_mem_take hx)
        have hchanges : Disk.Changes (fun _ => True) (fun _ _ => False) (· = s.log.file) s.disk.left
            (s.disk.left.redo (effects.take n)) := by
          refine Disk.redo_changes fun x hx => ?_
          rcases hsome x hx with rfl | rfl
          · rfl
          · rfl
        exact ⟨hs.changes hchanges.left fun _ _ _ _ _ _ _ => trivial,
          hl.alter rfl rfl rfl rfl hchanges.left (fun _ _ => trivial)
            (LogFile.contentsOf_idle hl.position hsome)⟩
      have hall := (hcut effects.length).2
      rw [List.take_length, ← hleft] at hall
      rw [← hsame] at hfaults ⊢
      refine ⟨rfl, rfl, rfl, ?_, effects,
        ⟨hperformed, hleft, hfaults, fun n => (hcut n).1.durable (hcut n).2⟩, fun x hx => ?_⟩
      · have hsame : Disk.Changes (fun _ => True) (fun _ _ => False) (fun _ => False) d.left
            d.left.left := .refl ..
        exact hall.alter rfl rfl rfl rfl hsame (fun _ _ => trivial) rfl
      · rcases hidle x hx with rfl | rfl
        · rfl
        · rfl

/-- A transaction is written in one step. -/
theorem commit_effect (h : s.commit ops = (s', .ok ())) : ∃ append, append.appends = true ∧
    s'.disk.performed = s.disk.performed ++ [append] ∧ s'.disk.left = s.disk.left.redo [append] := by
  rcases commit_eq_ok h with ⟨d, r, hperform, -, rfl⟩
  rcases Disk.perform_effects s.disk (.writeAt s.log.file s.log.path s.log.position
    (Utf8.encode (LogEntry.transaction (ops.map .operation)))) with
    ⟨effects, hperformed, hleft, -, hcases⟩
  rw [hperform] at hperformed hleft hcases
  rcases hcases with ⟨-, fault, herror⟩ | ⟨rfl, -⟩ | ⟨_, _, -, -, -, fault, herror⟩
  · cases herror
  · refine ⟨_, ?_, hperformed, hleft⟩
    have hsome := Usage.transaction_length_pos ops
    rw [Effect.appends, Bool.not_eq_true', List.isEmpty_eq_false_iff]
    exact List.ne_nil_of_length_pos hsome
  · cases herror

end Store

end NestedColumns
