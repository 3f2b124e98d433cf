import NestedColumns.Proofs.Disk.Faultless
import NestedColumns.Proofs.Store.Holdings
import NestedColumns.Proofs.Store.Logged

/-!
# A store on a disk without its faults

What tables and sessions hold does not depend on the faults to come. An operation that
succeeds in spite of them does what it does without them, so the lemmas on disks that do not
fail apply to it. One that fails has removed no more than the directory of its own chunk.

## Main definitions

* `Store.faultless`: A store on its disk without faults.

## Theorems

* `Store.TableHolds.faultless_iff`, `Store.SessionHolds.faultless_iff`: Faults do not matter
  for what is held.
* `Session.flush_faultless`, `Session.commit_faultless`: Operations that succeed.
* `Session.flush_kept`: Documents are written or stay to be written.
-/

namespace NestedColumns

namespace Store

/-- A store on its disk without faults. -/
def faultless (s : Store) : Store :=
  s.setDisk s.disk.faultless

/-- A store on its disk with other faults. -/
def setFaults (s : Store) (faults : Nat → Option Nat) : Store :=
  s.setDisk (s.disk.setFaults faults)

variable {spared : Path → Prop} {s s' : Store} {bodies : PageKey → Option (List UInt8)}
  {schema : Schema} {ref : TableRef} {chunks : List ChunkInfo} {documents : List Taken}
  {t : Table} {session : Session} {ops : List Operation}

theorem faultless_setFaults (hr : s.disk.Reliable) (faults : Nat → Option Nat) :
    (s.setFaults faults).faultless = s := by
  have hdisk : (s.disk.setFaults faults).faultless = s.disk := Disk.faultless_setFaults hr faults
  have hsame : (s.setFaults faults).faultless = s.setDisk (s.disk.setFaults faults).faultless := rfl
  rw [hsame, hdisk]
  rfl

theorem Follows.faultless (h : Follows spared s s') : Follows spared s.faultless s'.faultless where
  options := h.options
  log := h.log
  pages := h.pages
  next := h.next
  disk := h.disk.faultless

theorem ChunksHold.faultless_iff : s.faultless.ChunksHold bodies schema ref chunks documents ↔
    s.ChunksHold bodies schema ref chunks documents :=
  ⟨fun h => h.alter rfl rfl (.refl (fun _ => True) (fun _ _ => True) _ _) (fun _ _ _ _ => trivial)
      fun _ _ _ _ => rfl,
    fun h => h.alter rfl rfl (.refl (fun _ => True) (fun _ _ => True) _ _) (fun _ _ _ _ => trivial)
      fun _ _ _ _ => rfl⟩

theorem TableHolds.faultless_iff :
    s.faultless.TableHolds bodies t documents ↔ s.TableHolds bodies t documents :=
  ⟨fun h => ⟨h.schema, h.under, h.begun, ChunksHold.faultless_iff.mp h.chunks⟩,
    fun h => ⟨h.schema, h.under, h.begun, ChunksHold.faultless_iff.mpr h.chunks⟩⟩

theorem SessionHolds.faultless_iff :
    s.faultless.SessionHolds bodies t session documents ↔
      s.SessionHolds bodies t session documents := by
  constructor
  · intro h
    rcases h.held with ⟨written, waiting, streams, hdocuments, hwritten, hrest⟩
    exact ⟨h.ref, h.schema, h.grown, h.unchanged, h.under, h.begun, h.apart, written, waiting,
      streams, hdocuments, ChunksHold.faultless_iff.mp hwritten, hrest⟩
  · intro h
    rcases h.held with ⟨written, waiting, streams, hdocuments, hwritten, hrest⟩
    exact ⟨h.ref, h.schema, h.grown, h.unchanged, h.under, h.begun, h.apart, written, waiting,
      streams, hdocuments, ChunksHold.faultless_iff.mpr hwritten, hrest⟩

theorem commit_faultless (h : s.commit ops = (s', .ok ())) :
    s.faultless.commit ops = (s'.faultless, .ok ()) := by
  rcases commit_eq_ok h with ⟨d, r, hperform, happly, rfl⟩
  have hsame : s.faultless.disk.perform (.writeAt s.faultless.log.file s.faultless.log.path
      s.faultless.log.position (Utf8.encode (LogEntry.transaction (ops.map .operation)))) =
        (d.faultless, .ok ()) := Disk.perform_faultless hperform
  have happly' : s.faultless.registry.applyAll ops = (r, .ok ()) := happly
  rw [commit, LogFile.append, hsame]
  simp only [happly']
  rfl

end Store

namespace Session

open Store

variable {s s' : Store} {session session' : Session}

theorem flush_faultless (h : session.flush s = (s', session', .ok ())) :
    session.flush s.faultless = (s'.faultless, session', .ok ()) := by
  have hoptions : s.faultless.options = s.options := rfl
  rw [flush] at h ⊢
  by_cases hempty : session.buffer.isEmpty = true
  · rw [if_pos hempty, Prod.mk.injEq, Prod.mk.injEq] at h
    rw [if_pos hempty, h.1, h.2.1]
  · rw [if_neg hempty] at h ⊢
    rw [hoptions]
    cases hencode : session.buffer.encode session.schema s.options.columnOptions with
    | error id =>
        rw [hencode] at h
        cases h
    | ok chunk =>
        rw [hencode] at h
        simp only [Store.performAll] at h ⊢
        rcases hperform : (s.setRegistry s.registry.takeChunk).disk.performAll
          (chunkEffects (s.options.chunkPath session.ref s.registry.nextChunk) chunk) with
          ⟨d, result⟩
        rw [hperform] at h
        cases result with
        | error e => cases h
        | ok _ =>
            have hsame : (s.faultless.setRegistry s.faultless.registry.takeChunk).disk.performAll
                (chunkEffects (s.options.chunkPath session.ref s.faultless.registry.nextChunk)
                  chunk) = (d.faultless, .ok ()) :=
              Disk.performAll_faultless hperform
            have hok : (Except.ok () : Except FileError Unit).mapError StoreError.file =
                .ok () := rfl
            simp only [hok, Prod.mk.injEq, and_true] at h
            rw [hsame]
            simp only [hok, Prod.mk.injEq, and_true]
            rw [← h.1, ← h.2]
            exact ⟨rfl, rfl⟩

theorem commit_faultless (h : session.commit s = (s', .ok ())) :
    session.commit s.faultless = (s'.faultless, .ok ()) := by
  have hcatalog : s.faultless.catalog = s.catalog := rfl
  rw [commit] at h ⊢
  by_cases hops : session.operations.isEmpty = true
  · rw [if_pos hops, Prod.mk.injEq] at h
    rw [if_pos hops, h.1]
  · rw [if_neg hops] at h ⊢
    rw [hcatalog]
    cases htable : s.catalog.table? session.ref with
    | none =>
        rw [htable] at h
        cases h
    | some t =>
        rw [htable] at h
        exact Store.commit_faultless h

theorem flush_eq_error {e : StoreError} (h : session.flush s = (s', session', .error e)) :
    session' = session ∧ ∀ fault, e ≠ .schema fault := by
  have hflushes := session.flush_spec s
  rw [h] at hflushes
  cases hflushes with
  | refused | failed => exact ⟨rfl, fun _ hsame => by cases hsame⟩

-- Chunks with lower numbers are not where a new one is.
theorem spares_lower {o : StoreOptions} {ref owner : TableRef} {next : Nat}
    {chunks : List ChunkInfo} (h : ∀ c ∈ chunks, c.chunk < next) :
    Spares (Outside [o.chunkPath ref next]) o owner chunks := by
  intro c hc path hprefix p hp hin
  rw [List.mem_singleton.mp hp] at hin
  have hsame := (StoreOptions.chunk_unique hprefix hin).2
  have hlt := h c hc
  omega

-- A flush that fails may have left anything in the directory of its chunk, but the number of
-- the chunk is used up, and the documents are still in memory.
theorem flush_kept {bodies : PageKey → Option (List UInt8)} {t : Table} {documents : List Taken}
    {result : Except StoreError Unit} (hs : s.faultless.Sound bodies)
    (h : s.SessionHolds bodies t session documents)
    (hbegun : ∀ c ∈ t.chunks, c.chunk < s.registry.nextChunk)
    (hflush : session.flush s = (s', session', result)) :
    ∃ bodies', Follows (Outside [s.options.chunkPath session.ref s.registry.nextChunk]) s s' ∧
      s'.catalog = s.catalog ∧ s'.faultless.Sound bodies' ∧
      (∀ key : PageKey, key.chunk < s.registry.nextChunk → bodies' key = bodies key) ∧
      s'.SessionHolds bodies' t session' documents := by
  rcases flush_follows session s with ⟨hfollows, -, hcatalog, -⟩
  rw [hflush] at hfollows hcatalog
  cases result with
  | ok _ =>
      rcases flush_holds hs (SessionHolds.faultless_iff.mpr h) hbegun with
        ⟨after, flushed, bodies', hsame, -, -, -, hsound, hbodies, hheld, -⟩
      rw [flush_faultless hflush, Prod.mk.injEq, Prod.mk.injEq] at hsame
      rcases hsame with ⟨rfl, rfl, -⟩
      exact ⟨bodies', hfollows, hcatalog, hsound, hbodies, SessionHolds.faultless_iff.mp hheld⟩
  | error e =>
      rw [(flush_eq_error hflush).1]
      refine ⟨bodies, hfollows, hcatalog, hs.follows hfollows.faultless (fun path hup p hp => ?_)
        (hcatalog ▸ hs.catalog), fun _ _ => rfl,
        h.follows hfollows (spares_lower h.begun) fun _ _ => rfl⟩
      rw [List.mem_singleton.mp hp]
      exact fun hprefix => StoreOptions.outside_database
        ((StoreOptions.database_prefix_chunk _ session.ref s.registry.nextChunk).trans hprefix) hup

end Session

end NestedColumns
