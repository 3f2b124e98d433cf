import NestedColumns.Proofs.Engine.Turns
import NestedColumns.Store.Export

/-!
# Whose chunk a number is

A chunk belongs to the session that has written it, until that is closed, and to the table from
then on. A new one has the next number, so of all tables and all sessions together no two chunks
have the same one, whichever of them are committed, removed or cannot be written.

## Main definitions

* `Holder`: What may have chunks.
* `Engine.chunksOf`: The chunks that a table or a session has.
* `Engine.Shift`: What becomes of them in a turn.
* `Engine.Distinct`: No two chunks have the same number.

## Theorems

* `Engine.calm_shift`, `Engine.change_shift`: Turns add a chunk, hand chunks over, or drop some.
* `Engine.Distinct.shift`: All numbers are distinct on.
-/

namespace NestedColumns

/-- What may have chunks: a table, or the session of a handle. -/
inductive Holder where
  | table (ref : TableRef)
  | session (handle : Nat)
  deriving DecidableEq

/-- The chunks that a session has not committed, where they are on the disk. -/
def Store.stagedChunks (s : Store) (session : Session) : List DiskChunk :=
  session.staged.map fun c => ⟨s.options.chunkPath session.ref c.chunk, c⟩

namespace Engine

variable {e e' : Engine} {s : Store} {handle : Nat} {live : Live}
  {bodies : PageKey → Option (List UInt8)}

/-- The chunks of a holder where they are on the disk, none if it is not there. -/
def chunksOf (e : Engine) : Holder → List DiskChunk
  | .table ref =>
    match e.store.catalog.table? ref with
    | some t => e.store.diskChunks t
    | none => []
  | .session handle =>
    match e.sessions.find? handle with
    | some live => e.store.stagedChunks live.session
    | none => []

/-- What becomes of chunks in a turn: some holders drop theirs, a session gets a new one, or a
    session hands all of its chunks over to a table. -/
inductive Shift (e e' : Engine) : Prop
  | fewer (all : ∀ holder, e'.chunksOf holder = e.chunksOf holder ∨ e'.chunksOf holder = [])
  | added {handle : Nat} {chunk : DiskChunk}
      (number : chunk.info.chunk = e.store.registry.nextChunk)
      (begun : e.store.registry.nextChunk < e'.store.registry.nextChunk)
      (place : ∃ ref, chunk.directory = e'.store.options.chunkPath ref chunk.info.chunk)
      (filed : chunk.Filed e.store.log.file e'.store.disk)
      (own : e'.chunksOf (.session handle) = e.chunksOf (.session handle) ++ [chunk])
      (others : ∀ holder, holder ≠ .session handle → e'.chunksOf holder = e.chunksOf holder)
  | moved {handle : Nat} {ref : TableRef}
      (own : e'.chunksOf (.table ref) = e.chunksOf (.table ref) ++ e.chunksOf (.session handle))
      (left : e'.chunksOf (.session handle) = [])
      (others : ∀ holder, holder ≠ .table ref → holder ≠ .session handle →
        e'.chunksOf holder = e.chunksOf holder)

/-! ### Turns -/

-- Where neither the catalog nor the options change, tables have the chunks that they had.
theorem chunksOf_table (ho : e'.store.options = e.store.options)
    (hc : e'.store.catalog = e.store.catalog) (ref : TableRef) :
    e'.chunksOf (.table ref) = e.chunksOf (.table ref) := by
  simp only [chunksOf, Store.diskChunks, ho, hc]

theorem chunksOf_session (ho : e'.store.options = e.store.options)
    (hs : e'.sessions = e.sessions) (handle : Nat) :
    e'.chunksOf (.session handle) = e.chunksOf (.session handle) := by
  simp only [chunksOf, Store.stagedChunks, ho, hs]

theorem chunksOf_congr (ho : e'.store.options = e.store.options)
    (hc : e'.store.catalog = e.store.catalog) (hs : e'.sessions = e.sessions) (holder : Holder) :
    e'.chunksOf holder = e.chunksOf holder := by
  cases holder with
  | table ref => exact chunksOf_table ho hc ref
  | session other => exact chunksOf_session ho hs other

theorem chunksOf_insert (ho : e'.store.options = e.store.options)
    (hs : e'.sessions = e.sessions.insert handle live) (other : Nat) :
    e'.chunksOf (.session other) =
      if handle = other then e.store.stagedChunks live.session else e.chunksOf (.session other) := by
  simp only [chunksOf, Store.stagedChunks, ho, hs, IdMap.find?_insert]
  split
  · next heq =>
    split at heq
    · next hsame => rw [if_pos hsame, Option.some.inj heq]
    · next hne => rw [if_neg hne, heq]
  · next heq =>
    split at heq
    · cases heq
    · next hne => rw [if_neg hne, heq]

theorem chunksOf_erase (ho : e'.store.options = e.store.options)
    (hs : e'.sessions = e.sessions.erase handle) (other : Nat) :
    e'.chunksOf (.session other) = if handle = other then [] else e.chunksOf (.session other) := by
  simp only [chunksOf, Store.stagedChunks, ho, hs, IdMap.find?_erase]
  split
  · next heq =>
    split at heq
    · cases heq
    · next hne => rw [if_neg hne, heq]
  · next heq =>
    split at heq
    · next hsame => rw [if_pos hsame]
    · next hne => rw [if_neg hne, heq]

theorem chunksOf_found (found : e.sessions.find? handle = some live) :
    e.chunksOf (.session handle) = e.store.stagedChunks live.session := by
  simp only [chunksOf, found]

-- A session that is as it was has its chunks still.
theorem shift_of_insert {live' : Live} (ho : e'.store.options = e.store.options)
    (hc : e'.store.catalog = e.store.catalog) (hs : e'.sessions = e.sessions.insert handle live')
    (hsame : e.store.stagedChunks live'.session = e.chunksOf (.session handle)) : Shift e e' := by
  refine .fewer fun holder => Or.inl ?_
  cases holder with
  | table ref => exact chunksOf_table ho hc ref
  | session other =>
      rw [chunksOf_insert ho hs]
      split
      · next heq => rw [hsame, heq]
      · rfl

theorem shift_of_same (ho : e'.store.options = e.store.options)
    (hc : e'.store.catalog = e.store.catalog) (hs : e'.sessions = e.sessions) : Shift e e' :=
  .fewer fun holder => Or.inl (chunksOf_congr ho hc hs holder)

theorem shift_of_stage {live' : Live} {chunk : DiskChunk} (ho : e'.store.options = e.store.options)
    (hc : e'.store.catalog = e.store.catalog) (hs : e'.sessions = e.sessions.insert handle live')
    (hadded : e.store.stagedChunks live'.session = e.chunksOf (.session handle) ++ [chunk])
    (hnumber : chunk.info.chunk = e.store.registry.nextChunk)
    (hbegun : e.store.registry.nextChunk < e'.store.registry.nextChunk)
    (hplace : ∃ ref, chunk.directory = e'.store.options.chunkPath ref chunk.info.chunk)
    (hfiled : chunk.Filed e.store.log.file e'.store.disk) : Shift e e' := by
  have hsession := chunksOf_insert ho hs
  refine .added hnumber hbegun hplace hfiled ((hsession handle).trans ((if_pos rfl).trans hadded))
    fun holder hne => ?_
  cases holder with
  | table ref => exact chunksOf_table ho hc ref
  | session other =>
      rw [hsession, if_neg]
      exact fun heq => hne (heq ▸ rfl)

theorem takes_staged {session session' : Session} {options : MergeOptions} {more : List Taken}
    (ht : session.Takes options session' more) :
    session'.ref = session.ref ∧ session'.staged = session.staged := by
  cases ht with
  | nothing => exact ⟨rfl, rfl⟩
  | document haccept =>
      rcases Session.accept_staged haccept with ⟨href, hstaged, -⟩
      exact ⟨href, hstaged⟩

theorem stagedChunks_takes (s : Store) {session session' : Session} {options : MergeOptions}
    {more : List Taken} (ht : session.Takes options session' more) :
    s.stagedChunks session' = s.stagedChunks session := by
  rw [Store.stagedChunks, Store.stagedChunks, (takes_staged ht).1, (takes_staged ht).2]

/-- A turn without a transaction adds at most one chunk. -/
theorem calm_shift (h : e.Steady bodies) (hc : Calm e e') :
    Shift e e' ∧ e.store.registry.nextChunk ≤ e'.store.registry.nextChunk := by
  cases hc with
  | @failed ops s error fits hcommit =>
      have hfollows := (Store.commit_cases (fun _ => True) e.store ops).1
      have hcatalog : s.catalog = e.store.catalog := commit_failed_catalog fits hcommit
      rw [hcommit] at hfollows
      exact ⟨shift_of_same hfollows.options hcatalog rfl, hfollows.next⟩
  | @opened handle t free table unwritten =>
      refine ⟨shift_of_insert rfl rfl rfl ?_, Nat.le_refl _⟩
      simp only [chunksOf, free]
      rfl
  | added found htakes =>
      refine ⟨shift_of_insert rfl rfl rfl ?_, Nat.le_refl _⟩
      rw [stagedChunks_takes _ htakes, chunksOf_found found]
  | @flushed handle live session more found htakes =>
      rcases session.flush_moves e.store with ⟨hmoves, -, href⟩
      have hown : e.store.stagedChunks session = e.chunksOf (.session handle) := by
        rw [stagedChunks_takes _ htakes, chunksOf_found found]
      refine ⟨?_, hmoves.next⟩
      rcases session.flush_filed e.store h.settled.number with
        hsame | ⟨count, columns, hstaged, hnext, hfiled⟩
      · refine shift_of_insert hmoves.options hmoves.catalog rfl ?_
        rw [← hown]
        simp only [hsame]
      · have hadded : e.store.stagedChunks (session.flush e.store).2.1 =
            e.chunksOf (.session handle) ++
              [⟨e.store.options.chunkPath session.ref e.store.registry.nextChunk,
                ⟨e.store.registry.nextChunk, count, columns⟩⟩] := by
          rw [← hown, hstaged, Store.stagedChunks, Store.stagedChunks, Session.stage, List.map_append]
          rfl
        exact shift_of_stage hmoves.options hmoves.catalog rfl hadded rfl (hnext ▸ Nat.lt_succ_self _)
          ⟨session.ref, by simp only [hmoves.options]⟩ hfiled
  | @ended handle live s found hends =>
      have hmoves : ∃ spared, Store.Moves spared live.session.ref e.store s := by
        rcases hends with rfl | rfl
        · exact ⟨_, live.session.discard_moves e.store⟩
        · exact ⟨_, live.session.abort_moves e.store⟩
      rcases hmoves with ⟨spared, hmoves⟩
      refine ⟨.fewer fun holder => ?_, hmoves.next⟩
      cases holder with
      | table ref => exact Or.inl (chunksOf_table hmoves.options hmoves.catalog ref)
      | session other =>
          rw [chunksOf_erase (e := e) hmoves.options rfl]
          split
          · exact Or.inr rfl
          · exact Or.inl rfl
  | asked hreader => exact ⟨shift_of_same rfl rfl rfl, Nat.le_refl _⟩
  | given found => exact ⟨shift_of_same rfl rfl rfl, Nat.le_refl _⟩
  | forgotten keys => exact ⟨shift_of_same rfl rfl rfl, Nat.le_refl _⟩

-- The table of a session that commits gets the session's chunks.
theorem chunksOf_commit (e' : Engine) (hg : e.Guarded) (found : e.sessions.find? handle = some live)
    (done : live.session.commit e.store = (s, .ok ())) (hstore : e'.store = live.session.release s)
    (hsessions : e'.sessions = e.sessions.erase handle) :
    e'.chunksOf (.table live.session.ref) =
        e.chunksOf (.table live.session.ref) ++ e.chunksOf (.session handle) ∧
      e'.chunksOf (.session handle) = [] ∧
      ∀ holder, holder ≠ .table live.session.ref → holder ≠ .session handle →
        e'.chunksOf holder = e.chunksOf holder := by
  have hbased := hg.based _ _ found
  have hfollows := live.session.commit_follows e.store
  rcases hbased.commit hg.catalog with ⟨-, -, -, hothers, hcases⟩
  rw [done] at hfollows hothers hcases
  have htable : s.catalog.table? live.session.ref = some (live.session.committed live.base) := by
    rcases hcases with ⟨-, htable⟩ | ⟨⟨error, herror⟩, -⟩
    · exact htable
    · cases herror
  have href := hg.catalog.refs _ _ hbased.table
  have hafter : e'.store.catalog = s.catalog := by rw [hstore]; rfl
  have hoptions : e'.store.options = e.store.options := by rw [hstore]; exact hfollows.options
  have hsession := chunksOf_erase (e := e) hoptions hsessions
  refine ⟨?_, (hsession handle).trans (if_pos rfl), fun holder hother hne => ?_⟩
  · rw [chunksOf_found found]
    simp only [chunksOf, hafter, htable, hbased.table, Store.diskChunks, Store.stagedChunks,
      hoptions, Session.committed, List.map_append, href]
  · cases holder with
    | table ref =>
        have hdiffer : ref ≠ live.session.ref := fun heq => hother (heq ▸ rfl)
        simp only [chunksOf, hafter, hothers ref hdiffer, Store.diskChunks, hoptions]
    | session other =>
        rw [hsession, if_neg]
        exact fun heq => hne (heq ▸ rfl)

/-- A transaction hands chunks over, or drops them. -/
theorem change_shift (hg : e.Guarded) (hc : Change e e') :
    Shift e e' ∧ e.store.registry.nextChunk ≤ e'.store.registry.nextChunk := by
  cases hc with
  | @altered ops removed answer s halters changed done =>
      rcases halters.follows with ⟨spared, hfollows, -⟩
      refine ⟨.fewer fun holder => ?_, changed.next⟩
      cases holder with
      | table ref =>
          have hsame : (e.onStore answer.1).store = answer.1 := rfl
          simp only [chunksOf, hsame]
          cases ht : answer.1.catalog.table? ref with
          | none => exact Or.inr rfl
          | some t =>
              rcases changed.new ref t ht with hold | ⟨-, name, rfl⟩
              · simp only [hold, Store.diskChunks, hfollows.options, true_or]
              · exact Or.inr rfl
      | session handle =>
          have hoptions : (e.onStore answer.1).store.options = e.store.options := hfollows.options
          exact Or.inl (chunksOf_session hoptions rfl handle)
  | @committed handle live s found written operations done =>
      have hnext := ((hg.based _ _ found).commit hg.catalog).2.1
      rw [done] at hnext
      rcases chunksOf_commit ⟨live.session.release s, e.sessions.erase handle, e.readers,
        Function.update e.kept live.session.ref (e.kept live.session.ref ++ live.taken)⟩
          hg found done rfl rfl with ⟨own, left, others⟩
      exact ⟨.moved own left others, hnext⟩

/-! ### Distinct numbers -/

/-- No two chunks of tables and sessions have the same number, and the next number is that of
    none. -/
structure Distinct (e : Engine) : Prop where
  each : ∀ holder, ((e.chunksOf holder).map (·.info.chunk)).Nodup
  apart : ∀ holder holder', holder ≠ holder' → ∀ c ∈ e.chunksOf holder,
    ∀ c' ∈ e.chunksOf holder', c.info.chunk ≠ c'.info.chunk
  begun : ∀ holder, ∀ c ∈ e.chunksOf holder, c.info.chunk < e.store.registry.nextChunk

theorem Distinct.fewer (h : e.Distinct)
    (all : ∀ holder, e'.chunksOf holder = e.chunksOf holder ∨ e'.chunksOf holder = [])
    (hnext : e.store.registry.nextChunk ≤ e'.store.registry.nextChunk) : e'.Distinct := by
  have hin : ∀ holder, ∀ c ∈ e'.chunksOf holder, c ∈ e.chunksOf holder := by
    intro holder c hc
    rcases all holder with hsame | hnone
    · exact hsame ▸ hc
    · rw [hnone] at hc
      exact absurd hc List.not_mem_nil
  refine ⟨fun holder => ?_, fun holder holder' hne c hc c' hc' => h.apart holder holder' hne c
    (hin holder c hc) c' (hin holder' c' hc'), fun holder c hc =>
      Nat.lt_of_lt_of_le (h.begun holder c (hin holder c hc)) hnext⟩
  rcases all holder with hsame | hnone
  · rw [hsame]
    exact h.each holder
  · rw [hnone]
    exact List.nodup_nil

-- The number of a new chunk is above those of all others.
theorem Distinct.added {chunk : DiskChunk} (h : e.Distinct)
    (number : chunk.info.chunk = e.store.registry.nextChunk)
    (begun : e.store.registry.nextChunk < e'.store.registry.nextChunk)
    (own : e'.chunksOf (.session handle) = e.chunksOf (.session handle) ++ [chunk])
    (others : ∀ holder, holder ≠ .session handle → e'.chunksOf holder = e.chunksOf holder) :
    e'.Distinct := by
  -- A chunk is the new one, or one that was there.
  have hin : ∀ holder, ∀ c ∈ e'.chunksOf holder,
      c ∈ e.chunksOf holder ∨ c = chunk ∧ holder = .session handle := by
    intro holder c hc
    by_cases heq : holder = .session handle
    · rw [heq, own] at hc
      rcases List.mem_append.mp hc with hc | hc
      · exact Or.inl (heq ▸ hc)
      · exact Or.inr ⟨List.mem_singleton.mp hc, heq⟩
    · exact Or.inl (others holder heq ▸ hc)
  have hold : ∀ holder, ∀ c ∈ e.chunksOf holder, c.info.chunk < chunk.info.chunk :=
    fun holder c hc => number ▸ h.begun holder c hc
  refine ⟨fun holder => ?_, fun holder holder' hne c hc c' hc' => ?_, fun holder c hc => ?_⟩
  · by_cases heq : holder = .session handle
    · rw [heq, own, List.map_append, List.map_singleton, List.nodup_append]
      refine ⟨h.each _, List.nodup_singleton _, fun a ha b hb => ?_⟩
      rcases List.mem_map.mp ha with ⟨c, hc, rfl⟩
      rw [List.mem_singleton.mp hb]
      exact Nat.ne_of_lt (hold _ c hc)
    · rw [others holder heq]
      exact h.each holder
  · rcases hin holder c hc with hc | ⟨rfl, heq⟩ <;> rcases hin holder' c' hc' with hc' | ⟨rfl, heq'⟩
    · exact h.apart holder holder' hne c hc c' hc'
    · exact Nat.ne_of_lt (hold _ c hc)
    · exact Nat.ne_of_gt (hold _ c' hc')
    · exact absurd (heq.trans heq'.symm) hne
  · rcases hin holder c hc with hc | ⟨rfl, -⟩
    · exact Nat.lt_trans (h.begun holder c hc) begun
    · rw [number]
      exact begun

theorem Distinct.moved {ref : TableRef} (h : e.Distinct)
    (own : e'.chunksOf (.table ref) = e.chunksOf (.table ref) ++ e.chunksOf (.session handle))
    (left : e'.chunksOf (.session handle) = [])
    (others : ∀ holder, holder ≠ .table ref → holder ≠ .session handle →
      e'.chunksOf holder = e.chunksOf holder)
    (hnext : e.store.registry.nextChunk ≤ e'.store.registry.nextChunk) : e'.Distinct := by
  -- A chunk of the table was one of the session, and the session has none of its own any more.
  have hin : ∀ holder, ∀ c ∈ e'.chunksOf holder, holder ≠ .session handle ∧
      (c ∈ e.chunksOf holder ∨ holder = .table ref ∧ c ∈ e.chunksOf (.session handle)) := by
    intro holder c hc
    by_cases hsession : holder = .session handle
    · rw [hsession, left] at hc
      exact absurd hc List.not_mem_nil
    · refine ⟨hsession, ?_⟩
      by_cases htable : holder = .table ref
      · rw [htable, own] at hc
        exact (List.mem_append.mp hc).imp (fun hc => htable ▸ hc) fun hc => ⟨htable, hc⟩
      · exact Or.inl (others holder htable hsession ▸ hc)
  have hne : Holder.table ref ≠ .session handle := fun heq => by cases heq
  refine ⟨fun holder => ?_, fun holder holder' hdiffer c hc c' hc' => ?_, fun holder c hc => ?_⟩
  · by_cases hsession : holder = .session handle
    · rw [hsession, left]
      exact List.nodup_nil
    · by_cases htable : holder = .table ref
      · rw [htable, own, List.map_append, List.nodup_append]
        refine ⟨h.each _, h.each _, fun a ha b hb => ?_⟩
        rcases List.mem_map.mp ha with ⟨c, hc, rfl⟩
        rcases List.mem_map.mp hb with ⟨c', hc', rfl⟩
        exact h.apart _ _ hne c hc c' hc'
      · rw [others holder htable hsession]
        exact h.each holder
  · rcases hin holder c hc with ⟨hs, hold | ⟨rfl, hold⟩⟩ <;>
      rcases hin holder' c' hc' with ⟨hs', hold' | ⟨rfl, hold'⟩⟩
    · exact h.apart holder holder' hdiffer c hold c' hold'
    · exact h.apart holder _ hs c hold c' hold'
    · exact h.apart _ holder' hs'.symm c hold c' hold'
    · exact absurd rfl hdiffer
  · rcases hin holder c hc with ⟨-, hc | ⟨-, hc⟩⟩
    · exact Nat.lt_of_lt_of_le (h.begun _ c hc) hnext
    · exact Nat.lt_of_lt_of_le (h.begun _ c hc) hnext

theorem Distinct.shift (h : e.Distinct) (hs : Shift e e')
    (hnext : e.store.registry.nextChunk ≤ e'.store.registry.nextChunk) : e'.Distinct := by
  cases hs with
  | fewer all => exact h.fewer all hnext
  | added number begun place filed own others => exact h.added number begun own others
  | moved own left others => exact h.moved own left others hnext

-- A number is that of one chunk.
theorem Distinct.unique (h : e.Distinct) {holder holder' : Holder} {c c' : DiskChunk}
    (hc : c ∈ e.chunksOf holder) (hc' : c' ∈ e.chunksOf holder')
    (hsame : c.info.chunk = c'.info.chunk) : holder = holder' ∧ c = c' := by
  by_cases hholder : holder = holder'
  · subst hholder
    exact ⟨rfl, List.inj_on_of_nodup_map (h.each holder) hc hc' hsame⟩
  · exact absurd hsame (h.apart holder holder' hholder c hc c' hc')

end Engine

/-- No two chunks of the tables of a catalog have the same number. -/
structure Catalog.Distinct (c : Catalog) : Prop where
  each : ∀ ref t, c.table? ref = some t → (t.chunks.map (·.chunk)).Nodup
  apart : ∀ ref ref' t t', c.table? ref = some t → c.table? ref' = some t' → ref ≠ ref' →
    ∀ x ∈ t.chunks, ∀ y ∈ t'.chunks, x.chunk ≠ y.chunk

namespace Engine

variable {e : Engine} {s : Store}

theorem map_diskChunks (s : Store) (t : Table) :
    (s.diskChunks t).map (·.info.chunk) = t.chunks.map (·.chunk) := by
  rw [Store.diskChunks, List.map_map]
  rfl

theorem Distinct.catalog (h : e.Distinct) : e.store.catalog.Distinct where
  each := fun ref t ht => by
    have heach := h.each (.table ref)
    simp only [chunksOf, ht] at heach
    rwa [map_diskChunks] at heach
  apart := fun ref ref' t t' ht ht' hne x hx y hy => by
    have hapart := h.apart (.table ref) (.table ref') fun heq => hne (Holder.table.inj heq)
    simp only [chunksOf, ht, ht'] at hapart
    exact hapart _ (List.mem_map_of_mem hx) _ (List.mem_map_of_mem hy)

-- A store that was just opened has no sessions.
theorem distinct_resume (h : s.catalog.Distinct) (hb : s.registry.Below)
    (kept : TableRef → List Taken) : (resume s kept).Distinct := by
  have htable : ∀ ref, (∃ t, s.catalog.table? ref = some t ∧
      (resume s kept).chunksOf (.table ref) = s.diskChunks t) ∨
        (resume s kept).chunksOf (.table ref) = [] := by
    intro ref
    have hsame : (resume s kept).store.catalog.table? ref = s.catalog.table? ref := rfl
    rw [chunksOf, hsame]
    cases s.catalog.table? ref with
    | none => exact Or.inr rfl
    | some t => exact Or.inl ⟨t, rfl, rfl⟩
  have hin : ∀ holder, ∀ c ∈ (resume s kept).chunksOf holder,
      ∃ ref t, holder = .table ref ∧ s.catalog.table? ref = some t ∧ c.info ∈ t.chunks := by
    intro holder c hc
    cases holder with
    | session handle => cases hc
    | table ref =>
        rcases htable ref with ⟨t, ht, hchunks⟩ | hnone
        · rw [hchunks] at hc
          rcases List.mem_map.mp hc with ⟨info, hinfo, rfl⟩
          exact ⟨ref, t, rfl, ht, hinfo⟩
        · rw [hnone] at hc
          exact absurd hc List.not_mem_nil
  refine ⟨fun holder => ?_, fun holder holder' hne c hc c' hc' => ?_, fun holder c hc => ?_⟩
  · cases holder with
    | session handle => exact List.nodup_nil
    | table ref =>
        rcases htable ref with ⟨t, ht, hchunks⟩ | hnone
        · rw [hchunks, map_diskChunks]
          exact h.each ref t ht
        · rw [hnone]
          exact List.nodup_nil
  · rcases hin holder c hc with ⟨ref, t, rfl, ht, hx⟩
    rcases hin holder' c' hc' with ⟨ref', t', rfl, ht', hy⟩
    exact h.apart ref ref' t t' ht ht' (fun heq => hne (heq ▸ rfl)) _ hx _ hy
  · rcases hin holder c hc with ⟨ref, t, -, ht, hx⟩
    exact hb ref t ht _ hx

end Engine

end NestedColumns
