import NestedColumns.Proofs.Engine.Writers
import NestedColumns.Proofs.Store.Limits
import NestedColumns.Proofs.Store.Settled
import Mathlib.Logic.Relation

/-!
# What actions come to

An action is a few turns one after another. All turns but the last leave the catalog alone: they
open a session, give it a document, write a chunk, fail to write to the log, remove chunks that
were not committed, or read. Only the last may be a change, which is one transaction in the log
and what is removed after it.

## Main definitions

* `Engine.Calm`: A turn that leaves the catalog alone.
* `Engine.Change`: A turn that writes a transaction.
* `Engine.Steady`: Tables hold what was kept, and sessions what was added.

## Theorems

* `Engine.Guarded.calm`, `Engine.Steady.calm`, `Engine.Steady.change`: What turns preserve.
* `Engine.step_turns`: An action is calm turns, and perhaps a change.
* `Engine.Steady.step`, `Engine.Steady.run`: What actions preserve.
-/

namespace NestedColumns

open Store (Alters Changed Settled SparesAll)

/-- A session after it was given a document that it accepts, or nothing. -/
inductive Session.Takes (options : MergeOptions) (session : Session) : Session → List Taken → Prop
  | nothing : Takes options session session []
  | document {accepted : Session} {document : Json}
      (h : session.accept options document = .ok accepted) :
      Takes options session accepted [⟨accepted.schema, document⟩]

namespace Engine

variable {e e' e'' : Engine} {s : Store} {handle : Nat} {live : Live}
  {bodies : PageKey → Option (List UInt8)}

/-- A turn that leaves the catalog of an engine alone. -/
inductive Calm (e : Engine) : Engine → Prop
  /-- A transaction cannot be written. -/
  | failed {ops : List Operation} {s : Store} {error : StoreError}
      (fits : ∃ r, e.store.registry.applyAll ops = (r, .ok ()))
      (h : e.store.commit ops = (s, .error error)) : Calm e ⟨s, e.sessions, e.readers, e.kept⟩
  | opened {handle : Nat} {t : Table} (free : e.sessions.find? handle = none)
      (table : e.store.catalog.table? t.ref = some t) (unwritten : t.ref ∉ e.store.writers) :
      Calm e ⟨e.store.setWriters (t.ref :: e.store.writers), e.sessions.insert handle (fresh t),
        e.readers, e.kept⟩
  | added {handle : Nat} {live : Live} {session : Session} {more : List Taken}
      (found : e.sessions.find? handle = some live)
      (h : live.session.Takes e.store.options.mergeOptions session more) :
      Calm e ⟨e.store, e.sessions.insert handle ⟨session, live.base, live.taken ++ more⟩,
        e.readers, e.kept⟩
  /-- A session writes its documents, with one more perhaps. -/
  | flushed {handle : Nat} {live : Live} {session : Session} {more : List Taken}
      (found : e.sessions.find? handle = some live)
      (h : live.session.Takes e.store.options.mergeOptions session more) :
      Calm e ⟨(session.flush e.store).1, e.sessions.insert handle
        ⟨(session.flush e.store).2.1, live.base, live.taken ++ more⟩, e.readers, e.kept⟩
  /-- A session ends without its documents. -/
  | ended {handle : Nat} {live : Live} {s : Store} (found : e.sessions.find? handle = some live)
      (h : s = live.session.discard e.store ∨ s = (live.session.abort e.store).1) :
      Calm e ⟨s, e.sessions.erase handle, e.readers, e.kept⟩
  | asked {handle : Nat} {database table : String} {paths : List String} {reader : RecordReader}
      (h : e.store.reader database table paths = .ok reader) :
      Calm e ⟨e.store, e.sessions, e.readers.insert handle reader, e.kept⟩
  | given {handle : Nat} {reader : RecordReader} (found : e.readers.find? handle = some reader) :
      Calm e (e.onNext handle (reader.next e.store.volume)).1
  | forgotten (keys : List PageKey) :
      Calm e ⟨e.store.setVolume (e.store.volume.forget keys), e.sessions, e.readers, e.kept⟩

/-- A turn that writes a transaction to the log of an engine. -/
inductive Change (e : Engine) : Engine → Prop
  | altered {ops : List Operation} {removed : List Path}
      {answer : Store × Except StoreError Unit} {s : Store}
      (h : Alters e.store ops removed answer) (changed : Changed e.store answer.1)
      (done : e.store.commit ops = (s, .ok ())) : Change e (e.onStore answer.1)
  /-- A session ends, and its documents are the table's. -/
  | committed {handle : Nat} {live : Live} {s : Store}
      (found : e.sessions.find? handle = some live)
      (written : live.session.buffer.isEmpty = true)
      (operations : ¬ live.session.operations.isEmpty = true)
      (done : live.session.commit e.store = (s, .ok ())) :
      Change e ⟨live.session.release s, e.sessions.erase handle, e.readers,
        Function.update e.kept live.session.ref (e.kept live.session.ref ++ live.taken)⟩

/-- The tables of an engine hold the documents that were kept, and its sessions those that were
    added to them. The disk may fail. -/
structure Steady (e : Engine) (bodies : PageKey → Option (List UInt8)) : Prop where
  settled : e.store.Settled bodies e.kept
  working : ∀ handle live, e.sessions.find? handle = some live →
    live.session.Working e.store bodies live.base live.taken

/-! ### Sessions have tables of their own -/

theorem takes_based {session session' : Session} {base : Table} {options : MergeOptions}
    {more : List Taken} (ht : session.Takes options session' more) (h : session.Based s base) :
    session'.ref = session.ref ∧ session'.Based s base := by
  cases ht with
  | nothing => exact ⟨rfl, h⟩
  | document haccept => exact ⟨(Session.accept_staged haccept).1, h.accept haccept⟩

theorem commit_failed {ops : List Operation} {error : StoreError}
    (hfits : ∃ r, e.store.registry.applyAll ops = (r, .ok ()))
    (h : e.store.commit ops = (s, .error error)) :
    s.registry = e.store.registry ∧ s.writers = e.store.writers := by
  rcases Store.commit_cases (fun _ => True) e.store ops with
    ⟨-, hwriters, ⟨-, hresult, -⟩ | ⟨hregistry, -⟩⟩
  · rcases hfits with ⟨r, hfits⟩
    rw [h, hfits] at hresult
    cases hresult
  · rw [h] at hregistry hwriters
    exact ⟨hregistry, hwriters⟩

theorem commit_failed_catalog {ops : List Operation} {error : StoreError}
    (hfits : ∃ r, e.store.registry.applyAll ops = (r, .ok ()))
    (h : e.store.commit ops = (s, .error error)) : s.catalog = e.store.catalog := by
  rw [Store.catalog, (commit_failed hfits h).1]
  rfl

theorem ended_leaves (h : e.Guarded) (session : Session)
    (hs : s = session.discard e.store ∨ s = (session.abort e.store).1) :
    Session.Leaves e.store session s ∧ s.catalog = e.store.catalog := by
  rcases hs with rfl | rfl
  · exact session.discard_leaves h.catalog
  · exact session.abort_leaves h.catalog

theorem Guarded.calm (h : e.Guarded) (hc : Calm e e') : e'.Guarded := by
  cases hc with
  | failed fits hcommit =>
      rcases commit_failed fits hcommit with ⟨hregistry, hwriters⟩
      refine h.beside ⟨?_, hwriters, Nat.le_of_eq ?_⟩
      · rw [Store.catalog, hregistry]
        rfl
      · rw [hregistry]
  | opened free table unwritten => exact h.opened free table unwritten
  | added found htakes =>
      rcases takes_based htakes (h.based _ _ found) with ⟨href, hbased⟩
      exact h.onBeside ⟨rfl, rfl, Nat.le_refl _⟩ found href hbased
  | flushed found htakes =>
      rcases takes_based htakes (h.based _ _ found) with ⟨href, hbased⟩
      exact h.onBeside (Session.flush_beside _ _) found
        ((Session.flush_moves _ _).2.2.trans href) (hbased.flush h.below)
  | ended found hends =>
      rcases ended_leaves h _ hends with ⟨hleaves, hsame⟩
      exact h.left found hleaves (h.removed found hleaves hsame)
  | asked hreader => exact h.beside ⟨rfl, rfl, Nat.le_refl _⟩
  | given found => exact h.beside (Session.setVolume_beside ..)
  | forgotten keys => exact h.beside (Session.setVolume_beside ..)

-- A session that commits leaves its table with its own chunks behind the older ones.
theorem Guarded.change (h : e.Guarded) (hc : Change e e') : e'.Guarded := by
  cases hc with
  | altered halters changed done => exact h.onStore changed
  | @committed handle live s found written operations done =>
      have hbased := h.based _ _ found
      rcases hbased.commit h.catalog with ⟨hsound, hnext, hwriters, hothers, hcases⟩
      rw [done] at hsound hnext hwriters hothers hcases
      have htable : s.catalog.table? live.session.ref = some (live.session.committed live.base) := by
        rcases hcases with ⟨-, htable⟩ | ⟨⟨error, herror⟩, -⟩
        · exact htable
        · cases herror
      have hleaves : Session.Leaves e.store live.session (live.session.release s) := by
        refine ⟨hsound, hnext, ?_, hothers⟩
        rw [← hwriters]
        rfl
      refine h.left found hleaves (below_leaves h hleaves (t := live.session.committed live.base)
        (fun t ht => ?_) fun c hc => ?_)
      · have hsame : s.catalog.table? live.session.ref = some t := ht
        rw [htable, Option.some.injEq] at hsame
        exact hsame.symm
      · refine Nat.lt_of_lt_of_le ?_ hnext
        rcases List.mem_append.mp hc with hc | hc
        · exact h.below _ _ hbased.table c hc
        · exact hbased.begun c hc

/-! ### What tables and sessions hold -/

-- The session of a handle is another one; those of the others go on.
theorem working_insert {live' : Live} (hnew : live'.session.Working s bodies live'.base live'.taken)
    (hothers : ∀ handle' other, handle ≠ handle' → e.sessions.find? handle' = some other →
      other.session.Working s bodies other.base other.taken) :
    ∀ handle' other, (e.sessions.insert handle live').find? handle' = some other →
      other.session.Working s bodies other.base other.taken := by
  intro handle' other hother
  rw [IdMap.find?_insert] at hother
  split at hother
  · rw [Option.some.injEq] at hother
    exact hother ▸ hnew
  · next hne => exact hothers handle' other hne hother

theorem Steady.takes (h : e.Steady bodies) (found : e.sessions.find? handle = some live)
    {session : Session} {more : List Taken}
    (ht : live.session.Takes e.store.options.mergeOptions session more) :
    session.Working e.store bodies live.base (live.taken ++ more) := by
  have hworking := h.working _ _ found
  cases ht with
  | nothing =>
      rw [List.append_nil]
      exact hworking
  | document haccept =>
      rcases Session.accept_staged haccept with ⟨href, hstaged, -⟩
      refine ⟨(Session.accept_holds hworking.holds haccept).1, ?_⟩
      rw [href, hstaged]
      exact hworking.present

-- The chunks that a session has not committed are none of its table's.
theorem Steady.ended_moves (hg : e.Guarded) (h : e.Steady bodies)
    (found : e.sessions.find? handle = some live)
    (hends : s = live.session.discard e.store ∨ s = (live.session.abort e.store).1) :
    Store.Moves (Store.Outside (live.session.stagedPaths e.store.options)) live.session.ref
        e.store s ∧
      SparesAll (Store.Outside (live.session.stagedPaths e.store.options)) e.store.options
        e.store.catalog := by
  constructor
  · rcases hends with rfl | rfl
    · exact live.session.discard_moves e.store
    · exact live.session.abort_moves e.store
  · refine fun ref t ht => Session.spares_staged _ _ fun href => ?_
    rw [href, (hg.based _ _ found).table, Option.some.injEq] at ht
    rw [← ht]
    exact (h.working _ _ found).holds.apart

theorem Steady.calm (hg : e.Guarded) (h : e.Steady bodies) (hc : Calm e e') :
    ∃ bodies', (∀ key : PageKey, key.chunk < e.store.registry.nextChunk →
      bodies' key = bodies key) ∧ e'.Steady bodies' := by
  cases hc with
  | @failed ops s error fits hcommit =>
      have hfollows := (Store.commit_cases (fun _ => True) e.store ops).1
      have hcatalog : s.catalog = e.store.catalog := commit_failed_catalog fits hcommit
      rw [hcommit] at hfollows
      refine ⟨bodies, fun _ _ => rfl, h.settled.follows hfollows hcatalog
        (fun _ _ _ _ _ _ _ => trivial) (fun _ _ => rfl) fun key hkey =>
          h.settled.ahead key (Nat.le_trans hfollows.next hkey), fun handle live hlive => ?_⟩
      exact (h.working handle live hlive).follows hfollows (fun _ _ _ _ => trivial) fun _ _ => rfl
  | @opened handle t free table unwritten =>
      have hfollows := Store.setWriters_follows (fun _ => True) e.store (t.ref :: e.store.writers)
      refine ⟨bodies, fun _ _ => rfl, h.settled.follows hfollows rfl
        (fun _ _ _ _ _ _ _ => trivial) (fun _ _ => rfl) h.settled.ahead, working_insert ?_
          fun handle' other _ hother => (h.working handle' other hother).follows hfollows
            (fun _ _ _ _ => trivial) fun _ _ => rfl⟩
      have hholds := h.settled.table hfollows (fun _ _ => rfl) table fun _ _ _ _ => trivial
      exact ⟨Usage.sessionHolds_new hholds.1, fun _ hc => absurd hc List.not_mem_nil⟩
  | added found htakes =>
      exact ⟨bodies, fun _ _ => rfl, h.settled, working_insert (h.takes found htakes)
        fun handle' other _ hother => h.working handle' other hother⟩
  | @flushed handle live session more found htakes =>
      have htable := (hg.based _ _ found).table
      have hworking := h.takes found htakes
      rw [← (takes_based htakes (hg.based _ _ found)).1, hworking.holds.ref] at htable
      rcases hworking.flush h.settled htable with ⟨bodies', hbodies, hsettled, hflushed, -⟩
      refine ⟨bodies', hbodies, hsettled, working_insert hflushed fun handle' other _ hother => ?_⟩
      have hother' := h.working handle' other hother
      exact hother'.follows (session.flush_follows e.store).1
        (Session.spares_lower hother'.holds.begun) hbodies
  | @ended handle live s found hends =>
      rcases h.ended_moves hg found hends with ⟨hmoves, hspares⟩
      refine ⟨bodies, fun _ _ => rfl, h.settled.moves hmoves hspares, fun handle' other hother => ?_⟩
      have hfound := IdMap.find?_erase e.sessions handle handle'
      rw [hfound] at hother
      split at hother
      · cases hother
      · next hne =>
        refine (h.working handle' other hother).follows hmoves.follows
          (Session.spares_staged _ _ fun href => ?_) fun _ _ => rfl
        exact absurd (hg.one _ _ _ _ found hother href.symm) hne
  | asked hreader => exact ⟨bodies, fun _ _ => rfl, h.settled, h.working⟩
  | @given handle reader found =>
      have hdisk := reader.next_disk e.store.volume
      exact ⟨bodies, fun _ _ => rfl, h.settled.setVolume hdisk, fun handle' other hother =>
        (h.working handle' other hother).setVolume hdisk⟩
  | forgotten keys =>
      exact ⟨bodies, fun _ _ => rfl, h.settled.setVolume rfl, fun handle' other hother =>
        (h.working handle' other hother).setVolume rfl⟩

theorem Steady.change (hg : e.Guarded) (h : e.Steady bodies) (hc : Change e e') :
    e'.Steady bodies := by
  cases hc with
  | altered halters changed done =>
      rcases halters.follows with ⟨spared, hfollows, hspares⟩
      refine ⟨h.settled.altered hfollows hspares changed (halters.numbered h.settled.catalog),
        fun handle live hlive => ?_⟩
      have hbased := hg.based handle live hlive
      exact (h.working handle live hlive).follows hfollows
        (hspares _ _ (changed.kept _ _ hbased.written hbased.table) _) fun _ _ => rfl
  | @committed handle live s found written operations done =>
      have hworking := h.working _ _ found
      have htable := (hg.based _ _ found).table
      have hfollows := live.session.commit_follows e.store
      rw [done] at hfollows
      have hreleased : Store.Follows (fun _ => True) e.store (live.session.release s) :=
        hfollows.trans (Store.setWriters_follows ..)
      have hsettled : (live.session.release s).Settled bodies
          (Function.update e.kept live.session.ref (e.kept live.session.ref ++ live.taken)) := by
        rw [hworking.holds.ref] at htable ⊢
        have hcommitted := hworking.commit h.settled htable written done
        exact hcommitted.follows (Store.setWriters_follows (fun _ => True) ..) rfl
          (fun _ _ _ _ _ _ _ => trivial) (fun _ _ => rfl) hcommitted.ahead
      refine ⟨hsettled, fun handle' other hother => ?_⟩
      have hfound := IdMap.find?_erase e.sessions handle handle'
      rw [hfound] at hother
      split at hother
      · cases hother
      · exact (h.working handle' other hother).follows hreleased (fun _ _ _ _ => trivial)
          fun _ _ => rfl

/-! ### Actions -/

/-- An engine after calm turns, and perhaps a change at the end. -/
def Turns (e e' : Engine) : Prop :=
  ∃ e₁, Relation.ReflTransGen Calm e e₁ ∧ (e' = e₁ ∨ Change e₁ e')

theorem Turns.refl (e : Engine) : Turns e e :=
  ⟨e, .refl, Or.inl rfl⟩

theorem Turns.calm (h : Calm e e') : Turns e e' :=
  ⟨e', .single h, Or.inl rfl⟩

theorem Turns.head (h : Calm e e') (ht : Turns e' e'') : Turns e e'' := by
  rcases ht with ⟨e₁, hcalm, hend⟩
  exact ⟨e₁, .head h hcalm, hend⟩

-- Where no table has come or gone, no documents have.
theorem Steady.onStore_eq (h : e.Steady bodies) (hc : s.catalog = e.store.catalog) :
    e.onStore s = ⟨s, e.sessions, e.readers, e.kept⟩ := by
  have hkept : (fun ref => if (s.catalog.table? ref).isSome then e.kept ref else []) = e.kept := by
    funext ref
    rw [hc]
    cases htable : e.store.catalog.table? ref with
    | none => exact (h.settled.gone ref htable).symm
    | some t => rfl
  rw [onStore, hkept]

theorem Steady.onChange_turns (h : e.Steady bodies) {answer : Store × Except StoreError Unit}
    (hcases : answer.1 = e.store ∨ ∃ ops removed, Alters e.store ops removed answer)
    (hc : Changed e.store answer.1) : Turns e (e.onChange answer).1 := by
  rw [onChange_fst]
  rcases hcases with hsame | ⟨ops, removed, halters⟩
  · rw [hsame, h.onStore_eq rfl]
    exact .refl e
  · rcases hcommit : e.store.commit ops with ⟨s, error | _⟩
    · have hcatalog : s.catalog = e.store.catalog := commit_failed_catalog halters.fits hcommit
      rw [halters.failed s error hcommit, h.onStore_eq hcatalog]
      exact .calm (.failed halters.fits hcommit)
    · exact ⟨e, .refl, Or.inr (.altered halters hc hcommit)⟩

theorem insert_turns (found : e.sessions.find? handle = some live) (document : Json) :
    Turns e (e.onInsert handle live (some document)
      (live.session.insert e.store document)).1 := by
  rcases Session.insert_cases live.session e.store document with
    ⟨error, hinsert⟩ | ⟨accepted, s, session, answer, haccept, hinsert, hanswer, hcases⟩
  · rw [hinsert]
    exact .calm (.added found .nothing)
  · rw [hinsert]
    have hmore : (e.onInsert handle live (some document) (s, session, answer)).1 =
        ⟨s, e.sessions.insert handle
          ⟨session, live.base, live.taken ++ [⟨session.schema, document⟩]⟩, e.readers, e.kept⟩ := by
      simp only [onInsert, hanswer, Bool.false_eq_true, if_false, Option.toList_some, List.map_cons,
        List.map_nil]
    rw [hmore]
    rcases hcases with hsame | hflush
    · rw [Prod.mk.injEq, Prod.mk.injEq] at hsame
      rcases hsame with ⟨rfl, rfl, -⟩
      exact .calm (.added found (.document haccept))
    · have hflushed := Calm.flushed found (.document haccept)
      have hschema := accepted.flush_schema e.store
      rw [hflush] at hflushed hschema
      simp only at hschema
      rw [hschema]
      exact .calm hflushed

-- A session that ends without its documents adds none.
theorem onEnd_dropped (e : Engine) (handle : Nat) (live : Live) (closing : Bool)
    (outcome : Store × Except StoreError Unit) (h : (closing && outcome.2.isOk) = false) :
    (e.onEnd handle live closing outcome).1 =
      ⟨outcome.1, e.sessions.erase handle, e.readers, e.kept⟩ := by
  rw [onEnd]
  simp only [h, Bool.false_eq_true, if_false, List.append_nil, Function.update_eq_self]

-- Without operations there is nothing to commit.
theorem nothing_of_operations {session : Session} {t : Table} {documents : List Taken}
    (h : session.Working s bodies t documents) (hempty : session.buffer.isEmpty = true)
    (hops : session.operations.isEmpty = true) : documents = [] ∧
      session.discard s = session.release s := by
  have hstaged : session.staged = [] := by
    have hnil := List.isEmpty_iff.mp hops
    rw [Session.operations, List.append_eq_nil_iff, List.map_eq_nil_iff] at hnil
    exact hnil.2
  rcases h.holds.held with ⟨written, waiting, streams, rfl, ⟨batches, rfl, hfiles⟩, hwaiting, hbuffer⟩
  have hnone := Session.documents_of_isEmpty hbuffer hempty
  rw [hnone, List.forall₂_nil_right_iff] at hwaiting
  rw [hstaged, List.forall₂_nil_left_iff] at hfiles
  refine ⟨by rw [hwaiting, hfiles]; rfl, ?_⟩
  rw [Session.discard, Session.stagedPaths, hstaged]
  rfl

-- With all documents in chunks a session is committed, or its chunks are removed.
theorem commit_turns (hg : e.Guarded) (h : e.Steady bodies)
    (found : e.sessions.find? handle = some live)
    (hempty : live.session.buffer.isEmpty = true) :
    Turns e (e.onEnd handle live true (match live.session.commit e.store with
      | (s, .error error) => (live.session.discard s, .error error)
      | (s, .ok _) => (live.session.release s, .ok ()))).1 := by
  have hbased := hg.based _ _ found
  have hworking := h.working _ _ found
  by_cases hops : live.session.operations.isEmpty = true
  · rcases nothing_of_operations hworking hempty hops with ⟨hnothing, hdiscard⟩
    have hcommit : live.session.commit e.store = (e.store, .ok ()) := by
      rw [Session.commit, if_pos hops]
    have hend := Calm.ended found (Or.inl rfl)
    rw [hdiscard] at hend
    simp only [hcommit, onEnd, hnothing, ite_self, List.append_nil, Function.update_eq_self]
    exact .calm hend
  · rcases hcommit : live.session.commit e.store with ⟨s, error | _⟩
    · rcases Session.applyAll_operations hg.catalog hbased.table hbased.unchanged hbased.begun with
        ⟨r, hall, -⟩
      have hstore : e.store.commit live.session.operations = (s, .error error) := by
        rw [Session.commit, if_neg hops, hbased.table] at hcommit
        exact hcommit
      rw [onEnd_dropped _ _ _ _ _ (Bool.and_false _)]
      exact .head (.failed ⟨r, hall⟩ hstore) (.calm (.ended found (Or.inl rfl)))
    · exact ⟨e, .refl, Or.inr (.committed found hempty hops hcommit)⟩

theorem close_turns (hg : e.Guarded) (h : e.Steady bodies)
    (found : e.sessions.find? handle = some live) :
    Turns e (e.onEnd handle live true (live.session.close e.store)).1 := by
  have hcalm := Calm.flushed found .nothing
  have hworking := h.working _ _ found
  have htable := (hg.based _ _ found).table
  rw [hworking.holds.ref] at htable
  rcases hworking.flush h.settled htable with ⟨-, -, -, -, hempty⟩
  have href := (live.session.flush_moves e.store).2.2
  have hfound := IdMap.find?_insert e.sessions handle
    ⟨(live.session.flush e.store).2.1, live.base, live.taken ++ []⟩ handle
  rw [if_pos rfl] at hfound
  rcases h.calm hg hcalm with ⟨bodies', -, hsteady⟩
  have hguarded := hg.calm hcalm
  rw [Session.close]
  rcases hflush : live.session.flush e.store with ⟨s, session, result⟩
  rw [hflush] at hcalm hguarded hsteady hempty hfound href
  cases result with
  | error error =>
      rw [onEnd_dropped _ _ _ _ _ (Bool.and_false _)]
      refine .head hcalm (.calm ?_)
      rw [← IdMap.erase_insert e.sessions handle ⟨session, live.base, live.taken ++ []⟩]
      exact .ended hfound (Or.inl rfl)
  | ok _ =>
      have hrest := commit_turns hguarded hsteady hfound (hempty rfl)
      simp only [List.append_nil] at hrest hcalm
      refine .head hcalm ?_
      simp only [onEnd, IdMap.erase_insert] at hrest ⊢
      simp only at href
      rw [href] at hrest
      exact hrest

/-- An action is a few turns. -/
theorem step_turns (hg : e.Guarded) (h : e.Steady bodies) (a : Action) :
    Turns e (e.step a).1 := by
  have hn := h.settled.catalog
  cases a with
  | createDatabase name =>
      refine h.onChange_turns ?_ (Store.createDatabase_changed hn.sound name)
      exact (Store.createDatabase_cases hn name).imp_right fun halters => ⟨_, _, halters⟩
  | dropDatabase name =>
      refine h.onChange_turns ?_ (Store.dropDatabase_changed hn.sound name)
      exact (Store.dropDatabase_cases hn name).imp_right fun ⟨_, _, halters⟩ => ⟨_, _, halters⟩
  | createTable database table =>
      refine h.onChange_turns ?_ (Store.createTable_changed hn.sound database table)
      exact (Store.createTable_cases hn database table).imp_right fun ⟨_, _, halters⟩ =>
        ⟨_, _, halters⟩
  | dropTable database table =>
      refine h.onChange_turns ?_ (Store.dropTable_changed hn.sound database table)
      exact (Store.dropTable_cases hn database table).imp_right fun ⟨_, _, halters⟩ =>
        ⟨_, _, halters⟩
  | openSession handle database table =>
      rw [step]
      cases hlive : e.sessions.find? handle with
      | some live => exact .refl e
      | none =>
          rcases openSession_cases hn.sound handle database table with hsame | ⟨t, hin, hnew, hopened⟩
          · simp only [hsame]
            exact .refl e
          · simp only [hopened]
            exact .calm (.opened hlive hin hnew)
  | insert handle document =>
      rw [step]
      cases hlive : e.sessions.find? handle with
      | none => exact .refl e
      | some live => exact insert_turns hlive document
  | insertText handle bytes =>
      rw [step]
      cases hlive : e.sessions.find? handle with
      | none => exact .refl e
      | some live =>
          simp only [Session.insertText]
          cases Json.read? (Utf8.readWith '\x00' bytes) with
          | error fault => exact .calm (.added hlive .nothing)
          | ok document => exact insert_turns hlive document
  | close handle =>
      rw [step]
      cases hlive : e.sessions.find? handle with
      | none => exact .refl e
      | some live => exact close_turns hg h hlive
  | abort handle =>
      rw [step]
      cases hlive : e.sessions.find? handle with
      | none => exact .refl e
      | some live =>
          simp only [onEnd_dropped e handle live false _ (Bool.false_and _)]
          exact .calm (.ended hlive (Or.inr rfl))
  | discard handle =>
      rw [step]
      cases hlive : e.sessions.find? handle with
      | none => exact .refl e
      | some live =>
          simp only [onEnd_dropped e handle live false _ (Bool.false_and _)]
          exact .calm (.ended hlive (Or.inl rfl))
  | openReader handle database table paths =>
      rw [step]
      cases hreader : e.store.reader database table paths with
      | error error => exact .refl e
      | ok reader => exact .calm (.asked hreader)
  | next handle =>
      rw [step]
      cases hreader : e.readers.find? handle with
      | none => exact .refl e
      | some reader => exact .calm (.given hreader)
  | forget keys => exact .calm (.forgotten keys)

theorem Turns.preserves {P : Engine → Prop} (ht : Turns e e') (h : P e)
    (hcalm : ∀ e e', P e → Calm e e' → P e') (hchange : ∀ e e', P e → Change e e' → P e') :
    P e' := by
  rcases ht with ⟨e₁, hturns, hend⟩
  have hmiddle : P e₁ := by
    clear hend
    induction hturns with
    | refl => exact h
    | tail _ hturn ih => exact hcalm _ _ ih hturn
  rcases hend with rfl | hlast
  · exact hmiddle
  · exact hchange _ _ hmiddle hlast

/-- What every turn preserves is preserved by actions. -/
theorem Steady.run_preserves {P : Engine → Prop} (hg : e.Guarded) (h : e.Steady bodies) (hp : P e)
    (hcalm : ∀ e e' bodies, e.Guarded → e.Steady bodies → P e → Calm e e' → P e')
    (hchange : ∀ e e' bodies, e.Guarded → e.Steady bodies → P e → Change e e' → P e')
    (actions : List Action) : P (e.run actions) := by
  induction actions generalizing e bodies with
  | nil => exact hp
  | cons a rest ih =>
      have hfirst : (e.step a).1.Guarded ∧ (∃ bodies', (e.step a).1.Steady bodies') ∧
          P (e.step a).1 := by
        refine (step_turns hg h a).preserves (P := fun e' =>
          e'.Guarded ∧ (∃ bodies', e'.Steady bodies') ∧ P e') ⟨hg, ⟨bodies, h⟩, hp⟩ ?_ ?_
        · rintro e₁ e₂ ⟨hg₁, ⟨bodies₁, h₁⟩, hp₁⟩ hturn
          rcases h₁.calm hg₁ hturn with ⟨bodies₂, -, h₂⟩
          exact ⟨hg₁.calm hturn, ⟨bodies₂, h₂⟩, hcalm e₁ e₂ bodies₁ hg₁ h₁ hp₁ hturn⟩
        · rintro e₁ e₂ ⟨hg₁, ⟨bodies₁, h₁⟩, hp₁⟩ hturn
          exact ⟨hg₁.change hturn, ⟨bodies₁, h₁.change hg₁ hturn⟩,
            hchange e₁ e₂ bodies₁ hg₁ h₁ hp₁ hturn⟩
      rcases hfirst with ⟨hguarded, ⟨bodies', hsteady⟩, hafter⟩
      exact ih hguarded hsteady hafter

theorem Steady.run (hg : e.Guarded) (h : e.Steady bodies) (actions : List Action) :
    ∃ bodies', Store.Extends bodies bodies' ∧ (e.run actions).Steady bodies' := by
  refine h.run_preserves (P := fun e' => ∃ bodies', Store.Extends bodies bodies' ∧
    e'.Steady bodies') hg ⟨bodies, .refl bodies, h⟩ ?_ ?_ actions
  · rintro e₁ e₂ - hg₁ - ⟨bodies₁, hextends, h₁⟩ hturn
    rcases h₁.calm hg₁ hturn with ⟨bodies₂, hsame, h₂⟩
    exact ⟨bodies₂, hextends.trans (h₁.settled.extends hsame), h₂⟩
  · rintro e₁ e₂ - hg₁ - ⟨bodies₁, hextends, h₁⟩ hturn
    exact ⟨bodies₁, hextends, h₁.change hg₁ hturn⟩

theorem Steady.step (hg : e.Guarded) (h : e.Steady bodies) (a : Action) :
    ∃ bodies', Store.Extends bodies bodies' ∧ (e.step a).1.Steady bodies' :=
  h.run hg [a]

end Engine

end NestedColumns
