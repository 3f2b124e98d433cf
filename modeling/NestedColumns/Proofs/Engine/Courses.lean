import NestedColumns.Proofs.Engine.Turns
import NestedColumns.Proofs.Store.Stops

/-!
# Stopped at any time

A store is opened, used, and stopped between any two effects, and opened again. What it has then
is what the last transaction has committed that was completely written, as often as this is
repeated and wherever the program is stopped, also while it is still opening the store.

## Main definitions

* `Engine.Recorded`: An engine whose log says what its tables are.
* `Engine.counted`: The engine that counts when an action is stopped.
* `Engine.Course`: What may be left after any number of openings and runs.

## Theorems

* `Engine.Recorded.calm`, `Engine.Recorded.change`: What is left when a turn is stopped.
* `Engine.Recorded.stopped`: What is left when an action is stopped.
* `Engine.Course.durable`: What is left in the end.
* `Engine.crash_consistent`: What is there when the store is opened again.
-/

namespace NestedColumns

open Disk (Stops Whole)
open Json (shown)
open Store (Durable Moves Outside SparesAll)

namespace Engine

variable {o : StoreOptions} {e e' e'' : Engine} {s : Store} {bodies : PageKey → Option (List UInt8)}
  {kept : TableRef → List Taken} {c : Catalog} {d d' : Disk}

/-- An engine whose log says what its tables are, on a disk on which an attempt that fails has
    written nothing. -/
structure Recorded (o : StoreOptions) (e : Engine) : Prop where
  options : e.store.options = o
  guarded : e.Guarded
  steady : ∃ bodies, e.Steady bodies
  logged : ∃ txs, e.store.Logged txs
  whole : e.store.log.committed = e.store.log.position
  faults : Whole e.store.disk.faults

/-- The catalog of an engine is left on a disk, with the documents of its tables. -/
def LeftOn (e : Engine) (d : Disk) : Prop :=
  Durable e.store.options e.store.catalog e.kept d

theorem Recorded.left (h : e.Recorded o) : e.LeftOn e.store.disk := by
  rcases h.steady with ⟨bodies, hsteady⟩
  rcases h.logged with ⟨txs, hlogged⟩
  exact hsteady.settled.durable hlogged

/-- An engine after turns without a transaction, which leave the same wherever they are stopped. -/
structure Onward (o : StoreOptions) (e e' : Engine) : Prop where
  recorded : e'.Recorded o
  catalog : e'.store.catalog = e.store.catalog
  kept : e'.kept = e.kept
  stops : ∃ effects, Stops e.LeftOn e.store.disk e'.store.disk effects ∧
    ∀ x ∈ effects, x.appends = false

theorem Recorded.of_rests (h : e.Recorded o) {txs : List (List Operation)}
    (hr : Store.Rests e.kept txs e.store e'.store) (hkept : e'.kept = e.kept) (hg : e'.Guarded)
    (hsteady : ∃ bodies, e'.Steady bodies) : Onward o e e' where
  recorded := {
    options := hr.options.trans h.options
    guarded := hg
    steady := hsteady
    logged := ⟨txs, hr.logged⟩
    whole := by rw [hr.log, h.whole]
    faults := by
      rcases hr.stops with ⟨effects, hstops, -⟩
      rw [hstops.faults]
      exact h.faults }
  catalog := hr.catalog
  kept := hkept
  stops := hr.stops

/-- A turn without a transaction leaves the same wherever it is stopped. -/
theorem Recorded.calm (h : e.Recorded o) (hc : Calm e e') : Onward o e e' := by
  rcases h.steady with ⟨bodies, hsteady⟩
  rcases h.logged with ⟨txs, hl⟩
  have hs := hsteady.settled
  have hg := h.guarded
  have hafter : ∃ bodies', e'.Steady bodies' := by
    rcases hsteady.calm hg hc with ⟨bodies', -, hsteady'⟩
    exact ⟨bodies', hsteady'⟩
  have hsame : ∀ {s : Store}, s.options = e.store.options → s.log = e.store.log →
      s.catalog = e.store.catalog → s.disk = e.store.disk → Store.Rests e.kept txs e.store s :=
    .of_disk hs hl
  have hkept : e'.kept = e.kept := by cases hc <;> rfl
  have hrests : Store.Rests e.kept txs e.store e'.store := by
    cases hc with
    | failed fits hcommit => exact Store.commit_failed_rests hs hl h.faults h.whole fits hcommit
    | opened free table unwritten => exact hsame rfl rfl rfl rfl
    | added found htakes => exact hsame rfl rfl rfl rfl
    | @flushed handle live session more found htakes =>
        exact (session.flush_moves e.store).1.rests hs hl
          (fun ref t ht => Session.spares_lower (hs.begun ht))
          (Store.Inside.outside (Store.inside_chunk _ _ _))
    | @ended handle live s found hends =>
        rcases hsteady.ended_moves hg found hends with ⟨hmoves, hspares⟩
        exact hmoves.rests hs hl hspares (live.session.stagedPaths_inside e.store.options).outside
    | asked hreader => exact hsame rfl rfl rfl rfl
    | @given handle reader found => exact hsame rfl rfl rfl (reader.next_disk e.store.volume)
    | forgotten keys => exact hsame rfl rfl rfl rfl
  exact h.of_rests hrests hkept (hg.calm hc) hafter

/-- A change is a transaction, and directories that are removed behind it, in which the new catalog
    has nothing. -/
theorem Change.parts (hg : e.Guarded) (h : e.Steady bodies) (hc : Change e e') :
    ∃ ops s removed, e.store.commit ops = (s, .ok ()) ∧ s.Settled bodies e'.kept ∧
      Moves (Outside removed) default s e'.store ∧
      SparesAll (Outside removed) s.options s.catalog ∧ Store.Inside s.options removed := by
  cases hc with
  | @altered ops removed answer s halters changed done =>
      rcases Store.commit_eq_ok done with ⟨d, r, -, happly, hs⟩
      have hfollows := (Store.commit_cases (fun _ => True) e.store ops).1
      have hnumbered := Store.numbered_commit h.settled.catalog ops
      have hanswer := halters.done s done
      rw [done] at hfollows hnumbered
      have hchanged : Store.Changed e.store s := by
        rw [hanswer] at changed
        exact ⟨changed.sound, changed.next, changed.writers, changed.new, changed.kept⟩
      have hsettled := h.settled.altered hfollows (fun _ _ _ _ _ _ _ _ => trivial) hchanged hnumbered
      rw [hanswer]
      refine ⟨ops, s, removed, done, hsettled, Store.discardTrees_moves .., fun ref t ht c _ path hp =>
        ?_, ?_⟩
      · rw [hs] at ht hp
        exact halters.apart r happly ref t ht c.chunk path hp
      · rw [hs]
        exact halters.inside
  | @committed handle live s found written operations done =>
      have hworking := h.working _ _ found
      have htable := (hg.based _ _ found).table
      have hcommit : e.store.commit live.session.operations = (s, .ok ()) := by
        rw [Session.commit, if_neg operations, htable] at done
        exact done
      rw [hworking.holds.ref] at htable ⊢
      exact ⟨_, s, [], hcommit, hworking.commit h.settled htable written done,
        Store.setWriters_moves .., fun _ _ _ _ _ _ _ _ hp => absurd hp List.not_mem_nil,
        fun _ hp => absurd hp List.not_mem_nil⟩

/-- Once its transaction is in the log a change leaves what it makes, wherever it is stopped. -/
theorem Recorded.change (h : e.Recorded o) (hc : Change e e') : e'.Recorded o ∧
    ∃ append effects, append.appends = true ∧
      e'.store.disk.performed = e.store.disk.performed ++ append :: effects ∧
      e'.store.disk.left = e.store.disk.left.redo (append :: effects) ∧
      ∀ n, e'.LeftOn (e.store.disk.left.redo (append :: effects.take n)) := by
  rcases h.steady with ⟨bodies, hsteady⟩
  rcases h.logged with ⟨txs, hl⟩
  rcases hc.parts h.guarded hsteady with
    ⟨ops, s, removed, hcommit, hsettled, hmoves, hspares, hinside⟩
  have hlogged := hl.commit hcommit
  have hrests := hmoves.rests hsettled hlogged hspares hinside.outside
  have hfollows := (Store.commit_cases (fun _ => True) e.store ops).1
  rcases Store.commit_effect hcommit with ⟨append, happends, hperformed, hleft⟩
  rcases hrests.stops with ⟨effects, hstops, -⟩
  rw [hcommit] at hfollows
  refine ⟨⟨hrests.options.trans (hfollows.options.trans h.options), h.guarded.change hc,
    ⟨bodies, hsteady.change h.guarded hc⟩, ⟨_, hrests.logged⟩, ?_, ?_⟩, append, effects, happends, ?_,
    ?_, fun n => ?_⟩
  · rcases Store.commit_eq_ok hcommit with ⟨d, r, -, -, hs⟩
    rw [hrests.log, hs, h.whole]
  · rw [hstops.faults, hfollows.disk.faults]
    exact h.faults
  · rw [hstops.performed, hperformed, List.append_assoc, List.singleton_append]
  · rw [hstops.left, hleft, ← Disk.redo_append, List.singleton_append]
  · have hcut := hstops.cut n
    rw [hleft, ← Disk.redo_append, List.singleton_append] at hcut
    rw [LeftOn, hrests.options, hrests.catalog]
    exact hcut

-- The induction is on the turns.
theorem Recorded.onward (h : e.Recorded o) (hturns : Relation.ReflTransGen Calm e e') :
    Onward o e e' := by
  induction hturns with
  | refl => exact ⟨h, rfl, rfl, [], .refl (h.left.left rfl), fun _ hx => absurd hx List.not_mem_nil⟩
  | @tail e₁ e₂ _ hturn ih =>
      rcases ih.stops with ⟨first, hfirst, hquiet⟩
      have hlast := ih.recorded.calm hturn
      rcases hlast.stops with ⟨more, hmore, hquiet'⟩
      have hsame : e₁.LeftOn = e.LeftOn := by
        funext d
        rw [LeftOn, LeftOn, ih.recorded.options, h.options, ih.catalog, ih.kept]
      rw [hsame] at hmore
      refine ⟨hlast.recorded, hlast.catalog.trans ih.catalog, hlast.kept.trans ih.kept, _,
        hfirst.trans hmore, fun x hx => ?_⟩
      exact (List.mem_append.mp hx).elim (hquiet x) (hquiet' x)

/-- The engine whose catalog counts when an action is stopped after so many effects: the one after
    the action if its transaction is in the log by then, or else the one before. -/
def counted (e e' : Engine) (n : Nat) : Engine :=
  if ((e.store.disk.since e'.store.disk).take n).any Effect.appends then e' else e

/-- Wherever an action is stopped, what counts then is left. -/
theorem Recorded.stopped (h : e.Recorded o) (a : Action) : (e.step a).1.Recorded o ∧
    ∀ n, (e.counted (e.step a).1 n).LeftOn (e.store.disk.stopped (e.step a).1.store.disk n) := by
  rcases h.steady with ⟨bodies, hsteady⟩
  rcases step_turns h.guarded hsteady a with ⟨e₁, hcalm, hend⟩
  have honward := h.onward hcalm
  rcases honward.stops with ⟨first, hfirst, hquiet⟩
  -- As long as there is no transaction, the engine before the action counts.
  have hbefore : ∀ n, (first.take n).any Effect.appends = false := fun n =>
    List.any_eq_false.mpr fun x hx => by
      rw [hquiet x (List.mem_of_mem_take hx)]
      exact Bool.false_ne_true
  rcases hend with hsame | hchange
  · rw [hsame]
    refine ⟨honward.recorded, fun n => ?_⟩
    rw [counted, hfirst.since_eq, hbefore, if_neg Bool.false_ne_true]
    exact hfirst.stopped n
  · rcases honward.recorded.change hchange with
      ⟨hrecorded, append, more, happends, hperformed, hleft, hcut⟩
    refine ⟨hrecorded, fun n => ?_⟩
    have hsince : e.store.disk.since (e.step a).1.store.disk = first ++ append :: more := by
      rw [Disk.since, hperformed, hfirst.performed, List.append_assoc, List.drop_left]
    rw [counted, Disk.stopped, hsince]
    rcases Nat.lt_or_ge first.length n with hlt | hle
    · rcases Nat.exists_eq_add_of_lt hlt with ⟨k, rfl⟩
      have htake : (first ++ append :: more).take (first.length + k + 1) =
          first ++ append :: more.take k := by
        rw [List.take_append, List.take_of_length_le (by omega), Nat.add_assoc,
          Nat.add_sub_cancel_left, List.take_succ_cons]
      rw [htake, List.any_append, List.any_cons, happends, Bool.true_or, Bool.or_true, if_pos rfl,
        Disk.redo_append, ← hfirst.left]
      exact hcut k
    · rw [List.take_append_of_le_length hle, hbefore, if_neg Bool.false_ne_true]
      exact hfirst.cut n

theorem Recorded.run (h : e.Recorded o) (actions : List Action) : (e.run actions).Recorded o := by
  induction actions generalizing e with
  | nil => exact h
  | cons a rest ih => exact ih (h.stopped a).1

/-! ### Courses -/

/-- What may be left on a disk by any number of openings of a store and runs of its engine, each of
    which may be stopped between any two effects, with the catalog of the last transaction and the
    documents of its tables. A disk is planned to fail at some attempts. -/
inductive Course (o : StoreOptions) (plans : (Nat → Option Nat) → Prop) :
    Catalog → (TableRef → List Taken) → Disk → Prop
  /-- Nothing of the store is there. -/
  | blank {d : Disk} (tree : d.Tree) (free : d.node? o.logPath = none) :
      Course o plans .empty (fun _ => []) d
  /-- The store was being opened. -/
  | opening {c : Catalog} {kept : TableRef → List Taken} {d : Disk} {faults : Nat → Option Nat}
      (h : Course o plans c kept d) (planned : plans faults) (n : Nat) :
      Course o plans c kept
        ((d.setFaults faults).stopped (Store.openWith o (d.setFaults faults)).1 n)
  /-- An action was being done. -/
  | running {c : Catalog} {kept : TableRef → List Taken} {d d' : Disk} {faults : Nat → Option Nat}
      {s : Store} (h : Course o plans c kept d) (planned : plans faults)
      (opened : Store.openWith o (d.setFaults faults) = (d', .ok s)) (before : List Action)
      (a : Action) (n : Nat) :
      Course o plans
        (((resume s kept).run before).counted ((resume s kept).run (before ++ [a])) n).store.catalog
        (((resume s kept).run before).counted ((resume s kept).run (before ++ [a])) n).kept
        (((resume s kept).run before).store.disk.stopped
          ((resume s kept).run (before ++ [a])).store.disk n)

-- An engine that was just opened is recorded, whatever was left by the last one.
theorem recorded_resume {faults : Nat → Option Nat} (h : Durable o c kept d) (hw : Whole faults)
    (opened : Store.openWith o (d.setFaults faults) = (d', .ok s)) :
    (resume s kept).Recorded o ∧ s.catalog = c := by
  have hset : Durable o c kept (d.setFaults faults) := h.left rfl
  have hopening := hset.openWith_spec
  rw [opened] at hopening
  rcases hopening.resumed s rfl with ⟨hoptions, hcatalog, ⟨bodies, hsettled⟩, hlogged, hwhole⟩
  rcases hopening.stops with ⟨effects, hstops⟩
  have hdisk := (Store.openWith_below opened).2.2.2.2.2
  refine ⟨⟨hoptions, guarded_resume kept opened, ⟨bodies, hsettled, fun _ _ hlive => by cases hlive⟩,
    hlogged, hwhole, ?_⟩, hcatalog⟩
  have hfaults : s.disk.faults = faults := by rw [hdisk, hstops.faults]; rfl
  rw [resume, hfaults]
  exact hw

theorem Course.durable (h : Course o Whole c kept d) : Durable o c kept d := by
  induction h with
  | blank tree free =>
      exact .unlogged tree (fun number hnode => by rw [free] at hnode; cases hnode) rfl rfl
  | @opening c kept d faults _ planned n ih =>
      have hset : Durable o c kept (d.setFaults faults) := ih.left rfl
      rcases hset.openWith_spec.stops with ⟨effects, hstops⟩
      exact hstops.stopped n
  | @running c kept d d' faults s _ planned opened before a n ih =>
      have hrecorded := (recorded_resume ih planned opened).1.run before
      rcases hrecorded.stopped a with ⟨hafter, hleft⟩
      rw [← run_concat] at hleft hafter
      have hoptions : (((resume s kept).run before).counted
          ((resume s kept).run (before ++ [a])) n).store.options = o := by
        rw [counted]
        split
        · exact hafter.options
        · exact hrecorded.options
      exact hoptions ▸ hleft n

-- What was left is opened on a disk that does not fail, if the log is read back.
theorem Course.opens (h : Course o Whole c kept d) (hvalid : o.validate = .ok ())
    (hroute : (d.faultless.makeAlong o.route).2 = .ok ())
    (hlog : (LogFile.openAt (d.faultless.makeAlong o.route).1 o.logPath).2.isOk = true) :
    ∃ d' s, Store.openWith o d.faultless = (d', .ok s) := by
  have hfaultless : Durable o c kept d.faultless := h.durable.left rfl
  rcases hmake : d.faultless.makeAlong o.route with ⟨d₁, answer⟩
  rw [hmake] at hroute hlog
  have hok : answer = .ok () := hroute
  rcases hfaultless.openWith_spec.succeeds d.faultless_reliable ⟨hvalid, d₁, hok ▸ hmake, hlog⟩ with
    ⟨s, hs⟩
  exact ⟨_, s, Prod.ext rfl hs⟩

/-- However often a store was opened and used, and wherever it was stopped, as long as an attempt
    that fails has written nothing: on a disk that does not fail any more it is opened if its log is
    read back. Whenever it is opened, it has the catalog of the last transaction that was completely
    written. All files of the columns that its chunks list are there, and the records of its tables
    are those of the documents that were committed by then. Numbers of chunks, databases and tables
    have no width here. What is assumed is that none of them comes to `2 ^ 32`. -/
theorem crash_consistent (h : Course o Whole c kept d) :
    (o.validate = .ok () → (d.faultless.makeAlong o.route).2 = .ok () →
      (LogFile.openAt (d.faultless.makeAlong o.route).1 o.logPath).2.isOk = true →
        ∃ d' s, Store.openWith o d.faultless = (d', .ok s)) ∧
    ∀ faults d' s, Store.openWith o (d.setFaults faults) = (d', .ok s) → s.catalog = c ∧
      (∀ ref t, s.catalog.table? ref = some t → ∀ chunk ∈ s.diskChunks t,
        ∀ column ∈ chunk.info.columns, (∃ bytes, s.disk.read (chunk.dataPath column) = .ok bytes) ∧
          ∃ bytes, s.disk.read (chunk.indexPath column) = .ok bytes) ∧
      ∀ database table paths t p, s.tableNamed database table = .ok t →
        Projection.resolve t.schema paths = .ok p → t.Small o (kept t.ref) →
          ∃ s' records, s.records database table paths = (s', .ok records) ∧
            records.map Record.toJson =
              (kept t.ref).map fun x => shown p.schema.root (Json.kept x.schema.root x.document) := by
  refine ⟨h.opens, fun faults d' s opened => ?_⟩
  have hset : Durable o c kept (d.setFaults faults) := h.durable.left rfl
  have hopening := hset.openWith_spec
  rw [opened] at hopening
  rcases hopening.resumed s rfl with ⟨rfl, hcatalog, ⟨bodies, hsettled⟩, -, -⟩
  refine ⟨hcatalog, fun ref t ht chunk hc column hin => hsettled.files ht hc hin,
    fun database table paths t p ht hp hsmall => ?_⟩
  have hin := Store.table?_of_tableNamed hsettled.catalog.sound ht
  have hright : s.volume.Right bodies := fun key body hkey => by
    rw [(Store.openWith_below opened).2.2.2.2.1, Std.HashMap.getElem?_empty] at hkey
    cases hkey
  rcases Store.records_spec (Store.maxLevel_lt hsettled.options) hright
    (hsettled.tables t.ref t hin) hsmall ht hp with ⟨v, records, hrecords, -, -, hjson⟩
  exact ⟨_, records, hrecords, hjson⟩

/-- A document in a new table, and a session on the table. -/
def sampleBefore : List Action :=
  [.createDatabase "d", .createTable "d" "t", .openSession 0 "d" "t",
    .insert 0 (.object [("a", .number (.whole 1))]), .close 0, .openSession 1 "d" "t"]

/-- A document that the session writes to the disk. -/
def sampleInsert : Action :=
  .insert 1 (.object [("a", .number (.whole 2))])

/-- What is left when the chunk has a directory and one of its files. -/
def sampleLeft : Disk :=
  ((resume .sample fun _ => []).run sampleBefore).store.disk.stopped
    ((resume .sample fun _ => []).run (sampleBefore ++ [sampleInsert])).store.disk 2

/-- The table that was committed. -/
def sampleTable : Table :=
  ⟨⟨0, 0⟩, "t", ⟨[("a", .leaf 0 .integer)], 1⟩, [⟨0, 1, [0]⟩]⟩

-- The document that was being written is not there, and its chunk is removed.
theorem crash_consistent_sample : ∃ d' s s' records,
    Store.openWith Store.sampleOptions sampleLeft.faultless = (d', .ok s) ∧
      s.records "d" "t" [] = (s', .ok records) ∧
      records.map Record.toJson = [.object [("a", .number (.whole 1))]] := by
  have hwhole : Whole fun _ => none := fun _ _ hfault => by cases hfault
  have hcourse : Course Store.sampleOptions Whole _ _ sampleLeft :=
    .running (.blank Disk.tree_empty Store.made_sample.unlogged) hwhole Store.made_sample.opened
      sampleBefore sampleInsert 2
  rcases crash_consistent hcourse with ⟨hopens, hrecovered⟩
  rcases hopens rfl (by decide +kernel) (by decide +kernel) with ⟨d', s, hopened⟩
  rcases hrecovered (fun _ => none) d' s hopened with ⟨hcatalog, -, hrecords⟩
  have ht : s.tableNamed "d" "t" = .ok sampleTable := by
    rw [Store.tableNamed, Store.databaseNamed, hcatalog]
    rfl
  have hp : Projection.resolve sampleTable.schema [] = .ok _ := rfl
  rcases hrecords "d" "t" [] sampleTable _ ht hp (by decide +kernel) with
    ⟨s', records, hread, hjson⟩
  exact ⟨d', s, s', records, hopened, hread, hjson.trans rfl⟩

end Engine

end NestedColumns
