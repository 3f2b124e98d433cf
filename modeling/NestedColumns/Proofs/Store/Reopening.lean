import NestedColumns.Proofs.Store.Faultless
import NestedColumns.Proofs.Store.Limits
import NestedColumns.Proofs.Store.Orphans

/-!
# Opening a store again

A store was made, used by any calls on a disk that may fail, and opened again any number of
times, but no change of its catalog failed. Its log then holds the transactions of all these
changes and nothing else. The store can be opened again, with the same databases, tables, schemas
and chunks, if all their operations are read back: none of them may nest deeper than the reader
of the log allows, which a store with a limit of forty-one levels or less rules out, and none may
have a number that is too large. If one of them does, the store cannot be opened any more.

What is removed at an opening is in directories with numbers. A way to a store that only leads
down therefore stays as it is, while one with double dots may pass through a directory that
somebody has removed.

## Main definitions

* `StoreOptions.Direct`: A route to a store that only leads down.
* `Usage.Unfailed`: An engine whose catalog was changed without a failure.

## Theorems

* `Store.Logged.call`: The log holds the transaction of a call.
* `Store.Logged.openAt`, `Store.Logged.opens_iff`: When it is read back, and the store opened.
* `Store.Logged.again`: What an opening keeps.
* `Usage.Unfailed.logged`: The log of an engine without failures.
* `Usage.opens_again_iff`: When its store is opened again.
* `History.replayed`: The catalog is the replay of the log.
-/

namespace NestedColumns

open Json (nesting)

/-- A route to a store that only leads down, as one without double dots does. -/
def StoreOptions.Direct (o : StoreOptions) : Prop :=
  ∀ before, before <+: o.route.steps → before.foldl Path.step o.route.start <+: o.directory

namespace Store

variable {options : StoreOptions} {d d' d₁ : Disk} {s s' : Store} {txs : List (List Operation)}
  {u : Usage} {c : Call}

/-! ### The log of a store in use -/

theorem New.logged (h : New options d s) (ht : d.Tree) : s.Logged [] where
  above := by
    rw [h.asked]
    exact h.directory
  logFile := by
    rw [h.asked]
    exact h.logFile
  number := h.number
  contents := h.contents
  position := by rw [h.position, h.contents, List.length_nil]
  tree := h.changes.tree ht
  catalog := ⟨.empty, rfl, by rw [Store.catalog, h.registry]⟩

theorem Logged.call (h : u.store.Logged txs) (hn : u.store.catalog.Numbered)
    (hok : c.isChange = true → (u.call c).2 = .ok ()) :
    (u.call c).1.store.Logged (txs ++ u.completed c) := by
  rcases Usage.call_cases hn c with hquiet | ⟨hchange, between, answer, hcommits, hanswer⟩
  · rw [Usage.completed, hquiet.log, if_pos rfl, List.append_nil]
    exact h.quiet hquiet
  · have hresult := hok hchange
    rw [hanswer, Outcome.mapError_eq_ok] at hresult
    have hcommit : between.commit (u.operations c) = ((between.commit (u.operations c)).1, .ok ()) :=
      Prod.ext rfl (hcommits.same.mp hresult)
    have hlogged := ((h.quiet hcommits.before).commit hcommit).quiet hcommits.after
    rcases commit_eq_ok hcommit with ⟨after, r, -, -, heq⟩
    have hgrown : (u.call c).1.store.log.committed ≠ u.store.log.committed := by
      have hpos := Usage.transaction_length_pos (u.operations c)
      rw [hcommits.after.log, heq, hcommits.before.log]
      exact Nat.ne_of_gt (Nat.lt_add_of_pos_right hpos)
    rw [Usage.completed, if_neg hgrown]
    exact hlogged

/-! ### Opening it again -/

theorem Logged.setFaults (h : s.Logged txs) (faults : Nat → Option Nat) :
    (s.setFaults faults).Logged txs :=
  h.alter rfl rfl rfl rfl (.refl (fun _ => True) (fun _ _ => True) (fun _ => True) _)
    (fun _ _ => trivial) rfl

theorem Logged.faultless (h : s.Logged txs) : s.faultless.Logged txs :=
  h.setFaults fun _ => none

-- All of the log is read back, or nothing.
theorem Logged.readBack (h : s.Logged txs) :
    (∀ op ∈ txs.flatten, op.Readable) ∧ LogFile.openAt s.disk s.options.logPath = (s.disk, .ok
        (⟨s.options.logPath, s.log.file, (s.disk.contentsOf s.log.file).length,
          (s.disk.contentsOf s.log.file).length⟩, txs.flatten)) ∨
      (¬ ∀ op ∈ txs.flatten, op.Readable) ∧
        LogFile.openAt s.disk s.options.logPath = (s.disk, .error (.log .badEntry)) := by
  rw [LogFile.openAt, LogFile.openFile, h.logFile]
  simp only [LogFile.replay, h.contents]
  rcases Replay.ofBytes_transactions txs with ⟨hall, hreplay⟩ | ⟨hnot, hreplay⟩
  · refine Or.inl ⟨hall, ?_⟩
    rw [hreplay]
    simp only [if_neg (Nat.lt_irrefl _)]
  · refine Or.inr ⟨hnot, ?_⟩
    rw [hreplay]

theorem Logged.openAt (h : s.Logged txs) (ho : s.options = options)
    (hmake : s.disk.makeAlong options.route = (d₁, .ok ())) :
    (∀ op ∈ txs.flatten, op.Readable) ∧ LogFile.openAt d₁ options.logPath = (d₁, .ok
        (⟨options.logPath, s.log.file, (d₁.contentsOf s.log.file).length,
          (d₁.contentsOf s.log.file).length⟩, txs.flatten)) ∨
      (¬ ∀ op ∈ txs.flatten, op.Readable) ∧
        LogFile.openAt d₁ options.logPath = (d₁, .error (.log .badEntry)) := by
  have hchanges := (Disk.makeAlong_spec hmake).1
  have hmade : (s.setDisk d₁).Logged txs := h.alter rfl rfl rfl rfl hchanges.left
    (fun _ _ => trivial) (hchanges.contents _ h.number fun hw => hw)
  subst ho
  exact hmade.readBack

/-- A store whose log holds some transactions is opened again, on a disk that does not fail, if
    all operations are read back. -/
theorem Logged.opens_iff (h : s.Logged txs) (ho : s.options = options)
    (hvalid : options.validate = .ok ()) (hr : s.disk.Reliable) :
    (∃ d' s', openWith options s.disk = (d', .ok s')) ↔
      (∀ op ∈ txs.flatten, op.Readable) ∧ (s.disk.makeAlong options.route).2 = .ok () := by
  constructor
  · rintro ⟨d', s', hopen⟩
    rcases openWith_eq_ok hopen with ⟨-, d₁, d₂, log, ops, registry, hmake, hlog, -⟩
    rcases h.openAt ho hmake with ⟨hall, -⟩ | ⟨-, herror⟩
    · exact ⟨hall, by rw [hmake]⟩
    · rw [herror] at hlog
      cases hlog
  · rintro ⟨hall, hroute⟩
    rcases hmake : s.disk.makeAlong options.route with ⟨d₁, answer⟩
    rw [hmake] at hroute
    cases hroute
    have hchanges := (Disk.makeAlong_spec hmake).1
    rcases h.openAt ho hmake with ⟨-, hlog⟩ | ⟨hnot, -⟩
    · obtain ⟨log, hlog⟩ : ∃ log, LogFile.openAt d₁ options.logPath =
        (d₁, .ok (log, txs.flatten)) := ⟨_, hlog⟩
      rcases h.catalog with ⟨registry, hreplay, -⟩
      rcases removeTrees_orphans (hchanges.reliable hr) (hchanges.tree h.tree) registry.catalog
        options.directory with ⟨after, hremove⟩
      refine ⟨after, ⟨options, .ofDisk after options.backend options.cacheSize, log, registry, []⟩,
        ?_⟩
      rw [openWith, hvalid]
      simp only [hmake, openDirectory, hlog, hreplay, hremove]
    · exact absurd hall hnot

/-- A store that was opened again is the same but for its pages and sessions. -/
theorem Logged.again (h : s.Logged txs) (ho : s.options = options)
    (hopen : openWith options s.disk = (d', .ok s')) :
    Opened options s.disk s' txs.flatten ∧ s'.Logged txs ∧ s'.catalog = s.catalog := by
  rcases openWith_eq_ok hopen with
    ⟨-, d₁, d₂, log, ops, registry, hmake, hlog, hreplay, hremove, hs⟩
  rcases Disk.makeAlong_spec hmake with ⟨hfirst, habove⟩
  rcases h.openAt ho hmake with ⟨-, hsame⟩ | ⟨-, herror⟩
  · have hopened : Opened options s.disk s' txs.flatten := ⟨d₁, d₁, d', _, hmake, hsame, hopen⟩
    rw [hsame, Prod.mk.injEq, Except.ok.injEq, Prod.mk.injEq] at hlog
    rcases hlog with ⟨rfl, rfl, rfl⟩
    have hsecond := removeOrphans_changes options registry.catalog d₁
    rw [hremove] at hsecond
    have hnumber : s.log.file < d₁.nextFile := Nat.lt_of_lt_of_le h.number hfirst.nextFile
    have hcontents : d'.contentsOf s.log.file = d₁.contentsOf s.log.file :=
      hsecond.contents _ hnumber fun hw => hw
    refine ⟨hopened, ?_, ?_⟩
    · rw [hs]
      exact {
        above := (habove _ (List.prefix_refl _)).changes hsecond fun _ => Or.inl
        logFile := hsecond.kept _ _ (Or.inr rfl) (hfirst.kept _ _ trivial (ho ▸ h.logFile))
        number := Nat.lt_of_lt_of_le hnumber hsecond.nextFile
        contents := hcontents.trans ((hfirst.contents _ h.number fun hw => hw).trans h.contents)
        position := congrArg List.length hcontents.symm
        tree := hsecond.tree (hfirst.tree h.tree)
        catalog := ⟨registry, hreplay, rfl⟩ }
    · rcases h.catalog with ⟨r, hreplay', hcatalog⟩
      rw [hreplay, Except.ok.injEq] at hreplay'
      rw [hs, ← hcatalog, ← hreplay']
      rfl
  · rw [herror] at hlog
    cases hlog

-- What is above a store is not removed as long as the store is there.
theorem Logged.makeAlong_direct (h : s.Logged txs) (ho : s.options = options)
    (hdirect : options.Direct) (hmade : d.makeAlong options.route = (d₁, .ok ())) :
    s.disk.makeAlong options.route = (s.disk, .ok ()) :=
  Disk.makeAlong_again hmade fun before hbefore _ => h.above _ (ho ▸ hdirect before hbefore)

end Store

/-! ### After calls -/

namespace Usage

variable {options : StoreOptions} {d d' : Disk} {s : Store} {calls : List Call} {u : Usage}
  {txs : List (List Operation)}

/-- An engine after calls and openings, with the transactions that were completed. It was made
    where no log was, and none of the changes of its catalog failed. A store is opened again on
    the disk that it left, where other attempts may fail then. -/
inductive Unfailed (options : StoreOptions) : Usage → List (List Operation) → Prop
  | made {d d' : Disk} {s : Store} (hopen : Store.openWith options d = (d', .ok s))
      (hnew : d.node? options.logPath = none) (htree : d.Tree) : Unfailed options (.ofStore s) []
  | call {u : Usage} {txs : List (List Operation)} (h : Unfailed options u txs) (c : Call)
      (hok : c.isChange = true → (u.call c).2 = .ok ()) :
      Unfailed options (u.call c).1 (txs ++ u.completed c)
  | reopen {u : Usage} {txs : List (List Operation)} {faults : Nat → Option Nat} {d' : Disk}
      {s : Store} (h : Unfailed options u txs)
      (hopen : Store.openWith options (u.store.disk.setFaults faults) = (d', .ok s)) :
      Unfailed options (.ofStore s) txs

theorem Unfailed.run (h : Unfailed options u txs) (hok : u.changesSucceed calls = true) :
    Unfailed options (u.run calls) (txs ++ u.ledger calls) := by
  induction calls generalizing u txs with
  | nil =>
      rw [Usage.ledger, List.append_nil]
      exact h
  | cons c rest ih =>
      rw [Usage.changesSucceed, Bool.and_eq_true, Bool.or_eq_true] at hok
      rw [Usage.ledger, ← List.append_assoc]
      refine ih (h.call c fun hchange => ?_) hok.2
      rcases hok.1 with hnot | hdone
      · rw [hchange] at hnot
        cases hnot
      · cases hanswer : (u.call c).2 with
        | error e =>
            rw [hanswer] at hdone
            cases hdone
        | ok _ => rfl

theorem Unfailed.made_once (h : Unfailed options u txs) : options.validate = .ok () ∧
    ∃ d d₁ : Disk, d.makeAlong options.route = (d₁, .ok ()) := by
  induction h with
  | made hopen hnew =>
      have hs := Store.openWith_new hopen hnew
      rcases hs.unsaid with ⟨d₁, d₂, log, hmake, -⟩
      exact ⟨hs.valid, _, _, hmake⟩
  | call _ _ _ ih => exact ih
  | reopen _ _ ih => exact ih

-- The induction is on the history, whose log is needed where the store is opened again.
theorem Unfailed.logged (h : Unfailed options u txs) :
    History options u txs ∧ u.store.Logged txs := by
  induction h with
  | made hopen hnew htree =>
      exact ⟨.made (Store.opened_new hopen hnew), (Store.openWith_new hopen hnew).logged htree⟩
  | call _ c hok ih => exact ⟨ih.1.call c, ih.2.call ih.1.kept.numbered hok⟩
  | @reopen u txs faults d' s _ hopen ih =>
      rcases (ih.2.setFaults faults).again ih.1.options_eq hopen with ⟨hopened, hlogged, -⟩
      exact ⟨ih.1.reopen hopened, hlogged⟩

/-- A store whose catalog was changed without a failure is opened again if all operations are
    read back and its directory can still be reached. -/
theorem Unfailed.opens_iff (h : Unfailed options u txs) :
    (∃ d' s', Store.openWith options u.store.disk.faultless = (d', .ok s')) ↔
      (∀ op ∈ txs.flatten, op.Readable) ∧
        (u.store.disk.faultless.makeAlong options.route).2 = .ok () :=
  h.logged.2.faultless.opens_iff h.logged.1.options_eq h.made_once.1 (Disk.faultless_reliable _)

theorem Unfailed.reached (h : Unfailed options u txs) (hdirect : options.Direct) :
    (u.store.disk.faultless.makeAlong options.route).2 = .ok () := by
  rcases h.made_once with ⟨-, d, d₁, hmade⟩
  exact congrArg Prod.snd
    (h.logged.2.faultless.makeAlong_direct h.logged.1.options_eq hdirect hmade)

theorem Unfailed.catalog_again (h : Unfailed options u txs) {faults : Nat → Option Nat}
    (hopen : Store.openWith options (u.store.disk.setFaults faults) = (d', .ok s)) :
    s.catalog = u.store.catalog :=
  ((h.logged.2.setFaults faults).again h.logged.1.options_eq hopen).2.2

/-- A store was made where no log was, and no change of its catalog failed since then. Its log
    holds the transactions that were completed, and is read back if all operations can be. In
    this case, and if its directory can still be reached, the store is opened again on a disk
    that does not fail. Whenever it is, it has the same catalog. A limit of forty-one levels or
    less leaves only the numbers that can be too large. -/
theorem opens_again_iff (h : Unfailed options u txs) :
    u.store.disk.contentsOf u.store.log.file = Utf8.encode (LogEntry.transactions txs) ∧
    ((∃ r, Replay.ofBytes (u.store.disk.contentsOf u.store.log.file) = .ok r ∧
      r.operations = txs.flatten) ↔ ∀ op ∈ txs.flatten, op.Readable) ∧
    ((∃ d' s', Store.openWith options u.store.disk.faultless = (d', .ok s')) ↔
      (∀ op ∈ txs.flatten, op.Readable) ∧
        (u.store.disk.faultless.makeAlong options.route).2 = .ok ()) ∧
    (∀ faults d' s', Store.openWith options (u.store.disk.setFaults faults) = (d', .ok s') →
      s'.catalog = u.store.catalog) ∧
    (options.Direct → (u.store.disk.faultless.makeAlong options.route).2 = .ok ()) ∧
    (options.maxLevel ≤ 41 → ∀ op ∈ txs.flatten, nesting op.toJson ≤ Json.maxNesting) := by
  rcases h.logged with ⟨hhistory, hlogged⟩
  refine ⟨hlogged.contents, ?_, h.opens_iff, fun _ _ _ => h.catalog_again, h.reached,
    fun hlevels op hop => ?_⟩
  · rw [hlogged.contents]
    rcases Replay.ofBytes_transactions txs with ⟨hall, hreplay⟩ | ⟨hnot, hreplay⟩
    · exact ⟨fun _ => hall, fun _ => ⟨_, hreplay, rfl⟩⟩
    · refine ⟨fun ⟨r, hr, _⟩ => ?_, fun hall => absurd hall hnot⟩
      rw [hreplay] at hr
      cases hr
  · have hnesting : nesting op.toJson ≤ 3 * options.maxLevel + 4 := by
      refine Operation.nesting_le fun ref schema heq => ?_
      rw [heq] at hop
      exact hhistory.limited.2 ref schema hop
    have hroom : Json.maxNesting = 127 := rfl
    omega

theorem direct_sample : Store.sampleOptions.Direct := by
  intro before hbefore
  rcases List.prefix_cons_iff.mp hbefore with rfl | ⟨rest, rfl, hrest⟩
  · exact List.nil_prefix
  · rw [List.prefix_nil.mp hrest]
    exact List.prefix_refl _

theorem unfailed_sample : Unfailed Store.sampleOptions (.ofStore .sample) [] :=
  .made Store.made_sample.opened Store.made_sample.unlogged Disk.tree_empty

/-- A document of some levels of objects. -/
def deepDocument : Nat → Json
  | 0 => .number (.whole 1)
  | levels + 1 => .object [("a", deepDocument levels)]

/-- A session on a new table, with a document of some levels. -/
def deepInserts (levels : Nat) : List Call :=
  [.createDatabase "d", .createTable "d" "t", .openSession "d" "t",
    .insertText ⟨0, 0⟩ (Utf8.encode (deepDocument levels).print)]

/-- The same session, closed. -/
def deepCalls (levels : Nat) : List Call :=
  deepInserts levels ++ [Call.close ⟨0, 0⟩]

-- Three levels are read back.
theorem opens_again_three_levels : ∃ d' s', Store.openWith Store.sampleOptions
    ((ofStore .sample).run (deepCalls 3)).store.disk.faultless = (d', .ok s') ∧
      s'.catalog = ((ofStore .sample).run (deepCalls 3)).store.catalog := by
  have hok : (ofStore .sample).changesSucceed (deepCalls 3) = true := by decide +kernel
  have hops : ∀ op ∈ ([] ++ (ofStore .sample).ledger (deepCalls 3)).flatten, op.Readable := by
    decide +kernel
  rcases opens_again_iff (unfailed_sample.run hok) with ⟨-, -, hopens, hcatalog, hroute, -⟩
  rcases hopens.mpr ⟨hops, hroute direct_sample⟩ with ⟨d', s', hagain⟩
  exact ⟨d', s', hagain, hcatalog _ d' s' hagain⟩

/-- Options with a limit that leaves room for forty-two levels. -/
def deepOptions : StoreOptions :=
  ⟨"db", 4, 1, 1, .none, .positioned, .widen, 42, false⟩

/-- A store with these options, on an empty disk. -/
def deepStore : Store :=
  match Store.openWith deepOptions .empty with
  | (_, .ok s) => s
  | (_, .error _) => default

-- Forty-two levels are committed, and the store cannot be opened any more.
theorem not_opens_again_deep :
    Store.openWith deepOptions .empty = (deepStore.disk, .ok deepStore) ∧
      (ofStore deepStore).changesSucceed (deepCalls 42) = true ∧
      ¬ ∃ d' s', Store.openWith deepOptions
        ((ofStore deepStore).run (deepCalls 42)).store.disk.faultless = (d', .ok s') := by
  have hopened : Store.openWith deepOptions .empty = (deepStore.disk, .ok deepStore) := rfl
  have hok : (ofStore deepStore).changesSucceed (deepCalls 42) = true := by decide +kernel
  have hmade : Unfailed deepOptions (ofStore deepStore) [] :=
    .made hopened (by decide) Disk.tree_empty
  refine ⟨hopened, hok, fun hagain => ?_⟩
  have hall := ((hmade.run hok).opens_iff.mp hagain).1
  rw [List.nil_append, deepCalls, ledger_concat] at hall
  have hnumbered := (hmade.logged.1.run (deepInserts 42)).kept.numbered
  -- Its close commits a schema, so it has completed the transaction.
  rcases completed_cases hnumbered (.close ⟨0, 0⟩) with ⟨-, hsame⟩ | ⟨r, r', happlied⟩
  · have hbefore : (((ofStore deepStore).run (deepInserts 42)).store.catalog.table? ⟨0, 0⟩).map
        (·.schema.fields.isEmpty) = some true := by decide +kernel
    have hafter : ((((ofStore deepStore).run (deepInserts 42)).call
        (.close ⟨0, 0⟩)).1.store.catalog.table? ⟨0, 0⟩).map (·.schema.fields.isEmpty) =
          some false := by decide +kernel
    rw [hsame, hbefore] at hafter
    cases hafter
  · have hdeep : (((ofStore deepStore).run (deepInserts 42)).operations (.close ⟨0, 0⟩)).all
        (fun op => decide (nesting op.toJson ≤ Json.maxNesting)) = false := by decide +kernel
    rw [happlied.completed] at hall
    refine Bool.noConfusion (hdeep.symm.trans (List.all_eq_true.mpr fun op hop => ?_))
    refine decide_eq_true (hall op ?_).1
    rw [List.flatten_append, List.flatten_singleton]
    exact List.mem_append_right _ hop

end Usage

/-! ### Histories -/

namespace History

variable {options : StoreOptions} {u : Usage} {txs : List (List Operation)}

/-- The operations of all completed transactions are replayed without an error, and give the
    databases and tables, the next numbers, the schemas and the chunks as they are. The number
    of the next chunk is above those of all that were committed, no number was given out twice,
    and a call that fails has neither completed a transaction nor changed the catalog. -/
theorem replayed (h : History options u txs) :
    (∃ r, Registry.replay txs.flatten = .ok r ∧ r.catalog = u.store.catalog ∧
      ∀ ref chunk, .addChunk ref chunk ∈ txs.flatten → chunk.chunk < r.nextChunk) ∧
    (txs.flatten.filterMap Operation.newDatabase?).Nodup ∧
    (txs.flatten.filterMap Operation.newTable?).Nodup ∧
    ∀ c e, (u.call c).2 = .error e →
      u.completed c = [] ∧ (u.call c).1.store.catalog = u.store.catalog := by
  have hkept := h.kept
  refine ⟨hkept.replayed, hkept.given.databasesOnce, hkept.given.tablesOnce, fun c e he => ?_⟩
  rcases Usage.completed_cases hkept.numbered c with hnone | ⟨r, r', happlied⟩
  · exact hnone
  · rw [happlied.answer] at he
    cases he

/-- A session on a new table, which is dropped in the end. -/
def sampleFirst : List Call :=
  Usage.deepCalls 3 ++ [Call.dropTable "d" "t"]

/-- Calls after the store was opened again. The first fails, and the second makes a table of the
    same name. -/
def sampleSecond : List Call :=
  [.createDatabase "d", .createTable "d" "t"]

-- A history in which the store is opened again.
theorem replayed_again : ∃ d' s', Store.openWith Store.sampleOptions
      ((Usage.ofStore .sample).run sampleFirst).store.disk.faultless = (d', .ok s') ∧
    ∃ r, Registry.replay ((Usage.ofStore .sample).ledger sampleFirst ++
        (Usage.ofStore s').ledger sampleSecond).flatten = .ok r ∧
      r.catalog = ((Usage.ofStore s').run sampleSecond).store.catalog := by
  have hok : (Usage.ofStore .sample).changesSucceed sampleFirst = true := by decide +kernel
  have hops : ∀ op ∈ ([] ++ (Usage.ofStore .sample).ledger sampleFirst).flatten, op.Readable := by
    decide +kernel
  have hfirst := Usage.unfailed_sample.run hok
  rcases hfirst.opens_iff.mpr ⟨hops, hfirst.reached Usage.direct_sample⟩ with ⟨d', s', hagain⟩
  have hsecond : History Store.sampleOptions (.ofStore s') _ := (hfirst.reopen hagain).logged.1
  rcases (replayed (hsecond.run sampleSecond)).1 with ⟨r, hreplay, hcatalog, -⟩
  exact ⟨d', s', hagain, r, hreplay, hcatalog⟩

end History

end NestedColumns
