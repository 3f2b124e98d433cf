import NestedColumns.Proofs.Numbers
import NestedColumns.Proofs.Store.Locking
import NestedColumns.Proofs.Store.Logged
import NestedColumns.Proofs.Store.Usage

/-!
# Calls and their transactions

A call that changes the catalog writes its operations to the log as one transaction, before
anything else changes. All the operations fit then, so the change does not fail after the
transaction was written; and if it cannot be written, the catalog stays as it is. All other
calls, and those that are refused, leave the log and the catalog alone.

## Main definitions

* `Store.Commits`: An answer of a store that came to a transaction.
* `Store.Alters`: An answer of a store that came to a change of its catalog.
* `Usage.operations`: The operations of a call.
* `Usage.completed`, `Usage.ledger`: The transactions that calls complete.

## Theorems

* `Usage.call_cases`: What calls do to the log and the catalog.
* `Usage.completed_cases`: A transaction is completed and applied, or neither.
-/

namespace NestedColumns

namespace Store

variable {s : Store} {ops : List Operation} {answer : Store × Except StoreError Unit}

/-- An answer of a store that came to a transaction of some operations, which fit. -/
structure Commits (s : Store) (ops : List Operation) (answer : Store × Except StoreError Unit)
    (between : Store) : Prop where
  before : Quiet s between
  fits : ∃ r, between.registry.applyAll ops = (r, .ok ())
  orderly : Operation.Orderly s.catalog ops
  after : Quiet (between.commit ops).1 answer.1
  same : answer.2 = .ok () ↔ (between.commit ops).2 = .ok ()

-- What is quiet around it does not matter.
theorem Commits.widen {s₀ s' between : Store} (h : Commits s ops answer between)
    (hbefore : Quiet s₀ s) (hafter : Quiet answer.1 s') :
    Commits s₀ ops (s', answer.2) between where
  before := hbefore.trans h.before
  fits := h.fits
  orderly := hbefore.catalog ▸ h.orderly
  after := h.after.trans hafter
  same := h.same

/-- An answer of a store that came to a change of its catalog, whose operations fit. When they are
    written, directories are removed in which no table of the new catalog has a chunk, and all
    tables that are dropped have theirs. -/
structure Alters (s : Store) (ops : List Operation) (removed : List Path)
    (answer : Store × Except StoreError Unit) : Prop where
  fits : ∃ r, s.registry.applyAll ops = (r, .ok ())
  orderly : Operation.Orderly s.catalog ops
  failed : ∀ s' e, s.commit ops = (s', .error e) → answer = (s', .error e)
  done : ∀ s', s.commit ops = (s', .ok ()) → answer = (s'.discardTrees removed, .ok ())
  inside : Inside s.options removed
  apart : ∀ r, s.registry.applyAll ops = (r, .ok ()) → ∀ ref t, r.catalog.table? ref = some t →
    ∀ id path, s.options.chunkPath ref id <+: path → Outside removed path
  covers : ∀ r, s.registry.applyAll ops = (r, .ok ()) → ∀ ref t, s.catalog.table? ref = some t →
    r.catalog.table? ref = none → ∃ path ∈ removed, path <+: s.options.tablePath ref

theorem Alters.commits {removed : List Path} (h : Alters s ops removed answer) :
    Commits s ops answer s := by
  have hoptions := (commit_cases (fun _ => True) s ops).1.options
  rcases hcommit : s.commit ops with ⟨after, e | _⟩
  · refine ⟨.refl s, h.fits, h.orderly, ?_, ?_⟩
    · rw [h.failed after e hcommit, hcommit]
      exact .refl after
    · rw [h.failed after e hcommit, hcommit]
  · rw [hcommit] at hoptions
    refine ⟨.refl s, h.fits, h.orderly, ?_, ?_⟩
    · rw [h.done after hcommit, hcommit]
      exact discardTrees_quiet fun path hpath => hoptions ▸ h.inside path hpath
    · rw [h.done after hcommit, hcommit]

-- Nothing is removed where nothing is dropped.
theorem alters_commit (hfits : ∃ r, s.registry.applyAll ops = (r, .ok ()))
    (horderly : Operation.Orderly s.catalog ops) (hs : s.catalog.Sound)
    (hadds : ∀ (r : Registry) (op : Operation) (r' : Registry), op ∈ ops →
      s.registry.Adds r → r.apply op = .ok r' → s.registry.Adds r') :
    Alters s ops [] (s.commit ops) where
  fits := hfits
  orderly := horderly
  failed := fun _ _ hcommit => hcommit
  done := fun _ hcommit => hcommit
  inside := fun _ hpath => absurd hpath List.not_mem_nil
  apart := fun _ _ _ _ _ _ _ _ _ hp => absurd hp List.not_mem_nil
  covers := fun r hr ref t ht hnone => by
    have hafter := Registry.applyAll_induction hadds (.refl hs)
    rw [hr] at hafter
    rw [hafter.old ref t ht] at hnone
    cases hnone

theorem createDatabase_cases (h : s.catalog.Numbered) (name : String) :
    (s.createDatabase name).1 = s ∨
      Alters s [.createDatabase s.catalog.nextDatabase name] [] (s.createDatabase name) := by
  rw [createDatabase]
  split
  · exact Or.inl rfl
  · split
    · exact Or.inl rfl
    · next hname =>
      rw [Option.not_isSome_iff_eq_none] at hname
      refine Or.inr (alters_commit (Registry.createDatabase_fits h hname)
        (Or.inl ⟨_, rfl, ?_, ?_⟩) h.sound fun r op r' hop hadds happly => ?_)
      · intro id hid
        rw [Operation.newDatabase?, Option.some.injEq] at hid
        exact Nat.le_of_eq hid
      · exact fun ref href => by cases href
      · rw [List.mem_singleton.mp hop] at happly
        exact hadds.createDatabase happly

theorem createTable_cases (h : s.catalog.Numbered) (database table : String) :
    (s.createTable database table).1 = s ∨ ∃ d, s.databaseNamed database = .ok d ∧
      Alters s [.createTable ⟨d.id, d.nextTable⟩ table] [] (s.createTable database table) := by
  rw [createTable]
  split
  · exact Or.inl rfl
  · split
    · exact Or.inl rfl
    · next d hd =>
      split
      · exact Or.inl rfl
      · next hname =>
        rw [Option.not_isSome_iff_eq_none] at hname
        have hfound := find?_of_databaseNamed h.sound hd
        refine Or.inr ⟨d, hd, alters_commit (Registry.createTable_fits h hfound hname)
          (Or.inl ⟨_, rfl, ?_, ?_⟩) h.sound fun r op r' hop hadds happly => ?_⟩
        · exact fun id hid => by cases hid
        · intro ref href
          rw [Operation.newTable?, Option.some.injEq] at href
          rw [← href]
          exact ⟨d, hfound, Nat.le_refl _⟩
        · rw [List.mem_singleton.mp hop] at happly
          exact hadds.createTable happly

theorem commitDrop_alters (hfits : ∃ r, s.registry.applyAll ops = (r, .ok ()))
    (hnone : ∀ op ∈ ops, op.newDatabase? = none ∧ op.newTable? = none) {directory : Path}
    (hinside : ∃ id, s.options.databasePath id <+: directory)
    (hapart : ∀ r, s.registry.applyAll ops = (r, .ok ()) → ∀ ref t,
      r.catalog.table? ref = some t → ∀ id path, s.options.chunkPath ref id <+: path →
        ¬ directory <+: path)
    (hs : s.catalog.Sound) {dropped : TableRef → Prop}
    (hdrops : ∀ (r : Registry) (op : Operation) (r' : Registry), op ∈ ops →
      s.registry.Drops dropped r → r.apply op = .ok r' → s.registry.Drops dropped r')
    (hcovers : ∀ ref, dropped ref → directory <+: s.options.tablePath ref) :
    Alters s ops [directory] (s.commitDrop ops directory) where
  fits := hfits
  orderly := Or.inr hnone
  failed := fun s' e hcommit => by rw [commitDrop, hcommit]
  done := fun s' hcommit => by rw [commitDrop, hcommit]
  inside := fun _ hpath => (List.mem_singleton.mp hpath).symm ▸ hinside
  apart := fun r hr ref t ht id path hp p hmem =>
    (List.mem_singleton.mp hmem).symm ▸ hapart r hr ref t ht id path hp
  covers := fun r hr ref t ht hnone => by
    have hafter := Registry.applyAll_induction hdrops (.refl hs)
    rw [hr] at hafter
    rcases hafter.rest ref with hsame | ⟨hdropped, -⟩
    · have hold : s.registry.catalog.table? ref = some t := ht
      rw [hsame, hold] at hnone
      cases hnone
    · exact ⟨directory, List.mem_cons_self, hcovers ref hdropped⟩

theorem dropTable_cases (h : s.catalog.Numbered) (database table : String) :
    (s.dropTable database table).1 = s ∨ ∃ t, s.tableNamed database table = .ok t ∧
      Alters s [.dropTable t.ref] [s.options.tablePath t.ref] (s.dropTable database table) := by
  rw [dropTable_eq]
  split
  · exact Or.inl rfl
  · next t ht =>
    split
    · exact Or.inl rfl
    · have hfound := table?_of_tableNamed h.sound ht
      rcases Registry.dropTable_fits hfound with ⟨r, happly, -⟩
      refine Or.inr ⟨t, ht, commitDrop_alters ⟨r, Registry.applyAll_singleton happly⟩
        (fun op hop => ?_) ⟨_, StoreOptions.database_prefix_table ..⟩
        (fun r hr ref t' ht' id path hp hpre => ?_) h.sound
        (fun r op r' hop hdrops happly => ?_) fun ref (href : ref = t.ref) => ?_⟩
      · rw [List.mem_singleton.mp hop]
        exact ⟨rfl, rfl⟩
      · have hsame := StoreOptions.table_unique
          ((StoreOptions.table_prefix_chunk _ ref id).trans hp) hpre
        have hone : s.registry.applyAll ([] ++ [Operation.dropTable t.ref]) = (r, .ok ()) := hr
        rw [hsame, Registry.gone_of_dropTable h.sound hone] at ht'
        cases ht'
      · rw [List.mem_singleton.mp hop] at happly
        exact hdrops.dropTable rfl happly
      · subst href
        exact List.prefix_refl _

theorem dropDatabase_cases (h : s.catalog.Numbered) (name : String) :
    (s.dropDatabase name).1 = s ∨ ∃ d, s.databaseNamed name = .ok d ∧
      Alters s (d.tables.values.map (fun t => Operation.dropTable t.ref) ++
        [Operation.dropDatabase d.id]) [s.options.databasePath d.id] (s.dropDatabase name) := by
  rw [dropDatabase_eq h.sound]
  split
  · exact Or.inl rfl
  · next d hd =>
    split
    · exact Or.inl rfl
    · refine Or.inr ⟨d, hd, commitDrop_alters ?_ (fun op hop => ?_) ⟨_, List.prefix_refl _⟩
        (fun r hr ref t' ht' id path hp hpre => ?_) h.sound
        (fun r op r' hop hdrops happly => ?_) fun ref (href : ref.database = d.id) => ?_⟩
      · exact Registry.dropDatabase_fits h.sound
          (Option.isSome_iff_exists.mpr ⟨d, find?_of_databaseNamed h.sound hd⟩)
          (fun t ht => ((mem_tables_iff h.sound hd).mp ht).2) (refs_nodup h.sound hd)
      · rcases List.mem_append.mp hop with hop | hop
        · rcases List.mem_map.mp hop with ⟨t, -, rfl⟩
          exact ⟨rfl, rfl⟩
        · rw [List.mem_singleton.mp hop]
          exact ⟨rfl, rfl⟩
      · have hsame := StoreOptions.database_unique
          ((StoreOptions.database_prefix_chunk _ ref id).trans hp) hpre
        rw [Registry.gone_of_dropDatabase h.sound hr ref hsame] at ht'
        cases ht'
      · rcases List.mem_append.mp hop with hop | hop
        · rcases List.mem_map.mp hop with ⟨t, ht, rfl⟩
          exact hdrops.dropTable ((mem_tables_iff h.sound hd).mp ht).1 happly
        · rw [List.mem_singleton.mp hop] at happly
          exact hdrops.dropDatabase (fun _ hsame => hsame) happly
      · rw [← href]
        exact StoreOptions.database_prefix_table ..

end Store

namespace Session

open Store (Quiet Commits)

variable {s : Store}

theorem operations_onTable (session : Session) : ∀ op ∈ session.operations,
    (∃ schema, op = .updateSchema session.ref schema) ∨
      ∃ chunk, op = .addChunk session.ref chunk := by
  intro op hop
  rcases List.mem_append.mp hop with hop | hop
  · split at hop
    · exact Or.inl ⟨_, List.mem_singleton.mp hop⟩
    · exact absurd hop List.not_mem_nil
  · rcases List.mem_map.mp hop with ⟨chunk, -, rfl⟩
    exact Or.inr ⟨chunk, rfl⟩

-- A session whose table is gone, or that has nothing to commit, writes nothing to the log.
theorem commit_cases (h : s.catalog.Numbered) (session : Session) :
    (session.commit s).1 = s ∨ Commits s session.operations (session.commit s) s := by
  rw [commit]
  split
  · exact Or.inl rfl
  · split
    · exact Or.inl rfl
    · next t ht =>
      refine Or.inr ⟨.refl s, Registry.onTable_fits h.sound (Option.isSome_iff_exists.mpr ⟨t, ht⟩)
        session.operations_onTable, Or.inr fun op hop => ?_, .refl _, Iff.rfl⟩
      rcases session.operations_onTable op hop with ⟨schema, rfl⟩ | ⟨chunk, rfl⟩
      · exact ⟨rfl, rfl⟩
      · exact ⟨rfl, rfl⟩

-- Chunks are written before the commit, and what was not committed is removed after it.
theorem close_cases (h : s.catalog.Numbered) (session : Session) :
    Quiet s (session.close s).1 ∨ ∃ between,
      Commits s (session.flush s).2.1.operations (session.close s) between := by
  have hflush := session.flush_quiet s
  rw [close]
  rcases hflushed : session.flush s with ⟨s₁, flushed, result⟩
  rw [hflushed] at hflush
  cases result with
  | error e => exact Or.inl (hflush.trans (flushed.discard_quiet s₁))
  | ok _ =>
      have hcases := commit_cases (hflush.catalog ▸ h) flushed
      rcases hcommit : flushed.commit s₁ with ⟨s₂, outcome⟩
      rw [hcommit] at hcases
      have hend : ∀ last, Quiet s₂ last → Quiet s last ∨ ∃ between,
          Commits s flushed.operations (last, outcome) between := by
        intro last hlast
        rcases hcases with hnothing | hcommits
        · have hstill : s₂ = s₁ := hnothing
          exact Or.inl (hflush.trans (hstill ▸ hlast))
        · exact Or.inr ⟨s₁, hcommits.widen hflush hlast⟩
      simp only [hcommit]
      -- Either way the session ends quietly.
      cases outcome with
      | error e => exact hend _ (flushed.discard_quiet s₂)
      | ok _ => exact hend _ (Store.setWriters_quiet ..)

end Session

/-! ### Calls -/

/-- A call that changes the catalog if it succeeds. -/
def Call.isChange : Call → Bool
  | .createDatabase _ | .dropDatabase _ | .createTable _ _ | .dropTable _ _ | .close _ => true
  | _ => false

namespace Usage

open Store (Quiet Commits)

/-- The operations that a call writes to the log, if it comes to that. -/
def operations (u : Usage) : Call → List Operation
  | .createDatabase name => [.createDatabase u.store.catalog.nextDatabase name]
  | .dropDatabase name =>
    match u.store.databaseNamed name with
    | .error _ => []
    | .ok d =>
      d.tables.values.map (fun t => Operation.dropTable t.ref) ++ [Operation.dropDatabase d.id]
  | .createTable database table =>
    match u.store.databaseNamed database with
    | .error _ => []
    | .ok d => [.createTable ⟨d.id, d.nextTable⟩ table]
  | .dropTable database table =>
    match u.store.tableNamed database table with
    | .error _ => []
    | .ok t => [.dropTable t.ref]
  | .close ref =>
    match u.sessions ref with
    | none => []
    | some session => (session.flush u.store).2.1.operations
  | _ => []

/-- The transactions that a call completes: the one of its operations if the log has grown. -/
def completed (u : Usage) (c : Call) : List (List Operation) :=
  if (u.call c).1.store.log.committed = u.store.log.committed then [] else [u.operations c]

/-- The transactions that calls complete one after another. -/
def ledger (u : Usage) : List Call → List (List Operation)
  | [] => []
  | c :: rest => u.completed c ++ (u.call c).1.ledger rest

/-- Of calls one after another, all that change the catalog succeed. -/
def changesSucceed (u : Usage) : List Call → Bool
  | [] => true
  | c :: rest => (!c.isChange || (u.call c).2.isOk) && (u.call c).1.changesSucceed rest

variable {u : Usage} {c : Call}

theorem ledger_concat (u : Usage) (calls : List Call) (c : Call) :
    u.ledger (calls ++ [c]) = u.ledger calls ++ (u.run calls).completed c := by
  induction calls generalizing u with
  | nil => rw [List.nil_append, ledger, ledger, ledger, List.append_nil, List.nil_append, run,
      List.foldl_nil]
  | cons first rest ih =>
      rw [List.cons_append, ledger, ledger, ih, List.append_assoc, run, run, List.foldl_cons]

theorem onInsert_store (u : Usage) (ref : TableRef) (document : Option Json)
    (outcome : Store × Session × Except StoreError Unit) :
    (u.onInsert ref document outcome).1.store = outcome.1 := by
  rcases outcome with ⟨s, session, e | _⟩
  · rfl
  · rfl

/-- A call leaves the log and the catalog alone, or comes to the transaction of its
    operations. -/
theorem call_cases (h : u.store.catalog.Numbered) (c : Call) :
    Quiet u.store (u.call c).1.store ∨ c.isChange = true ∧ ∃ between answer,
      Commits u.store (u.operations c) ((u.call c).1.store, answer) between ∧
        (u.call c).2 = answer.mapError .ofStore := by
  cases c with
  | createDatabase name =>
      rcases Store.createDatabase_cases h name with hsame | halters
      · exact Or.inl (.of_eq hsame)
      · exact Or.inr ⟨rfl, _, _, halters.commits, rfl⟩
  | dropDatabase name =>
      rcases Store.dropDatabase_cases h name with hsame | ⟨d, hd, halters⟩
      · exact Or.inl (.of_eq hsame)
      · rw [operations, hd]
        exact Or.inr ⟨rfl, _, _, halters.commits, rfl⟩
  | createTable database table =>
      rcases Store.createTable_cases h database table with hsame | ⟨d, hd, halters⟩
      · exact Or.inl (.of_eq hsame)
      · rw [operations, hd]
        exact Or.inr ⟨rfl, _, _, halters.commits, rfl⟩
  | dropTable database table =>
      rcases Store.dropTable_cases h database table with hsame | ⟨t, ht, halters⟩
      · exact Or.inl (.of_eq hsame)
      · rw [operations, ht]
        exact Or.inr ⟨rfl, _, _, halters.commits, rfl⟩
  | openSession database table =>
      refine Or.inl ?_
      rw [call, Store.openSession_eq]
      cases u.store.tableNamed database table with
      | error e => exact .refl _
      | ok t =>
          by_cases hwritten : u.store.isWritten t.ref = true
          · simp only [if_pos hwritten]
            exact .refl _
          · simp only [if_neg hwritten]
            exact Store.setWriters_quiet ..
  | insert ref document =>
      refine Or.inl ?_
      rw [call]
      cases u.sessions ref with
      | none => exact .refl _
      | some session =>
          simp only [onInsert_store]
          exact session.insert_quiet u.store document
  | insertText ref bytes =>
      refine Or.inl ?_
      rw [call]
      cases u.sessions ref with
      | none => exact .refl _
      | some session =>
          simp only [onInsert_store]
          exact session.insertText_quiet u.store bytes
  | close ref =>
      rw [call, operations]
      cases u.sessions ref with
      | none => exact Or.inl (.refl _)
      | some session =>
          rcases session.close_cases h with hquiet | ⟨between, hcommits⟩
          · exact Or.inl hquiet
          · exact Or.inr ⟨rfl, between, _, hcommits, rfl⟩
  | abort ref =>
      refine Or.inl ?_
      rw [call]
      cases u.sessions ref with
      | none => exact .refl _
      | some session => exact session.abort_quiet u.store
  | discard ref =>
      refine Or.inl ?_
      rw [call]
      cases u.sessions ref with
      | none => exact .refl _
      | some session => exact session.discard_quiet u.store
  | records database table paths => exact Or.inl (Store.records_quiet ..)

theorem transaction_length_pos (ops : List Operation) :
    0 < (Utf8.encode (LogEntry.transaction (ops.map .operation))).length := by
  have hopening : LogEntry.transaction (ops.map .operation) = '"' :: (LogEntry.transaction
      (ops.map .operation)).tail := rfl
  rw [hopening, Utf8.encode, List.flatMap_cons, List.length_append]
  exact Nat.lt_of_lt_of_le Nat.one_pos (Nat.le_add_right ..)

/-- A call that completes its transaction has applied all its operations. -/
structure Applied (u : Usage) (c : Call) (r r' : Registry) : Prop where
  completed : u.completed c = [u.operations c]
  before : r.catalog = u.store.catalog
  applied : r.applyAll (u.operations c) = (r', .ok ())
  after : (u.call c).1.store.catalog = r'.catalog
  orderly : Operation.Orderly u.store.catalog (u.operations c)
  answer : (u.call c).2 = .ok ()

-- Nothing can fail between the writing of a transaction and the end of the call.
theorem completed_cases (h : u.store.catalog.Numbered) (c : Call) :
    u.completed c = [] ∧ (u.call c).1.store.catalog = u.store.catalog ∨
      ∃ r r', Applied u c r r' := by
  rcases call_cases h c with hquiet | ⟨-, between, answer, hcommits, hanswer⟩
  · exact Or.inl ⟨by rw [completed, hquiet.log, if_pos rfl], hquiet.catalog⟩
  · rcases hcommits.fits with ⟨r, hfits⟩
    have hlog : (u.call c).1.store.log = (between.commit (u.operations c)).1.log :=
      hcommits.after.log
    have hcatalog : (u.call c).1.store.catalog = (between.commit (u.operations c)).1.catalog :=
      hcommits.after.catalog
    rcases (Store.commit_cases (fun _ => True) between (u.operations c)).2.2 with
      ⟨hregistry, hresult, hcommitted⟩ | ⟨hregistry, -, hcommitted⟩
    · rw [hfits] at hregistry hresult
      refine Or.inr ⟨between.registry, r, ?_, hcommits.before.catalog, hfits, ?_, hcommits.orderly, ?_⟩
      · have hpos := transaction_length_pos (u.operations c)
        rw [completed, hlog, hcommitted, hcommits.before.log, if_neg (by omega)]
      · rw [hcatalog, Store.catalog, hregistry]
      · have hok : answer = .ok () := hcommits.same.mpr hresult
        rw [hanswer, hok]
        rfl
    · refine Or.inl ⟨?_, ?_⟩
      · rw [completed, hlog, hcommitted, hcommits.before.log, if_pos rfl]
      · rw [hcatalog, Store.catalog, hregistry]
        exact hcommits.before.catalog

end Usage

end NestedColumns
