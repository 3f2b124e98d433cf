import NestedColumns.Proofs.Store.Acknowledged
import NestedColumns.Proofs.Store.History

/-!
# How deep the log nests

A document is merged into a schema only as far as the limit on levels allows, so no schema of
a session or a table is higher than that, and neither is one that is written to the log. There
every level of a schema takes three brackets at most. Up to forty-one levels an entry of the log
therefore opens no more brackets than its reader accepts.

## Main definitions

* `Usage.Limited`: Schemas are within the limit.

## Theorems

* `Operation.nesting_le`: How many brackets an operation takes.
* `Usage.Limited.call`, `History.limited`: Schemas stay within the limit.
-/

namespace NestedColumns

open Json (nesting nestingItems nestingMembers nestingItems_le)

namespace Schema.Node

theorem nesting_fields {fields : List (String × Node)}
    (h : ∀ f ∈ fields, nesting f.2.toJson ≤ 3 * f.2.height + 2) :
    nestingItems (fieldsToJson fields) ≤ 3 * heightOf fields := by
  rw [fieldsToJson_eq, nestingItems_le]
  intro v hv
  rcases List.mem_map.mp hv with ⟨f, hf, rfl⟩
  have hnode := h f hf
  have hlower := height_lt_of_mem hf
  simp only [fieldToJson, nesting, nestingMembers]
  omega

theorem nesting_toJson_le (node : Node) : nesting node.toJson ≤ 3 * node.height + 2 := by
  induction node using inductionOn with
  | leaf column type => exact Nat.le_of_eq rfl
  | object fields ih =>
      have hfields := nesting_fields ih
      simp only [toJson, nesting, nestingMembers, height]
      omega
  | array element ih =>
      simp only [toJson, nesting, nestingMembers, height]
      omega

end Schema.Node

theorem Operation.nesting_le {op : Operation} {limit : Nat}
    (h : ∀ ref schema, op = .updateSchema ref schema → schema.Sound limit) :
    nesting op.toJson ≤ 3 * limit + 4 := by
  cases op with
  | updateSchema ref schema =>
      have hheight : Schema.Node.heightOf schema.fields ≤ limit := (h ref schema rfl).height
      have hfields := Schema.Node.nesting_fields
        fun f (_ : f ∈ schema.fields) => f.2.nesting_toJson_le
      simp only [toJson, TableRef.toJson, Schema.toJson, Json.ofNat, nesting, nestingMembers]
      omega
  | addChunk ref chunk =>
      have hcolumns : nestingItems (chunk.columns.map Json.ofNat) ≤ 0 := by
        rw [nestingItems_le]
        intro v hv
        rcases List.mem_map.mp hv with ⟨column, -, rfl⟩
        exact Nat.le_refl _
      simp only [toJson, TableRef.toJson, ChunkInfo.toJson, Json.ofNat, nesting, nestingMembers]
      omega
  | _ =>
      simp only [toJson, TableRef.toJson, Json.ofNat, nesting, nestingMembers]
      omega

/-! ### Schemas of sessions and tables -/

namespace Session

variable {limit : Nat} {session : Session} {s : Store}

theorem flush_schema (session : Session) (s : Store) :
    (session.flush s).2.1.schema = session.schema := by
  have hflushes := session.flush_spec s
  generalize session.flush s = answer at hflushes ⊢
  cases hflushes <;> rfl

theorem insert_schema (h : session.schema.Sound limit) (hl : s.options.maxLevel ≤ limit)
    (document : Json) : (session.insert s document).2.1.schema.Sound limit := by
  rcases insert_cases session s document with
    ⟨e, hinsert⟩ | ⟨accepted, s', session', answer, haccept, hinsert, -, hcases⟩
  · rw [hinsert]
    exact h
  · rcases Outcome.bind_eq_ok.mp haccept with ⟨merged, hmerge, hrest⟩
    rcases Outcome.bind_eq_ok.mp hrest with ⟨streams, -, haccepted⟩
    simp only [pure, Except.pure, Except.ok.injEq] at haccepted
    have hschema : accepted.schema = merged.getD session.schema := by rw [← haccepted]
    have hsession : session'.schema = accepted.schema := by
      rcases hcases with hsame | hflush
      · rw [Prod.mk.injEq, Prod.mk.injEq] at hsame
        rw [hsame.2.1]
      · have hflushed := accepted.flush_schema s
        rwa [hflush] at hflushed
    rw [hinsert, hsession, hschema]
    exact h.merge hl hmerge

theorem insertText_schema (h : session.schema.Sound limit) (hl : s.options.maxLevel ≤ limit)
    (bytes : List UInt8) : (session.insertText s bytes).2.1.schema.Sound limit := by
  rw [insertText]
  cases Json.read? (Utf8.readWith '\x00' bytes) with
  | error fault => exact h
  | ok document => exact insert_schema h hl document

end Session

namespace Usage

/-- The schemas of all tables and sessions are within a limit. -/
structure Limited (u : Usage) (limit : Nat) : Prop where
  options : u.store.options.maxLevel ≤ limit
  tables : ∀ ref t, u.store.catalog.table? ref = some t → t.schema.Sound limit
  sessions : ∀ ref session, u.sessions ref = some session → session.schema.Sound limit

variable {u : Usage} {limit : Nat}

theorem call_options (h : u.store.catalog.Numbered) (c : Call) :
    (u.call c).1.store.options = u.store.options := by
  rcases call_cases h c with hquiet | ⟨-, between, answer, hcommits, -⟩
  · exact hquiet.options
  · have hcommit := (Store.commit_cases (fun _ => True) between (u.operations c)).1.options
    exact (hcommits.after.options.trans hcommit).trans hcommits.before.options

theorem Limited.ofStore {s : Store} (hl : s.options.maxLevel ≤ limit)
    (htables : ∀ ref t, s.catalog.table? ref = some t → t.schema.Sound limit) :
    (Usage.ofStore s).Limited limit where
  options := hl
  tables := htables
  sessions := fun _ _ hsession => by cases hsession

-- The schema of a session is the only one that is written to the log.
theorem Limited.operations (h : u.Limited limit) {c : Call} {ref : TableRef} {schema : Schema}
    (hin : .updateSchema ref schema ∈ u.operations c) : schema.Sound limit := by
  cases c with
  | close own =>
      rw [Usage.operations] at hin
      cases hsession : u.sessions own with
      | none =>
          rw [hsession] at hin
          exact absurd hin List.not_mem_nil
      | some session =>
          rw [hsession] at hin
          rcases List.mem_append.mp hin with hin | hin
          · split at hin
            · rw [List.mem_singleton, Operation.updateSchema.injEq] at hin
              rw [hin.2, session.flush_schema]
              exact h.sessions own session hsession
            · exact absurd hin List.not_mem_nil
          · rcases List.mem_map.mp hin with ⟨_, -, heq⟩
            cases heq
  | dropDatabase name =>
      rw [Usage.operations] at hin
      split at hin
      · exact absurd hin List.not_mem_nil
      · rcases List.mem_append.mp hin with hin | hin
        · rcases List.mem_map.mp hin with ⟨_, -, heq⟩
          cases heq
        · cases List.mem_singleton.mp hin
  | createDatabase name => cases List.mem_singleton.mp hin
  | createTable database table | dropTable database table =>
      rw [Usage.operations] at hin
      split at hin
      · exact absurd hin List.not_mem_nil
      · cases List.mem_singleton.mp hin
  | _ => exact absurd hin List.not_mem_nil

theorem Limited.tables_applyAll {r : Registry} {ops : List Operation} (hs : r.catalog.Sound)
    (htables : ∀ ref t, r.catalog.table? ref = some t → t.schema.Sound limit)
    (hops : ∀ ref schema, .updateSchema ref schema ∈ ops → schema.Sound limit) :
    ∀ ref t, (r.applyAll ops).1.catalog.table? ref = some t → t.schema.Sound limit := by
  have hboth : (r.applyAll ops).1.catalog.Sound ∧
      ∀ ref t, (r.applyAll ops).1.catalog.table? ref = some t → t.schema.Sound limit := by
    refine Registry.applyAll_induction (P := fun r => r.catalog.Sound ∧
      ∀ ref t, r.catalog.table? ref = some t → t.schema.Sound limit)
        (fun r op r' hop hbefore happly => ⟨Registry.sound_apply hbefore.1 happly, ?_⟩) ⟨hs, htables⟩
    intro ref t ht
    rw [Registry.table?_apply hbefore.1 happly] at ht
    cases op with
    | createDatabase id name => exact hbefore.2 ref t ht
    | dropDatabase | dropTable =>
        rw [Operation.onTable] at ht
        split at ht
        · cases ht
        · exact hbefore.2 ref t ht
    | createTable new name =>
        rw [Operation.onTable] at ht
        split at ht
        · rw [Option.some.injEq] at ht
          rw [← ht]
          exact Schema.sound_empty limit
        · exact hbefore.2 ref t ht
    | updateSchema own schema =>
        rw [Operation.onTable] at ht
        split at ht
        · rcases Option.map_eq_some_iff.mp ht with ⟨before, -, rfl⟩
          exact hops own schema hop
        · exact hbefore.2 ref t ht
    | addChunk own chunk =>
        rw [Operation.onTable] at ht
        split at ht
        · rcases Option.map_eq_some_iff.mp ht with ⟨before, hfound, rfl⟩
          exact hbefore.2 ref before hfound
        · exact hbefore.2 ref t ht
  exact hboth.2

-- A session starts with the schema of its table, and every document is merged within the limit.
theorem Limited.sessions_call (h : u.Limited limit) (hn : u.store.catalog.Numbered) (c : Call) :
    ∀ ref session, (u.call c).1.sessions ref = some session → session.schema.Sound limit := by
  have hupdate : ∀ (own : TableRef) (opened : Option Session),
      (∀ session, opened = some session → session.schema.Sound limit) → ∀ ref session,
        Function.update u.sessions own opened ref = some session → session.schema.Sound limit := by
    intro own opened hopened ref session hsession
    by_cases hsame : ref = own
    · rw [hsame, Function.update_self] at hsession
      exact hopened session hsession
    · rw [Function.update_of_ne hsame] at hsession
      exact h.sessions ref session hsession
  have hend : ∀ own ref session,
      Function.update u.sessions own none ref = some session → session.schema.Sound limit :=
    fun own => hupdate own none fun _ hnone => by cases hnone
  have honInsert : ∀ own document (outcome : Store × Session × Except StoreError Unit),
      outcome.2.1.schema.Sound limit → ∀ ref session,
        (u.onInsert own document outcome).1.sessions ref = some session →
          session.schema.Sound limit := by
    rintro own document ⟨s, inserted, e | _⟩ hinserted
    · exact hupdate own (some inserted) fun session hsome => Option.some.inj hsome ▸ hinserted
    · exact hupdate own (some inserted) fun session hsome => Option.some.inj hsome ▸ hinserted
  cases c with
  | createDatabase | dropDatabase | createTable | dropTable | records => exact h.sessions
  | openSession database table =>
      rw [call, Store.openSession_eq]
      cases ht : u.store.tableNamed database table with
      | error e => exact h.sessions
      | ok t =>
          by_cases hwritten : u.store.isWritten t.ref = true
          · simp only [if_pos hwritten]
            exact h.sessions
          · simp only [if_neg hwritten]
            refine hupdate t.ref _ fun session hsome => ?_
            rw [← Option.some.inj hsome]
            exact h.tables t.ref t (Store.table?_of_tableNamed hn.sound ht)
  | insert own document =>
      rw [call]
      cases hsession : u.sessions own with
      | none => exact h.sessions
      | some session =>
          exact honInsert own _ _ (Session.insert_schema (h.sessions own session hsession)
            h.options document)
  | insertText own bytes =>
      rw [call]
      cases hsession : u.sessions own with
      | none => exact h.sessions
      | some session =>
          exact honInsert own _ _ (Session.insertText_schema (h.sessions own session hsession)
            h.options bytes)
  | close own | abort own | discard own =>
      rw [call]
      cases hsession : u.sessions own with
      | none => exact h.sessions
      | some session => exact hend own

theorem Limited.call (h : u.Limited limit) (hn : u.store.catalog.Numbered) (c : Call) :
    (u.call c).1.Limited limit where
  options := by
    rw [call_options hn c]
    exact h.options
  tables := by
    rcases completed_cases hn c with ⟨-, hsame⟩ | ⟨r, r', happlied⟩
    · rw [hsame]
      exact h.tables
    · have hsound := hn.sound
      have htables := h.tables
      rw [← happlied.before] at hsound htables
      have hafter := tables_applyAll hsound htables
        fun ref schema (hin : .updateSchema ref schema ∈ u.operations c) => h.operations hin
      rw [happlied.applied] at hafter
      rw [happlied.after]
      exact hafter
  sessions := h.sessions_call hn c

end Usage

namespace History

variable {options : StoreOptions} {u : Usage} {txs : List (List Operation)}

theorem options_eq (h : History options u txs) : u.store.options = options := by
  induction h with
  | made hopened => exact hopened.options
  | call h c ih => exact (Usage.call_options h.kept.numbered c).trans ih
  | reopen _ hopened _ => exact hopened.options

/-- The schemas of all tables and sessions are within the limit, and so are those that were
    written to the log. -/
theorem limited (h : History options u txs) : u.Limited options.maxLevel ∧
    ∀ ref schema, .updateSchema ref schema ∈ txs.flatten → schema.Sound options.maxLevel := by
  induction h with
  | made hopened =>
      refine ⟨.ofStore (Nat.le_of_eq (congrArg _ hopened.options)) fun ref t ht => ?_,
        fun ref schema hin => absurd hin List.not_mem_nil⟩
      rw [kept_empty.opened hopened] at ht
      cases ht
  | @call u txs h c ih =>
      have hn := h.kept.numbered
      refine ⟨ih.1.call hn c, fun ref schema hin => ?_⟩
      rw [List.flatten_append] at hin
      rcases List.mem_append.mp hin with hin | hin
      · exact ih.2 ref schema hin
      · rcases Usage.completed_cases hn c with ⟨hnone, -⟩ | ⟨r, r', happlied⟩
        · rw [hnone] at hin
          exact absurd hin List.not_mem_nil
        · rw [happlied.completed, List.flatten_singleton] at hin
          exact ih.1.operations hin
  | reopen h hopened ih =>
      refine ⟨.ofStore (Nat.le_of_eq (congrArg _ hopened.options)) fun ref t ht => ?_, ih.2⟩
      rw [h.kept.opened hopened] at ht
      exact ih.1.tables ref t ht

end History

end NestedColumns
