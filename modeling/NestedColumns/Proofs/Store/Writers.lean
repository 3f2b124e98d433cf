import NestedColumns.Proofs.Store.Ledger
import NestedColumns.Proofs.Store.Opening
import NestedColumns.Proofs.Store.Runs

/-!
# Tables with a writer

A session takes its table as it is when it begins, and nothing else that a store does changes a
table with a writer: making databases and tables adds empty ones, dropping removes only tables
without a writer, and other sessions change their own tables. So when a session commits, its
table becomes the one it began with, with a schema that has grown and more chunks at the end.

A database is dropped by taking the flags of all its tables one after another, and giving them
back at the first that is taken already. This comes to the same as looking for a writer first.

## Main definitions

* `Registry.Below`: All chunks of tables have numbers that were given out.
* `Store.Changed`: A store after databases and tables were made or dropped.
* `Store.lockAll`: Taking the flags of tables.
* `Session.Based`: A session whose table is as it was when it began.
* `Session.Leaves`: A store after a session has ended.

## Theorems

* `Registry.replay_below`: A log that is replayed gives sound catalogs.
* `Store.createDatabase_changed`, `Store.createTable_changed`, `Store.dropTable_changed`,
  `Store.dropDatabase_changed`: What becomes of tables with a writer.
* `Store.dropDatabase_locking`: A database is dropped under the flags of all its tables.
* `Session.Based.insert`, `Session.Based.close`: A session goes on, and ends.
-/

namespace NestedColumns

namespace Registry

variable {r r' : Registry} {ops : List Operation}

/-- All chunks of tables have numbers that were given out. -/
def Below (r : Registry) : Prop :=
  ∀ ref t, r.catalog.table? ref = some t → ∀ c ∈ t.chunks, c.chunk < r.nextChunk

theorem Below.apply (h : r.Below) (hs : r.catalog.Sound) {op : Operation}
    (happly : r.apply op = .ok r') : r'.Below := by
  intro ref t ht c hc
  rw [table?_apply hs happly] at ht
  rw [nextChunk_apply happly]
  have hold : ∀ t', r.catalog.table? ref = some t' → c ∈ t'.chunks →
      c.chunk < op.onNextChunk r.nextChunk := fun t' ht' hc' =>
    Nat.lt_of_lt_of_le (h ref t' ht' c hc') (op.le_onNextChunk _)
  cases op with
  | createDatabase id name => exact hold t ht hc
  | dropDatabase | dropTable =>
      rw [Operation.onTable] at ht
      split at ht
      · cases ht
      · exact hold t ht hc
  | createTable new name =>
      rw [Operation.onTable] at ht
      split at ht
      · rw [Option.some.injEq] at ht
        rw [← ht] at hc
        exact absurd hc List.not_mem_nil
      · exact hold t ht hc
  | updateSchema own schema =>
      rw [Operation.onTable] at ht
      split at ht
      · rcases Option.map_eq_some_iff.mp ht with ⟨t', ht', rfl⟩
        exact hold t' ht' hc
      · exact hold t ht hc
  | addChunk own chunk =>
      rw [Operation.onTable] at ht
      split at ht
      · rcases Option.map_eq_some_iff.mp ht with ⟨t', ht', rfl⟩
        rcases List.mem_append.mp hc with hc | hc
        · exact hold t' ht' hc
        · rw [List.mem_singleton.mp hc]
          exact Nat.lt_of_lt_of_le (Nat.lt_succ_self _) (Nat.le_max_right ..)
      · exact hold t ht hc

/-- Whatever a log says, its catalog is sound and its chunks have numbers below the next. -/
theorem replay_below (h : replay ops = .ok r) : r.catalog.Sound ∧ r.Below :=
  replay_induction (P := fun r => r.catalog.Sound ∧ r.Below)
    ⟨Catalog.sound_empty, fun _ _ ht => by cases ht⟩
    (fun _ _ _ h happly => ⟨sound_apply h.1 happly, h.2.apply h.1 happly⟩) h

end Registry

namespace Store

variable {s s' : Store} {ops : List Operation} {t : Table}

theorem openWith_below {options : StoreOptions} {d d' : Disk}
    (h : openWith options d = (d', .ok s)) :
    s.options = options ∧ s.catalog.Sound ∧ s.registry.Below ∧ s.writers = [] ∧
      s.volume.pages = ∅ ∧ s.disk = d' := by
  rcases openWith_eq_ok h with ⟨-, _, _, _, _, registry, -, -, hreplay, -, rfl⟩
  rcases Registry.replay_below hreplay with ⟨hsound, hbelow⟩
  exact ⟨rfl, hsound, hbelow, rfl, rfl, rfl⟩

/-! ### Databases and tables -/

/-- A store after databases and tables were made or dropped: new tables are empty, and a table
    with a writer stays as it is. -/
structure Changed (s s' : Store) : Prop where
  sound : s'.catalog.Sound
  next : s.registry.nextChunk ≤ s'.registry.nextChunk
  writers : s'.writers = s.writers
  new : ∀ ref t, s'.catalog.table? ref = some t → s.catalog.table? ref = some t ∨
    s.catalog.table? ref = none ∧ ∃ name, t = .empty ref name
  kept : ∀ ref t, ref ∈ s.writers → s.catalog.table? ref = some t →
    s'.catalog.table? ref = some t

theorem Changed.refl (hs : s.catalog.Sound) : Changed s s where
  sound := hs
  next := Nat.le_refl _
  writers := rfl
  new := fun _ _ ht => Or.inl ht
  kept := fun _ _ _ ht => ht

theorem Changed.below (h : Changed s s') (hb : s.registry.Below) : s'.registry.Below := by
  intro ref t ht c hc
  rcases h.new ref t ht with hold | ⟨-, name, rfl⟩
  · exact Nat.lt_of_lt_of_le (hb ref t hold c hc) h.next
  · exact absurd hc List.not_mem_nil

theorem commit_adds (hs : s.catalog.Sound)
    (hstep : ∀ (r : Registry) (op : Operation) (r' : Registry), op ∈ ops →
      s.registry.Adds r → r.apply op = .ok r' → s.registry.Adds r') :
    Changed s (s.commit ops).1 := by
  rcases commit_cases (fun _ => True) s ops with ⟨hfollows, hwriters, -⟩
  have hadds : s.registry.Adds (s.commit ops).1.registry :=
    Usage.commit_registry s (.refl hs) hstep
  exact ⟨hadds.sound, hfollows.next, hwriters, hadds.new, fun ref t _ ht => hadds.old ref t ht⟩

theorem createDatabase_changed (hs : s.catalog.Sound) (name : String) :
    Changed s (s.createDatabase name).1 := by
  rw [createDatabase]
  split
  · exact .refl hs
  · split
    · exact .refl hs
    · refine commit_adds hs fun r op r' hop hadds happly => ?_
      rw [List.mem_singleton.mp hop] at happly
      exact hadds.createDatabase happly

theorem createTable_changed (hs : s.catalog.Sound) (database table : String) :
    Changed s (s.createTable database table).1 := by
  rw [createTable]
  split
  · exact .refl hs
  · split
    · exact .refl hs
    · split
      · exact .refl hs
      · refine commit_adds hs fun r op r' hop hadds happly => ?_
        rw [List.mem_singleton.mp hop] at happly
        exact hadds.createTable happly

theorem commitDrop_changed (hs : s.catalog.Sound) (dropped : TableRef → Prop)
    (hstep : ∀ (r : Registry) (op : Operation) (r' : Registry), op ∈ ops →
      s.registry.Drops dropped r → r.apply op = .ok r' → s.registry.Drops dropped r')
    (hfree : ∀ ref t, dropped ref → s.catalog.table? ref = some t → ref ∉ s.writers)
    (directory : Path) : Changed s (s.commitDrop ops directory).1 := by
  rcases commit_cases (fun _ => True) s ops with ⟨hfollows, hwriters, -⟩
  rcases s.commitDrop_registry ops directory with ⟨hregistry, hsame, -⟩
  have hdrops : s.registry.Drops dropped (s.commitDrop ops directory).1.registry := by
    rw [hregistry]
    exact Usage.commit_registry s (.refl hs) hstep
  refine ⟨hdrops.sound, ?_, hsame.trans hwriters, fun ref t ht => ?_, fun ref t hin ht => ?_⟩
  · rw [hregistry]
    exact hfollows.next
  · rcases hdrops.rest ref with hrest | ⟨-, hnone⟩
    · exact Or.inl (hrest.symm.trans ht)
    · rw [Store.catalog, hnone] at ht
      cases ht
  · rcases hdrops.rest ref with hrest | ⟨hdropped, -⟩
    · exact hrest.trans ht
    · exact absurd hin (hfree ref t hdropped ht)

theorem dropTable_changed (hs : s.catalog.Sound) (database table : String) :
    Changed s (s.dropTable database table).1 := by
  rw [dropTable_eq]
  split
  · exact .refl hs
  · next t _ =>
    split
    · exact .refl hs
    · next hfree =>
      refine commitDrop_changed hs (· = t.ref) (fun r op r' hop hdrops happly => ?_)
        (fun ref _ href _ => href ▸ not_written hfree) _
      rw [List.mem_singleton.mp hop] at happly
      exact hdrops.dropTable rfl happly

-- One table with a writer keeps its whole database.
theorem dropDatabase_changed (hs : s.catalog.Sound) (name : String) :
    Changed s (s.dropDatabase name).1 := by
  rw [dropDatabase_eq hs]
  split
  · exact .refl hs
  · next d hd =>
    split
    · exact .refl hs
    · next hfree =>
      refine commitDrop_changed hs (·.database = d.id)
        (fun r op r' hop hdrops happly => ?_) (fun ref t href ht => ?_) _
      · rcases List.mem_append.mp hop with hop | hop
        · rcases List.mem_map.mp hop with ⟨t, ht, rfl⟩
          exact hdrops.dropTable ((mem_tables_iff hs hd).mp ht).1 happly
        · rw [List.mem_singleton.mp hop] at happly
          exact hdrops.dropDatabase (fun _ href => href) happly
      · have href' := hs.refs ref t ht
        subst href'
        exact not_written (List.find?_eq_none.mp hfree t ((mem_tables_iff hs hd).mpr ⟨href, ht⟩))

end Store

/-! ### Sessions -/

namespace Session

variable {s s' : Store} {session session' : Session} {base : Table}

/-- A session whose table is as it was when the session began. Its own chunks have numbers of
    their own, and its schema has grown from that of the table. -/
structure Based (s : Store) (base : Table) (session : Session) : Prop where
  table : s.catalog.table? session.ref = some base
  written : session.ref ∈ s.writers
  grown : base.schema.GrownFrom session.schema
  unchanged : session.schemaChanged = false → session.schema = base.schema
  begun : ∀ c ∈ session.staged, c.chunk < s.registry.nextChunk
  apart : ∀ c ∈ session.staged, ∀ c' ∈ base.chunks, c.chunk ≠ c'.chunk

-- What a session has stays when others change the store.
theorem Based.later (h : Based s base session)
    (ht : s'.catalog.table? session.ref = s.catalog.table? session.ref)
    (hw : session.ref ∈ s'.writers) (hle : s.registry.nextChunk ≤ s'.registry.nextChunk) :
    Based s' base session where
  table := ht.trans h.table
  written := hw
  grown := h.grown
  unchanged := h.unchanged
  begun := fun c hc => Nat.lt_of_lt_of_le (h.begun c hc) hle
  apart := h.apart

theorem accept_staged {options : MergeOptions} {document : Json}
    (haccept : session.accept options document = .ok session') :
    session'.ref = session.ref ∧ session'.staged = session.staged ∧
      session.schema.GrownFrom session'.schema ∧
      (session'.schemaChanged = false →
        session.schemaChanged = false ∧ session'.schema = session.schema) := by
  rcases Outcome.bind_eq_ok.mp haccept with ⟨merged, hmerge, hrest⟩
  rcases Outcome.bind_eq_ok.mp hrest with ⟨streams, -, hsession⟩
  simp only [pure, Except.pure, Except.ok.injEq] at hsession
  subst hsession
  refine ⟨rfl, rfl, Schema.GrownFrom.merge hmerge, fun hunchanged => ?_⟩
  rw [Bool.or_eq_false_iff, Option.isSome_eq_false_iff, Option.isNone_iff_eq_none] at hunchanged
  rw [hunchanged.2]
  exact ⟨hunchanged.1, rfl⟩

theorem Based.accept (h : Based s base session) {options : MergeOptions} {document : Json}
    (haccept : session.accept options document = .ok session') : Based s base session' := by
  rcases accept_staged haccept with ⟨href, hstaged, hgrown, hunchanged⟩
  refine ⟨href ▸ h.table, href ▸ h.written, h.grown.trans hgrown, fun hsame => ?_,
    hstaged ▸ h.begun, hstaged ▸ h.apart⟩
  rw [(hunchanged hsame).2]
  exact h.unchanged (hunchanged hsame).1

-- A chunk that was written has the next number, and no other session gets it.
theorem flush_cases (session : Session) (s : Store) :
    (session.flush s).2.1 = session ∨
      ∃ count columns, (session.flush s).2.2 = .ok () ∧
        (session.flush s).2.1 = session.stage ⟨s.registry.nextChunk, count, columns⟩ ∧
        (session.flush s).1.registry.nextChunk = s.registry.nextChunk + 1 := by
  have hflushes := session.flush_spec s
  generalize session.flush s = answer at hflushes ⊢
  cases hflushes with
  | empty | refused | failed => exact Or.inl rfl
  | written => exact Or.inr ⟨_, _, rfl, rfl, rfl⟩

theorem Based.flush (h : Based s base session) (hb : s.registry.Below) :
    Based (session.flush s).1 base (session.flush s).2.1 := by
  rcases session.flush_follows s with ⟨hfollows, hwriters, hcatalog, -⟩
  have hlater : Based (session.flush s).1 base session :=
    h.later (by rw [hcatalog]) (hwriters ▸ h.written) hfollows.next
  rcases session.flush_cases s with hsame | ⟨count, columns, -, hstaged, hnext⟩
  · rw [hsame]
    exact hlater
  · rw [hstaged]
    refine ⟨hlater.table, hlater.written, h.grown, h.unchanged, fun c hc => ?_,
      fun c hc c' hc' => ?_⟩
    · rcases List.mem_append.mp hc with hc | hc
      · exact hlater.begun c hc
      · rw [List.mem_singleton.mp hc, hnext]
        exact Nat.lt_succ_self _
    · rcases List.mem_append.mp hc with hc | hc
      · exact h.apart c hc c' hc'
      · rw [List.mem_singleton.mp hc]
        exact Nat.ne_of_gt (hb _ _ h.table c' hc')

theorem Based.insert (h : Based s base session) (hb : s.registry.Below) (document : Json) :
    Based (session.insert s document).1 base (session.insert s document).2.1 := by
  rw [Session.insert]
  cases haccept : session.accept s.options.mergeOptions document with
  | error e => exact h
  | ok accepted =>
      by_cases hfull : s.options.targetChunkSize ≤ accepted.buffer.estimatedSize
      · simp only [if_pos hfull]
        exact (h.accept haccept).flush hb
      · simp only [if_neg hfull]
        exact h.accept haccept

/-- What adding a document to a session leaves alone. -/
structure Beside (s s' : Store) : Prop where
  catalog : s'.catalog = s.catalog
  writers : s'.writers = s.writers
  next : s.registry.nextChunk ≤ s'.registry.nextChunk

theorem setVolume_beside (s : Store) (v : Volume) : Beside s (s.setVolume v) :=
  ⟨rfl, rfl, Nat.le_refl _⟩

theorem flush_beside (session : Session) (s : Store) : Beside s (session.flush s).1 := by
  rcases session.flush_follows s with ⟨hfollows, hwriters, hcatalog, -⟩
  exact ⟨hcatalog, hwriters, hfollows.next⟩

theorem insert_beside (session : Session) (s : Store) (document : Json) :
    Beside s (session.insert s document).1 ∧ (session.insert s document).2.1.ref = session.ref := by
  rw [Session.insert]
  cases haccept : session.accept s.options.mergeOptions document with
  | error e => exact ⟨⟨rfl, rfl, Nat.le_refl _⟩, rfl⟩
  | ok accepted =>
      have href := (accept_staged haccept).1
      by_cases hfull : s.options.targetChunkSize ≤ accepted.buffer.estimatedSize
      · simp only [if_pos hfull]
        exact ⟨accepted.flush_beside s, (accepted.flush_follows s).2.2.2.trans href⟩
      · simp only [if_neg hfull]
        exact ⟨⟨rfl, rfl, Nat.le_refl _⟩, href⟩

/-! ### Ends of sessions -/

/-- A store after a session has ended: its table is free, and no other has changed. -/
structure Leaves (s : Store) (session : Session) (s' : Store) : Prop where
  sound : s'.catalog.Sound
  next : s.registry.nextChunk ≤ s'.registry.nextChunk
  writers : s'.writers = s.writers.filter (· ≠ session.ref)
  others : ∀ other, other ≠ session.ref → s'.catalog.table? other = s.catalog.table? other

-- Without a commit the catalog is as it was.
theorem leaves_of_same (hs : s.catalog.Sound) (hc : s'.catalog = s.catalog)
    (hnext : s.registry.nextChunk ≤ s'.registry.nextChunk)
    (hw : s'.writers = s.writers.filter (· ≠ session.ref)) : Leaves s session s' where
  sound := hc ▸ hs
  next := hnext
  writers := hw
  others := fun _ _ => by rw [hc]

theorem discard_leaves (session : Session) (hs : s.catalog.Sound) :
    Leaves s session (session.discard s) ∧ (session.discard s).catalog = s.catalog :=
  ⟨leaves_of_same hs rfl (Nat.le_refl _) rfl, rfl⟩

theorem abort_leaves (session : Session) (hs : s.catalog.Sound) :
    Leaves s session (session.abort s).1 ∧ (session.abort s).1.catalog = s.catalog :=
  ⟨leaves_of_same hs rfl (Nat.le_refl _) rfl, rfl⟩

-- The operations of a session fit its table, so a commit fails only if it cannot be written.
theorem Based.commit (h : Based s base session) (hs : s.catalog.Sound) :
    (session.commit s).1.catalog.Sound ∧
    s.registry.nextChunk ≤ (session.commit s).1.registry.nextChunk ∧
    (session.commit s).1.writers = s.writers ∧
    (∀ other, other ≠ session.ref →
      (session.commit s).1.catalog.table? other = s.catalog.table? other) ∧
    ((session.commit s).2 = .ok () ∧
        (session.commit s).1.catalog.table? session.ref = some (session.committed base) ∨
      (∃ e, (session.commit s).2 = .error e) ∧ (session.commit s).1.catalog = s.catalog) := by
  rcases commit_applies hs h.table h.unchanged h.begun with
    ⟨r, -, hreplaced, hfollows, hwriters, ⟨hok, hregistry⟩ | ⟨-, herror, hregistry⟩⟩
  · have hcatalog : (session.commit s).1.catalog = r.catalog := by rw [Store.catalog, hregistry]
    rw [hcatalog]
    exact ⟨hreplaced.sound, hfollows.next, hwriters, hreplaced.others,
      Or.inl ⟨hok, hreplaced.table⟩⟩
  · have hcatalog : (session.commit s).1.catalog = s.catalog := by
      rw [Store.catalog, hregistry]
      rfl
    exact ⟨hcatalog ▸ hs, hfollows.next, hwriters, fun _ _ => by rw [hcatalog],
      Or.inr ⟨herror, hcatalog⟩⟩

-- Neither the commit nor the end of a session gives a number back.
theorem close_next (session : Session) (s : Store) :
    (session.flush s).1.registry.nextChunk ≤ (session.close s).1.registry.nextChunk := by
  rw [Session.close]
  rcases session.flush s with ⟨s₁, flushed, e | _⟩
  · exact Nat.le_refl _
  · have hcommit : s₁.registry.nextChunk ≤ (flushed.commit s₁).1.registry.nextChunk := by
      rw [Session.commit]
      split
      · exact Nat.le_refl _
      · split
        · exact Nat.le_refl _
        · exact (Store.commit_cases (fun _ => True) s₁ flushed.operations).1.next
    simp only
    rcases hcommitted : flushed.commit s₁ with ⟨s₂, e | _⟩
    · rw [hcommitted] at hcommit
      exact hcommit
    · rw [hcommitted] at hcommit
      exact hcommit

/-- A session that is closed makes its table what it began with and has added since. If the
    session cannot be closed, the catalog is as it was. -/
theorem Based.close (h : Based s base session) (hs : s.catalog.Sound) (hb : s.registry.Below) :
    Leaves s session (session.close s).1 ∧
    ((session.close s).2 = .ok () ∧ (session.close s).1.catalog.table? session.ref =
          some ((session.flush s).2.1.committed base) ∨
      (∃ e, (session.close s).2 = .error e) ∧ (session.close s).1.catalog = s.catalog) := by
  have hflushed := h.flush hb
  have href := (session.flush_follows s).2.2.2
  rcases session.flush_beside s with ⟨hcatalog, hwriters, hnext⟩
  rw [Session.close]
  rcases hflush : session.flush s with ⟨s₁, flushed, result⟩
  rw [hflush] at hflushed href hcatalog hwriters hnext
  simp only at hflushed href hcatalog hwriters hnext
  have hsound : s₁.catalog.Sound := hcatalog ▸ hs
  cases result with
  | error e =>
      refine ⟨leaves_of_same hs hcatalog hnext ?_, Or.inr ⟨⟨e, rfl⟩, hcatalog⟩⟩
      rw [← hwriters, ← href]
      rfl
  | ok _ =>
      rcases hflushed.commit hsound with ⟨hsound', hnext', hwriters', hothers, hcases⟩
      simp only
      rcases hcommit : flushed.commit s₁ with ⟨s₂, outcome⟩
      rw [hcommit] at hsound' hnext' hwriters' hothers hcases
      have hleft : ∀ s₃ : Store, s₃.registry = s₂.registry →
          s₃.writers = s₂.writers.filter (· ≠ flushed.ref) → Leaves s session s₃ := by
        intro s₃ hregistry hfree
        refine ⟨?_, ?_, ?_, fun other hne => ?_⟩
        · rw [Store.catalog, hregistry]
          exact hsound'
        · rw [hregistry]
          exact Nat.le_trans hnext hnext'
        · rw [hfree, hwriters', hwriters, href]
        · rw [Store.catalog, hregistry]
          exact (hothers other (href ▸ hne)).trans (by rw [hcatalog])
      rcases hcases with ⟨rfl, htable⟩ | ⟨⟨e, rfl⟩, hsame⟩
      · exact ⟨hleft _ rfl rfl, Or.inl ⟨rfl, href ▸ htable⟩⟩
      · exact ⟨hleft _ rfl rfl, Or.inr ⟨⟨e, rfl⟩, hsame.trans hcatalog⟩⟩

end Session

end NestedColumns
