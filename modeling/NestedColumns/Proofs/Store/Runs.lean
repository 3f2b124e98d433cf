import NestedColumns.Proofs.Store.Locking
import NestedColumns.Proofs.Store.Usage

/-!
# Every call leaves an engine sound

The calls fall into three kinds. Those that change the catalog leave every table as it
is, make an empty one, or drop some that have no session. Those to a session change what it
holds, and only its end makes that the table's or removes it. Reading a table keeps pages
of it.

## Theorems

* `Usage.Sound.onStore`, `Usage.Sound.onSession`, `Usage.Sound.onEnd`: The kinds of calls.
* `Usage.Sound.call`, `Usage.Sound.run`: A call, and many of them.
-/

namespace NestedColumns

open Store (Follows Outside Spares)

namespace Usage

variable {u : Usage} {bodies bodies' : PageKey → Option (List UInt8)} {spared : Path → Prop}
  {s : Store} {ref : TableRef} {session session' : Session} {documents : List Taken}

theorem Sound.ref_eq (h : u.Sound bodies) {t : Table}
    (ht : u.store.catalog.table? ref = some t) : t.ref = ref :=
  h.store.catalog.refs ref t ht

-- An empty table holds nothing.
theorem tableHolds_empty (s : Store) (bodies : PageKey → Option (List UInt8)) (ref : TableRef)
    (name : String) : s.TableHolds bodies (.empty ref name) [] where
  schema := Schema.sound_empty _
  under := fun _ hx => absurd hx List.not_mem_nil
  begun := fun _ hc => absurd hc List.not_mem_nil
  chunks := ⟨[], rfl, .nil⟩

theorem Sound.onStore (h : u.Sound bodies) (hf : Follows spared u.store s)
    (hup : ∀ path, path <+: u.store.options.directory ∨ path = u.store.options.logPath → spared path)
    (hc : s.catalog.Sound) (hw : s.writers = u.store.writers)
    (htables : ∀ ref t, s.catalog.table? ref = some t →
      u.store.catalog.table? ref = some t ∧
          (∀ id path, u.store.options.chunkPath ref id <+: path → spared path) ∨
        u.store.catalog.table? ref = none ∧ ∃ name, t = .empty ref name)
    (hsessions : ∀ ref t, ref ∈ u.store.writers → u.store.catalog.table? ref = some t →
      s.catalog.table? ref = some t) : (u.onStore s).Sound bodies where
  store := h.store.follows hf hup hc
  tables := fun ref t ht => by
    have hkept : (u.onStore s).kept ref = u.kept ref := by
      have hsome : (s.catalog.table? ref).isSome = true := Option.isSome_iff_exists.mpr ⟨t, ht⟩
      rw [Usage.onStore]
      simp only [hsome, if_true]
    rw [hkept]
    rcases htables ref t ht with ⟨hold, hspared⟩ | ⟨hnone, name, rfl⟩
    · refine (h.tables ref t hold).follows hf (fun c _ path hp => ?_) fun _ _ => rfl
      exact hspared c.chunk path (h.ref_eq hold ▸ hp)
    · rw [h.gone ref hnone]
      exact tableHolds_empty s bodies ref name
  gone := fun ref hnone => by
    have hnone' : (s.catalog.table? ref).isSome = false := Option.isSome_eq_false_iff.mpr
      (Option.isNone_iff_eq_none.mpr hnone)
    rw [Usage.onStore]
    simp only [hnone', Bool.false_eq_true, if_false]
  sessions := fun ref session hsession => by
    rcases h.sessions ref session hsession with ⟨hin, t, ht, hholds⟩
    have ht' := hsessions ref t hin ht
    have hwriters : ref ∈ s.writers := hw ▸ hin
    refine ⟨hwriters, t, ht', hholds.follows hf (fun c _ path hp => ?_) fun _ _ => rfl⟩
    rw [hholds.ref, h.ref_eq ht] at hp
    rcases htables ref t ht' with ⟨-, hspared⟩ | ⟨hnone, -⟩
    · exact hspared c.chunk path hp
    · rw [ht] at hnone
      cases hnone

-- A call that is refused changes nothing.
theorem Sound.refused (h : u.Sound bodies) : (u.onStore u.store).Sound bodies :=
  h.onStore (.refl (fun _ => True) _) (fun _ _ => trivial) h.store.catalog rfl
    (fun _ _ ht => Or.inl ⟨ht, fun _ _ _ => trivial⟩) fun _ _ _ ht => ht

theorem Sound.onSession (h : u.Sound bodies) (hf : Follows (fun _ => True) u.store s)
    (hc : s.catalog = u.store.catalog) (hw : ∀ other ∈ u.store.writers, other ∈ s.writers)
    (hs : s.Sound bodies')
    (hb : ∀ key : PageKey, key.chunk < u.store.registry.nextChunk → bodies' key = bodies key)
    (hin : ref ∈ s.writers) {t : Table} (ht : u.store.catalog.table? ref = some t)
    (hholds : s.SessionHolds bodies' t session documents) :
    Usage.Sound ⟨s, Function.update u.sessions ref (some session),
      Function.update u.taken ref documents, u.kept⟩ bodies' where
  store := hs
  tables := fun other t ht => by
    have hold : u.store.catalog.table? other = some t := hc ▸ ht
    exact (h.tables other t hold).follows hf (fun _ _ _ _ => trivial) hb
  gone := fun other hnone => h.gone other (hc ▸ hnone)
  sessions := fun other session' hsession => by
    have hcatalog : s.catalog.table? = u.store.catalog.table? := by rw [hc]
    simp only [hcatalog]
    by_cases hsame : other = ref
    · subst hsame
      simp only [Function.update_self, Option.some.injEq] at hsession ⊢
      rw [← hsession]
      exact ⟨hin, t, ht, hholds⟩
    · simp only [Function.update_of_ne hsame] at hsession ⊢
      rcases h.sessions other session' hsession with ⟨hin', t', ht', hholds'⟩
      exact ⟨hw other hin', t', ht', hholds'.follows hf (fun _ _ _ _ => trivial) hb⟩

theorem Sound.onEnd (h : u.Sound bodies) (hf : Follows spared u.store s) (hs : s.Sound bodies')
    (hb : ∀ key : PageKey, key.chunk < u.store.registry.nextChunk → bodies' key = bodies key)
    (hothers : ∀ other, other ≠ ref →
      s.catalog.table? other = u.store.catalog.table? other ∧
        (other ∈ u.store.writers → other ∈ s.writers) ∧
          ∀ id path, u.store.options.chunkPath other id <+: path → spared path)
    {t : Table} (ht : s.catalog.table? ref = some t)
    (hholds : s.TableHolds bodies' t (u.kept ref ++ documents)) :
    (u.onEnd ref documents s).Sound bodies' where
  store := hs
  tables := fun other t' ht' => by
    rw [Usage.onEnd] at ht' ⊢
    by_cases hsame : other = ref
    · subst hsame
      rw [ht, Option.some.injEq] at ht'
      simp only [Function.update_self]
      rw [← ht']
      exact hholds
    · rcases hothers other hsame with ⟨hcatalog, -, hspared⟩
      simp only [Function.update_of_ne hsame]
      have hold : u.store.catalog.table? other = some t' := hcatalog ▸ ht'
      refine (h.tables other t' hold).follows hf (fun c _ path hp => ?_) hb
      exact hspared c.chunk path (h.ref_eq hold ▸ hp)
  gone := fun other hnone => by
    rw [Usage.onEnd] at hnone ⊢
    by_cases hsame : other = ref
    · rw [hsame, ht] at hnone
      cases hnone
    · simp only [Function.update_of_ne hsame]
      exact h.gone other ((hothers other hsame).1 ▸ hnone)
  sessions := fun other session' hsession => by
    rw [Usage.onEnd] at hsession ⊢
    by_cases hsame : other = ref
    · rw [hsame] at hsession
      simp only [Function.update_self, reduceCtorEq] at hsession
    · rcases hothers other hsame with ⟨hcatalog, hwriters, hspared⟩
      simp only [Function.update_of_ne hsame] at hsession ⊢
      rcases h.sessions other session' hsession with ⟨hin', t', ht', hholds'⟩
      refine ⟨hwriters hin', t', hcatalog ▸ ht', hholds'.follows hf (fun c _ path hp => ?_) hb⟩
      rw [hholds'.ref, h.ref_eq ht'] at hp
      exact hspared c.chunk path hp

/-! ### The catalog -/

theorem commit_registry {P : Registry → Prop} {ops : List Operation} (s : Store)
    (h : P s.registry) (hstep : ∀ (r : Registry) (op : Operation) (r' : Registry), op ∈ ops →
      P r → r.apply op = .ok r' → P r') : P (s.commit ops).1.registry := by
  rcases (Store.commit_cases (fun _ => True) s ops).2.2 with ⟨hregistry, -⟩ | ⟨hregistry, -⟩
  · rw [hregistry]
    exact Registry.applyAll_induction hstep h
  · rw [hregistry]
    exact h

theorem Sound.commit_new (h : u.Sound bodies) {ops : List Operation}
    (hstep : ∀ (r : Registry) (op : Operation) (r' : Registry), op ∈ ops →
      u.store.registry.Adds r → r.apply op = .ok r' → u.store.registry.Adds r') :
    (u.onStore (u.store.commit ops).1).Sound bodies := by
  rcases Store.commit_cases (fun _ => True) u.store ops with ⟨hfollows, hwriters, -⟩
  have hadds : u.store.registry.Adds (u.store.commit ops).1.registry :=
    commit_registry u.store (.refl h.store.catalog) hstep
  refine h.onStore hfollows (fun _ _ => trivial) hadds.sound hwriters (fun ref t ht => ?_)
    fun ref t _ ht => hadds.old ref t ht
  rcases hadds.new ref t ht with hold | hnew
  · exact Or.inl ⟨hold, fun _ _ _ => trivial⟩
  · exact Or.inr hnew

theorem Sound.createDatabase (h : u.Sound bodies) (name : String) :
    (u.onStore (u.store.createDatabase name).1).Sound bodies := by
  rw [Store.createDatabase]
  split
  · exact h.refused
  · split
    · exact h.refused
    · refine h.commit_new fun r op r' hop hadds happly => ?_
      rw [List.mem_singleton.mp hop] at happly
      exact hadds.createDatabase happly

theorem Sound.createTable (h : u.Sound bodies) (database name : String) :
    (u.onStore (u.store.createTable database name).1).Sound bodies := by
  rw [Store.createTable]
  split
  · exact h.refused
  · split
    · exact h.refused
    · split
      · exact h.refused
      · refine h.commit_new fun r op r' hop hadds happly => ?_
        rw [List.mem_singleton.mp hop] at happly
        exact hadds.createTable happly

-- The directory that is removed is that of the tables that are dropped, none of which has
-- a session. If the operations do not all fit, nothing is removed.
theorem Sound.commitDrop (h : u.Sound bodies) {ops : List Operation} {directory : Path}
    (dropped : TableRef → Prop)
    (hstep : ∀ (r : Registry) (op : Operation) (r' : Registry), op ∈ ops →
      u.store.registry.Drops dropped r → r.apply op = .ok r' → u.store.registry.Drops dropped r')
    (hall : ∀ r', u.store.registry.applyAll ops = (r', .ok ()) →
      ∀ ref, dropped ref → r'.catalog.table? ref = none)
    (hfree : ∀ ref t, dropped ref → u.store.catalog.table? ref = some t → ref ∉ u.store.writers)
    (hup : ∀ path, path <+: u.store.options.directory ∨ path = u.store.options.logPath →
      ¬ directory <+: path)
    (hown : ∀ ref id path, u.store.options.chunkPath ref id <+: path → directory <+: path →
      dropped ref) : (u.onStore (u.store.commitDrop ops directory).1).Sound bodies := by
  rcases Store.commit_cases (Outside [directory]) u.store ops with ⟨hfollows, hwriters, hcases⟩
  rcases Store.commit_reliable h.store.reliable ops with ⟨hregistry, hresult⟩
  have hdrops : u.store.registry.Drops dropped (u.store.commit ops).1.registry :=
    commit_registry u.store (.refl h.store.catalog) hstep
  have hsessions : ∀ ref t, ref ∈ u.store.writers → u.store.catalog.table? ref = some t →
      (u.store.commit ops).1.catalog.table? ref = some t := by
    intro ref t hin ht
    rcases hdrops.rest ref with hsame | ⟨hdropped, -⟩
    · exact hsame.trans ht
    · exact absurd hin (hfree ref t hdropped ht)
  have hrest : ∀ ref t, (u.store.commit ops).1.catalog.table? ref = some t →
      u.store.catalog.table? ref = some t := by
    intro ref t ht
    rcases hdrops.rest ref with hsame | ⟨-, hnone⟩
    · exact hsame.symm.trans ht
    · have hnone' : (u.store.commit ops).1.catalog.table? ref = none := hnone
      rw [ht] at hnone'
      cases hnone'
  have houtside : ∀ path, path <+: u.store.options.directory ∨
      path = u.store.options.logPath → Outside [directory] path := by
    intro path hpath p hp
    rw [List.mem_singleton.mp hp]
    exact hup path hpath
  rw [Store.commitDrop]
  rcases hcommit : u.store.commit ops with ⟨after, result⟩
  rw [hcommit] at hfollows hwriters hregistry hresult hdrops hsessions hrest
  cases result with
  | error e =>
      have hall' : Follows (fun _ => True) u.store after := by
        have hfollows' := (Store.commit_cases (fun _ => True) u.store ops).1
        rwa [hcommit] at hfollows'
      exact h.onStore hall' (fun _ _ => trivial) hdrops.sound hwriters
        (fun ref t ht => Or.inl ⟨hrest ref t ht, fun _ _ _ => trivial⟩) hsessions
  | ok _ =>
      have happlied : u.store.registry.applyAll ops = (after.registry, .ok ()) :=
        Prod.ext hregistry.symm (Outcome.mapError_eq_ok.mp hresult.symm)
      refine h.onStore (hfollows.trans (Store.discardTrees_follows after [directory])) houtside
        hdrops.sound hwriters (fun ref t ht => Or.inl ⟨hrest ref t ht, fun id path hp => ?_⟩)
        hsessions
      intro p hp' hprefix
      rw [List.mem_singleton.mp hp'] at hprefix
      have hnone : after.catalog.table? ref = none :=
        hall after.registry happlied ref (hown ref id path hp hprefix)
      have hsome : after.catalog.table? ref = some t := ht
      rw [hnone] at hsome
      cases hsome

theorem Sound.dropTable (h : u.Sound bodies) (database name : String) :
    (u.onStore (u.store.dropTable database name).1).Sound bodies := by
  rw [Store.dropTable_eq]
  split
  · exact h.refused
  · next t _ =>
    split
    · exact h.refused
    · next hfree =>
      refine h.commitDrop (· = t.ref) (fun r op r' hop hdrops happly => ?_)
        (fun r' hall ref href => ?_) (fun ref _ href _ hin => ?_) (fun path hpath hprefix => ?_)
        fun ref id path hp hprefix => ?_
      · rw [List.mem_singleton.mp hop] at happly
        exact hdrops.dropTable rfl happly
      · have hone : u.store.registry.applyAll ([] ++ [Operation.dropTable t.ref]) = (r', .ok ()) := hall
        rw [href]
        exact Registry.gone_of_dropTable h.store.catalog hone
      · rw [href] at hin
        exact hfree (List.contains_iff_mem.mpr hin)
      · exact StoreOptions.outside_database
          ((StoreOptions.database_prefix_table _ t.ref).trans hprefix) hpath
      · exact StoreOptions.table_unique ((StoreOptions.table_prefix_chunk _ ref id).trans hp) hprefix

-- A table with a writer keeps its whole database from being dropped.
theorem Sound.dropDatabase (h : u.Sound bodies) (name : String) :
    (u.onStore (u.store.dropDatabase name).1).Sound bodies := by
  rw [Store.dropDatabase_eq h.store.catalog]
  split
  · exact h.refused
  · next d hd =>
    split
    · exact h.refused
    · next hfree =>
      refine h.commitDrop (·.database = d.id) (fun r op r' hop hdrops happly => ?_)
        (fun r' hall => Registry.gone_of_dropDatabase h.store.catalog hall)
        (fun ref t href ht hwritten => ?_)
        (fun path hpath hprefix => StoreOptions.outside_database hprefix hpath)
        fun ref id path hp hprefix => ?_
      · rcases List.mem_append.mp hop with hop | hop
        · rcases List.mem_map.mp hop with ⟨t, ht, rfl⟩
          exact hdrops.dropTable ((Store.mem_tables_iff h.store.catalog hd).mp ht).1 happly
        · rw [List.mem_singleton.mp hop] at happly
          exact hdrops.dropDatabase (fun _ href => href) happly
      · have href' := h.ref_eq ht
        subst href'
        exact Store.not_written (List.find?_eq_none.mp hfree t
          ((Store.mem_tables_iff h.store.catalog hd).mpr ⟨href, ht⟩)) hwritten
      · exact StoreOptions.database_unique
          ((StoreOptions.database_prefix_chunk _ ref id).trans hp) hprefix

/-! ### Sessions -/

-- A session that was just opened holds nothing.
theorem sessionHolds_new {t : Table} (h : s.TableHolds bodies t documents) :
    s.SessionHolds bodies t ⟨t.ref, t.name, t.schema, false, .empty, [], 0⟩ [] where
  ref := rfl
  schema := h.schema
  grown := .refl _
  unchanged := fun _ => rfl
  under := fun _ hx => absurd hx List.not_mem_nil
  begun := fun _ hc => absurd hc List.not_mem_nil
  apart := fun _ hc => absurd hc List.not_mem_nil
  held := ⟨[], [], [], rfl, ⟨[], rfl, .nil⟩, .nil, ChunkBuffer.holds_empty⟩

theorem Sound.openSession (h : u.Sound bodies) (database name : String) :
    (u.call (.openSession database name)).1.Sound bodies := by
  rw [call, Store.openSession_eq]
  cases ht : u.store.tableNamed database name with
  | error e => exact h.refused
  | ok t =>
      by_cases hwritten : u.store.isWritten t.ref = true
      · simp only [if_pos hwritten]
        exact h.refused
      · simp only [if_neg hwritten]
        have hin := Store.table?_of_tableNamed h.store.catalog ht
        have hf := Store.setWriters_follows (fun _ => True) u.store (t.ref :: u.store.writers)
        have hholds := (h.tables t.ref t hin).follows hf (fun _ _ _ _ => trivial) fun _ _ => rfl
        exact h.onSession hf rfl (fun _ hother => List.mem_cons_of_mem _ hother)
          (h.store.follows hf (fun _ _ => trivial) h.store.catalog) (fun _ _ => rfl)
          List.mem_cons_self hin (sessionHolds_new hholds)

-- A document that is refused leaves the session as it was; one that is accepted is held,
-- in memory or in a chunk.
theorem Sound.insert (h : u.Sound bodies) (hsession : u.sessions ref = some session)
    (document : Json) : ∃ bodies',
      (u.onInsert ref (some document) (session.insert u.store document)).1.Sound bodies' := by
  rcases h.sessions ref session hsession with ⟨hin, t, ht, hholds⟩
  rw [Session.insert]
  cases haccept : session.accept u.store.options.mergeOptions document with
  | error e =>
      have hsame : Function.update u.sessions ref (some session) = u.sessions := by
        rw [← hsession, Function.update_eq_self]
      simp only [onInsert, hsame]
      exact ⟨bodies, h⟩
  | ok accepted =>
      rcases Session.accept_holds hholds haccept with ⟨haccepted, -⟩
      by_cases hfull : u.store.options.targetChunkSize ≤ accepted.buffer.estimatedSize
      · rcases Session.flush_holds h.store haccepted (h.tables ref t ht).begun with
          ⟨s, flushed, bodies', hflush, hf, hcatalog, hwriters, hs, hb, hflushed, -, -, hschema⟩
        simp only [if_pos hfull, hflush, onInsert, hschema]
        exact ⟨bodies', h.onSession hf hcatalog (fun _ hother => hwriters ▸ hother) hs hb
          (hwriters ▸ hin) ht hflushed⟩
      · simp only [if_neg hfull, onInsert]
        exact ⟨bodies, h.onSession (.refl ..) rfl (fun _ hother => hother) h.store
          (fun _ _ => rfl) hin ht haccepted⟩

-- A text that is no document is like a document that is refused.
theorem Sound.insertText (h : u.Sound bodies) (hsession : u.sessions ref = some session)
    (bytes : List UInt8) : ∃ bodies',
      (u.onInsert ref (Json.read? (Utf8.readWith '\x00' bytes)).toOption
        (session.insertText u.store bytes)).1.Sound bodies' := by
  rw [Session.insertText]
  cases Json.read? (Utf8.readWith '\x00' bytes) with
  | error fault =>
      have hsame : Function.update u.sessions ref (some session) = u.sessions := by
        rw [← hsession, Function.update_eq_self]
      simp only [onInsert, hsame]
      exact ⟨bodies, h⟩
  | ok document => exact h.insert hsession document

theorem Sound.close (h : u.Sound bodies) (hsession : u.sessions ref = some session) :
    ∃ s bodies', session.close u.store = (s, .ok ()) ∧
      (u.onEnd ref (u.taken ref) s).Sound bodies' := by
  rcases h.sessions ref session hsession with ⟨hin, t, ht, hholds⟩
  have href : t.ref = ref := h.ref_eq ht
  rcases Session.flush_holds h.store hholds (h.tables ref t ht).begun with
    ⟨s₁, flushed, bodies', hflush, hf₁, hcatalog, hwriters, hs₁, hb, hflushed, hempty, hsame, -⟩
  have htable : s₁.catalog.table? t.ref = some t := by
    rw [hcatalog, href]
    exact ht
  have hkept := (h.tables ref t ht).follows hf₁ (fun _ _ _ _ => trivial) hb
  rcases Session.commit_holds hs₁ hflushed htable hkept hempty with
    ⟨s₂, t', hcommit, hf₂, hwriters₂, hs₂, ht', hothers, hholds'⟩
  have hf₃ := Store.setWriters_follows (fun _ => True) s₂ (s₂.writers.filter (· ≠ flushed.ref))
  have hf := (hf₁.trans hf₂).trans hf₃
  refine ⟨flushed.release s₂, bodies', ?_, h.onEnd hf
    (hs₂.follows hf₃ (fun _ _ => trivial) hs₂.catalog) hb (fun other hne => ?_) (t := t') ?_
      (hholds'.follows hf₃ (fun _ _ _ _ => trivial) fun _ _ => rfl)⟩
  · rw [Session.close, hflush]
    simp only [hcommit]
  · refine ⟨?_, fun hother => List.mem_filter.mpr ⟨?_, ?_⟩, fun _ _ _ => trivial⟩
    · rw [← href] at hne
      exact (hothers other hne).trans (by rw [hcatalog])
    · rw [hwriters₂, hwriters]
      exact hother
    · rw [hsame, hholds.ref, href]
      exact decide_eq_true hne
  · rw [← href]
    exact ht'

-- Only the chunks of the session itself are removed.
theorem Sound.onRemoved (h : u.Sound bodies) (hsession : u.sessions ref = some session)
    (hf : Follows (Outside (session.stagedPaths u.store.options)) u.store s)
    (hc : s.catalog = u.store.catalog) (hw : s.writers = u.store.writers) :
    (u.onEnd ref [] (session.release s)).Sound bodies := by
  rcases h.sessions ref session hsession with ⟨hin, t, ht, hholds⟩
  have href : t.ref = ref := h.ref_eq ht
  have hf' := hf.trans (Store.setWriters_follows _ s (s.writers.filter (· ≠ session.ref)))
  have hpath : ∀ p ∈ session.stagedPaths u.store.options, ∃ c ∈ session.staged,
      p = u.store.options.chunkPath ref c.chunk := by
    intro p hp
    rcases List.mem_map.mp hp with ⟨c, hstaged, heq⟩
    rw [hholds.ref, href] at heq
    exact ⟨c, hstaged, heq.symm⟩
  have hup : ∀ path, path <+: u.store.options.directory ∨ path = u.store.options.logPath →
      Outside (session.stagedPaths u.store.options) path := by
    intro path hup p hp hprefix
    rcases hpath p hp with ⟨c, -, rfl⟩
    exact StoreOptions.outside_database
      ((StoreOptions.database_prefix_chunk _ ref c.chunk).trans hprefix) hup
  refine h.onEnd hf' (h.store.follows hf' hup (hc ▸ h.store.catalog)) (fun _ _ => rfl)
    (fun other hne => ⟨by rw [← hc]; rfl, fun hother => List.mem_filter.mpr ⟨hw ▸ hother, ?_⟩,
      fun id path hin p hp hprefix => ?_⟩) (t := t) (hc ▸ ht) ?_
  · rw [hholds.ref, href]
    exact decide_eq_true hne
  · rcases hpath p hp with ⟨c, -, rfl⟩
    exact hne (StoreOptions.chunk_unique hin hprefix).1
  · rw [List.append_nil]
    refine (h.tables ref t ht).follows hf' (fun c' hc' path hin p hp hprefix => ?_) fun _ _ => rfl
    rcases hpath p hp with ⟨c, hstaged, rfl⟩
    exact hholds.apart c hstaged c' hc' (StoreOptions.chunk_unique hprefix hin).2

/-! ### Reading -/

theorem Sound.setVolume {v : Volume} (h : u.Sound bodies) (hv : v.disk = u.store.disk)
    (hright : v.Right bodies) :
    Usage.Sound ⟨u.store.setVolume v, u.sessions, u.taken, u.kept⟩ bodies where
  store := h.store.setVolume hv hright
  tables := fun ref t ht => (h.tables ref t ht).setVolume hv
  gone := h.gone
  sessions := fun ref session hsession => by
    rcases h.sessions ref session hsession with ⟨hin, t, ht, hholds⟩
    exact ⟨hin, t, ht, hholds.setVolume hv⟩

theorem Sound.records (h : u.Sound bodies) (hsmall : u.Small) (database name : String)
    (paths : List String) : (u.call (.records database name paths)).1.Sound bodies := by
  rw [call]
  cases ht : u.store.tableNamed database name with
  | error e =>
      rw [Store.records, Store.reader, ht]
      exact h
  | ok t =>
      cases hp : Projection.resolve t.schema paths with
      | error e =>
          rw [Store.records, Store.reader, ht]
          simp only [hp]
          exact h
      | ok p =>
          have hin := Store.table?_of_tableNamed h.store.catalog ht
          rcases Store.records_spec h.store.maxLevel_lt h.store.right (h.tables t.ref t hin)
            (hsmall t.ref t hin) ht hp with ⟨v, records, hrecords, hdisk, hright, -⟩
          rw [hrecords]
          exact h.setVolume hdisk hright

/-! ### Any calls -/

/-- No call changes what tables and sessions hold. -/
theorem Sound.call (h : u.Sound bodies) (hsmall : u.Small) (c : Call) :
    ∃ bodies', (u.call c).1.Sound bodies' := by
  cases c with
  | createDatabase name => exact ⟨bodies, h.createDatabase name⟩
  | dropDatabase name => exact ⟨bodies, h.dropDatabase name⟩
  | createTable database name => exact ⟨bodies, h.createTable database name⟩
  | dropTable database name => exact ⟨bodies, h.dropTable database name⟩
  | openSession database name => exact ⟨bodies, h.openSession database name⟩
  | insert ref document =>
      rw [Usage.call]
      cases hsession : u.sessions ref with
      | none => exact ⟨bodies, h⟩
      | some session => exact h.insert hsession document
  | insertText ref bytes =>
      rw [Usage.call]
      cases hsession : u.sessions ref with
      | none => exact ⟨bodies, h⟩
      | some session => exact h.insertText hsession bytes
  | close ref =>
      rw [Usage.call]
      cases hsession : u.sessions ref with
      | none => exact ⟨bodies, h⟩
      | some session =>
          rcases h.close hsession with ⟨s, bodies', hclose, hsound⟩
          simp only [hclose]
          exact ⟨bodies', hsound⟩
  | abort ref =>
      rw [Usage.call]
      cases hsession : u.sessions ref with
      | none => exact ⟨bodies, h⟩
      | some session =>
          exact ⟨bodies, h.onRemoved hsession (Store.removeTrees_follows _ _) rfl rfl⟩
  | discard ref =>
      rw [Usage.call]
      cases hsession : u.sessions ref with
      | none => exact ⟨bodies, h⟩
      | some session =>
          exact ⟨bodies, h.onRemoved hsession (Store.discardTrees_follows _ _) rfl rfl⟩
  | records database name paths => exact ⟨bodies, h.records hsmall database name paths⟩

/-- An engine in use stays sound as long as the numbers in its files fit. -/
theorem Sound.run (h : u.Sound bodies) {calls : List Call}
    (hsmall : ∀ before, before <+: calls → (u.run before).Small) :
    ∃ bodies', (u.run calls).Sound bodies' := by
  induction calls generalizing u bodies with
  | nil => exact ⟨bodies, h⟩
  | cons c rest ih =>
      rcases h.call (hsmall [] List.nil_prefix) c with ⟨bodies', hnext⟩
      exact ih hnext fun before hbefore =>
        hsmall (c :: before) (List.cons_prefix_cons.mpr ⟨rfl, hbefore⟩)

end Usage

end NestedColumns
