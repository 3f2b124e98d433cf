import NestedColumns.Proofs.Store.Steps

/-!
# What tables and sessions hold

The chunks of a table hold the documents of the sessions that were closed, in order. The
chunks that a session has written, and the documents it has in memory, hold those that it
has accepted. Both last through all operations that spare the chunks, and a session on a
disk that does not fail can always write what it has.

## Main definitions

* `Store.ChunksHold`: Chunks hold documents, one after another.
* `Store.TableHolds`, `Store.SessionHolds`: What a table and a session hold.
* `Store.Sound`: A store that works.

## Theorems

* `Session.accept_holds`: A document that is accepted is held.
* `Session.flush_holds`: What is in memory is written.
* `Session.commit_applies`: A commit is done as a whole or not at all.
* `Session.commit_holds`: What was written becomes the table's.
-/

namespace NestedColumns

open Schema (Node)

namespace Store

/-- Chunks hold documents, one after another. -/
def ChunksHold (s : Store) (bodies : PageKey → Option (List UInt8)) (schema : Schema)
    (ref : TableRef) (chunks : List ChunkInfo) (documents : List Taken) : Prop :=
  ∃ batches, documents = batches.flatten ∧
    List.Forall₂ (ChunkFiles s.options s.log.file s.disk bodies schema ref) chunks batches

/-- A table holds documents, which fit schemas that its own has grown from. -/
structure TableHolds (s : Store) (bodies : PageKey → Option (List UInt8)) (t : Table)
    (documents : List Taken) : Prop where
  schema : t.schema.Sound s.options.maxLevel
  under : ∀ x ∈ documents, x.Under s.options.maxLevel t.schema
  begun : ∀ c ∈ t.chunks, c.chunk < s.registry.nextChunk
  chunks : s.ChunksHold bodies t.schema t.ref t.chunks documents

/-- A session on a table holds documents, in chunks of its own and in memory. -/
structure SessionHolds (s : Store) (bodies : PageKey → Option (List UInt8)) (t : Table)
    (session : Session) (documents : List Taken) : Prop where
  ref : session.ref = t.ref
  schema : session.schema.Sound s.options.maxLevel
  grown : t.schema.GrownFrom session.schema
  unchanged : session.schemaChanged = false → session.schema = t.schema
  under : ∀ x ∈ documents, x.Under s.options.maxLevel session.schema
  begun : ∀ c ∈ session.staged, c.chunk < s.registry.nextChunk
  apart : ∀ c ∈ session.staged, ∀ c' ∈ t.chunks, c.chunk ≠ c'.chunk
  held : ∃ written waiting streams, documents = written ++ waiting ∧
    s.ChunksHold bodies session.schema session.ref session.staged written ∧
    List.Forall₂ (fun x streams => Shredding.shred x.schema x.document = .ok streams)
      waiting streams ∧ session.buffer.Holds streams

/-- A store that works, on a disk that does not fail. -/
structure Sound (s : Store) (bodies : PageKey → Option (List UInt8)) : Prop where
  options : s.options.validate = .ok ()
  reliable : s.disk.Reliable
  laid : s.options.Laid s.registry.nextChunk s.log.file s.disk
  catalog : s.catalog.Sound
  right : s.volume.Right bodies
  ahead : ∀ key : PageKey, s.registry.nextChunk ≤ key.chunk → bodies key = none

variable {spared : Path → Prop} {s s' : Store} {bodies bodies' : PageKey → Option (List UInt8)}
  {schema schema' : Schema} {ref : TableRef} {chunks : List ChunkInfo} {documents : List Taken}
  {t : Table} {session : Session}

theorem maxLevel_lt (h : s.options.validate = .ok ()) : s.options.maxLevel < 256 := by
  rw [StoreOptions.validate] at h
  split at h
  · cases h
  · split at h
    · cases h
    · split at h
      · cases h
      · omega

theorem Sound.maxLevel_lt (h : s.Sound bodies) : s.options.maxLevel < 256 :=
  Store.maxLevel_lt h.options

/-! ### Through operations -/

/-- What is in some chunks is spared. -/
def Spares (spared : Path → Prop) (o : StoreOptions) (ref : TableRef) (chunks : List ChunkInfo) :
    Prop :=
  ∀ c ∈ chunks, ∀ path, o.chunkPath ref c.chunk <+: path → spared path

-- Of a store only the options, the number of its log and the disk are looked at, and of the disk
-- only what is on it.
theorem ChunksHold.alter {made : Path → DiskNode → Prop}
    (h : s.ChunksHold bodies schema ref chunks documents) (ho : s'.options = s.options)
    (hl : s'.log.file = s.log.file)
    (hd : Disk.Changes spared made (· = s.log.file) s.disk.left s'.disk.left)
    (hs : Spares spared s.options ref chunks)
    (hb : ∀ c ∈ chunks, ∀ key : PageKey, key.chunk = c.chunk → bodies' key = bodies key) :
    s'.ChunksHold bodies' schema ref chunks documents := by
  rcases h with ⟨batches, hdocuments, hfiles⟩
  rw [List.forall₂_iff_zip] at hfiles
  refine ⟨batches, hdocuments, List.forall₂_iff_zip.mpr ⟨hfiles.1, fun hin => ?_⟩⟩
  have hchunk := (List.of_mem_zip hin).1
  rw [ho, hl]
  exact ((hfiles.2 hin).changes hd (hs _ hchunk)).others (hb _ hchunk)

theorem ChunksHold.follows (h : s.ChunksHold bodies schema ref chunks documents)
    (hf : Follows spared s s') (hs : Spares spared s.options ref chunks)
    (hb : ∀ c ∈ chunks, ∀ key : PageKey, key.chunk = c.chunk → bodies' key = bodies key) :
    s'.ChunksHold bodies' schema ref chunks documents :=
  h.alter hf.options hf.log hf.disk.left hs hb

theorem ChunksHold.grow (h : s.ChunksHold bodies schema ref chunks documents)
    (hg : schema.GrownFrom schema') : s.ChunksHold bodies schema' ref chunks documents := by
  rcases h with ⟨batches, hdocuments, hfiles⟩
  exact ⟨batches, hdocuments, hfiles.imp fun _ _ hfile => hfile.grow hg⟩

theorem ChunksHold.append {more : List ChunkInfo} {documents' : List Taken}
    (h : s.ChunksHold bodies schema ref chunks documents)
    (h' : s.ChunksHold bodies schema ref more documents') :
    s.ChunksHold bodies schema ref (chunks ++ more) (documents ++ documents') := by
  rcases h with ⟨batches, rfl, hfiles⟩
  rcases h' with ⟨batches', rfl, hfiles'⟩
  exact ⟨batches ++ batches', List.flatten_append.symm, List.rel_append hfiles hfiles'⟩

theorem Sound.follows (h : s.Sound bodies) (hf : Follows spared s s')
    (hup : ∀ path, path <+: s.options.directory ∨ path = s.options.logPath → spared path)
    (hc : s'.catalog.Sound) : s'.Sound bodies where
  options := by
    rw [hf.options]
    exact h.options
  reliable := hf.disk.reliable h.reliable
  laid := hf.laid hup h.laid
  catalog := hc
  right := fun key body hkey => h.right key body (by rw [← hf.pages]; exact hkey)
  ahead := fun key hkey => h.ahead key (Nat.le_trans hf.next hkey)

theorem TableHolds.follows (h : s.TableHolds bodies t documents) (hf : Follows spared s s')
    (hs : Spares spared s.options t.ref t.chunks)
    (hb : ∀ key : PageKey, key.chunk < s.registry.nextChunk → bodies' key = bodies key) :
    s'.TableHolds bodies' t documents where
  schema := by
    rw [hf.options]
    exact h.schema
  under := by
    rw [hf.options]
    exact h.under
  begun := fun c hc => Nat.lt_of_lt_of_le (h.begun c hc) hf.next
  chunks := h.chunks.follows hf hs fun c hc key hkey => hb key (hkey ▸ h.begun c hc)

theorem SessionHolds.follows (h : s.SessionHolds bodies t session documents)
    (hf : Follows spared s s') (hs : Spares spared s.options session.ref session.staged)
    (hb : ∀ key : PageKey, key.chunk < s.registry.nextChunk → bodies' key = bodies key) :
    s'.SessionHolds bodies' t session documents where
  ref := h.ref
  schema := by
    rw [hf.options]
    exact h.schema
  grown := h.grown
  unchanged := h.unchanged
  under := by
    rw [hf.options]
    exact h.under
  begun := fun c hc => Nat.lt_of_lt_of_le (h.begun c hc) hf.next
  apart := h.apart
  held := by
    rcases h.held with ⟨written, waiting, streams, hdocuments, hwritten, hwaiting, hbuffer⟩
    exact ⟨written, waiting, streams, hdocuments,
      hwritten.follows hf hs fun c hc key hkey => hb key (hkey ▸ h.begun c hc), hwaiting, hbuffer⟩

-- Reading changes only what is in memory.
theorem ChunksHold.setVolume {v : Volume} (h : s.ChunksHold bodies schema ref chunks documents)
    (hv : v.disk = s.disk) : (s.setVolume v).ChunksHold bodies schema ref chunks documents := by
  rcases h with ⟨batches, hdocuments, hfiles⟩
  rw [← hv] at hfiles
  exact ⟨batches, hdocuments, hfiles⟩

theorem TableHolds.setVolume {v : Volume} (h : s.TableHolds bodies t documents)
    (hv : v.disk = s.disk) : (s.setVolume v).TableHolds bodies t documents :=
  ⟨h.schema, h.under, h.begun, h.chunks.setVolume hv⟩

theorem SessionHolds.setVolume {v : Volume} (h : s.SessionHolds bodies t session documents)
    (hv : v.disk = s.disk) : (s.setVolume v).SessionHolds bodies t session documents := by
  refine ⟨h.ref, h.schema, h.grown, h.unchanged, h.under, h.begun, h.apart, ?_⟩
  rcases h.held with ⟨written, waiting, streams, hdocuments, hwritten, hwaiting⟩
  exact ⟨written, waiting, streams, hdocuments, hwritten.setVolume hv, hwaiting⟩

theorem Sound.setVolume {v : Volume} (h : s.Sound bodies) (hv : v.disk = s.disk)
    (hright : v.Right bodies) : (s.setVolume v).Sound bodies where
  options := h.options
  reliable := by
    have hreliable := h.reliable
    rwa [← hv] at hreliable
  laid := by
    have hlaid := h.laid
    rwa [← hv] at hlaid
  catalog := h.catalog
  right := hright
  ahead := h.ahead

/-! ### Changes of the catalog -/

theorem find?_of_databaseNamed (hc : s.catalog.Sound) {name : String} {d : Database}
    (h : s.databaseNamed name = .ok d) : s.catalog.databases.find? d.id = some d := by
  rw [databaseNamed] at h
  split at h
  · next d' hfound =>
    rw [Except.ok.injEq] at h
    rw [← h]
    exact hc.find?_of_named hfound
  · cases h

theorem table?_of_tableNamed (hc : s.catalog.Sound) {database name : String}
    (h : s.tableNamed database name = .ok t) : s.catalog.table? t.ref = some t := by
  rw [tableNamed, databaseNamed] at h
  cases hd : s.catalog.databaseNamed? database with
  | none =>
      rw [hd] at h
      cases h
  | some d =>
      rw [hd] at h
      simp only at h
      split at h
      · next t' hfound =>
        rw [Except.ok.injEq] at h
        rw [← h]
        exact hc.table?_of_named hd hfound
      · cases h

-- A log that can be written to is written to.
theorem commit_reliable (hr : s.disk.Reliable) (ops : List Operation) :
    (s.commit ops).1.registry = (s.registry.applyAll ops).1 ∧
      (s.commit ops).2 = (s.registry.applyAll ops).2.mapError .ofCatalog := by
  have hperform : ∀ position bytes, ∃ after,
      s.disk.perform (.writeAt s.log.file s.log.path position bytes) = (after, .ok ()) :=
    fun position bytes => ⟨_, Disk.perform_eq_ok hr rfl⟩
  rcases hperform s.log.position (Utf8.encode (LogEntry.transaction (ops.map .operation))) with
    ⟨after, hwrite⟩
  rw [commit, LogFile.append, hwrite]
  exact ⟨rfl, rfl⟩

end Store

namespace Session

open Store

variable {s : Store} {bodies : PageKey → Option (List UInt8)} {documents : List Taken}
  {t : Table} {session session' : Session}

-- The schema grows with the document, which fits it then.
theorem accept_holds (h : s.SessionHolds bodies t session documents) {document : Json}
    (haccept : session.accept s.options.mergeOptions document = .ok session') :
    s.SessionHolds bodies t session' (documents ++ [⟨session'.schema, document⟩]) ∧
      session'.ref = session.ref := by
  rcases Outcome.bind_eq_ok.mp haccept with ⟨merged, hmerge, hrest⟩
  rcases Outcome.bind_eq_ok.mp hrest with ⟨streams, hshred, hsession⟩
  simp only [pure, Except.pure, Except.ok.injEq] at hsession
  subst hsession
  have hsound := h.schema.merge (Nat.le_refl s.options.maxLevel) hmerge
  have hgrown := Schema.GrownFrom.merge hmerge
  have hfits := Shredding.exists_shred_iff.mp ⟨streams, hshred⟩
  refine ⟨⟨h.ref, hsound, h.grown.trans hgrown, fun hunchanged => ?_, fun x hx => ?_, h.begun,
    h.apart, ?_⟩, rfl⟩
  · rw [Bool.or_eq_false_iff, Option.isSome_eq_false_iff, Option.isNone_iff_eq_none] at hunchanged
    rw [hunchanged.2]
    exact h.unchanged hunchanged.1
  · rcases List.mem_append.mp hx with hx | hx
    · exact (h.under x hx).grow hgrown
    · rw [List.mem_singleton] at hx
      rw [hx]
      exact ⟨hsound, .refl _, hfits⟩
  · rcases h.held with ⟨written, waiting, held, rfl, hwritten, hwaiting, hbuffer⟩
    refine ⟨written, waiting ++ [⟨merged.getD session.schema, document⟩], held ++ [streams],
      List.append_assoc .., hwritten.grow hgrown, ?_, hbuffer.append streams⟩
    exact List.rel_append hwaiting (.cons hshred .nil)

-- Nothing is waiting in a buffer that is empty.
theorem documents_of_isEmpty {b : ChunkBuffer} {streams : List Shredding.Streams}
    (hb : b.Holds streams) (hempty : b.isEmpty = true) : streams = [] := by
  have hcount := hb.count
  rw [ChunkBuffer.isEmpty, beq_iff_eq] at hempty
  exact List.eq_nil_of_length_eq_zero (hcount.symm.trans hempty)

-- A chunk that was written takes the documents out of memory.
theorem holds_stage (h : s.SessionHolds bodies t session documents)
    (hbegun : ∀ c ∈ t.chunks, c.chunk < s.registry.nextChunk)
    (hf : Follows (fun _ => True) s s') {bodies' : PageKey → Option (List UInt8)}
    (hb : ∀ key : PageKey, key.chunk < s.registry.nextChunk → bodies' key = bodies key)
    {info : ChunkInfo} (hid : info.chunk = s.registry.nextChunk)
    (hnext : s.registry.nextChunk < s'.registry.nextChunk) {written waiting : List Taken}
    (hdocuments : documents = written ++ waiting)
    (hwritten : s.ChunksHold bodies session.schema session.ref session.staged written)
    (hchunk : ChunkFiles s'.options s'.log.file s'.disk bodies' session.schema session.ref info
      waiting) : s'.SessionHolds bodies' t (session.stage info) documents := by
  have hstaged := hwritten.follows hf (fun _ _ _ _ => trivial)
    fun c hc key hkey => hb key (hkey ▸ h.begun c hc)
  have hnew : s'.ChunksHold bodies' session.schema session.ref [info] waiting :=
    ⟨[waiting], by rw [List.flatten_cons, List.flatten_nil, List.append_nil], .cons hchunk .nil⟩
  refine ⟨h.ref, ?_, h.grown, h.unchanged, ?_, fun c hc => ?_, fun c hc c' hc' => ?_,
    written ++ waiting, [], [], ?_, hstaged.append hnew, .nil, ChunkBuffer.holds_empty⟩
  · rw [hf.options]
    exact h.schema
  · rw [hf.options]
    exact h.under
  · rcases List.mem_append.mp hc with hc | hc
    · exact Nat.lt_trans (h.begun c hc) hnext
    · rw [List.mem_singleton.mp hc, hid]
      exact hnext
  · rcases List.mem_append.mp hc with hc | hc
    · exact h.apart c hc c' hc'
    · rw [List.mem_singleton.mp hc, hid]
      exact Nat.ne_of_gt (hbegun c' hc')
  · rw [List.append_nil, hdocuments]

theorem flush_holds (hs : s.Sound bodies) (h : s.SessionHolds bodies t session documents)
    (hbegun : ∀ c ∈ t.chunks, c.chunk < s.registry.nextChunk) :
    ∃ s' session' bodies', session.flush s = (s', session', .ok ()) ∧
      Follows (fun _ => True) s s' ∧ s'.catalog = s.catalog ∧ s'.writers = s.writers ∧
      s'.Sound bodies' ∧
      (∀ key : PageKey, key.chunk < s.registry.nextChunk → bodies' key = bodies key) ∧
      s'.SessionHolds bodies' t session' documents ∧ session'.buffer.isEmpty = true ∧
      session'.ref = session.ref ∧ session'.schema = session.schema := by
  rcases h.held with ⟨written, waiting, streams, hdocuments, hwritten, hwaiting, hbuffer⟩
  by_cases hempty : session.buffer.isEmpty = true
  · refine ⟨s, session, bodies, ?_, .refl .., rfl, rfl, hs, fun _ _ => rfl, h, hempty, rfl, rfl⟩
    rw [flush, if_pos hempty]
  · have hunder : ∀ x ∈ waiting, x.Under s.options.maxLevel session.schema := fun x hx =>
      h.under x (hdocuments ▸ List.mem_append_right _ hx)
    have hnew := ChunkFiles.exists_new bodies hs.laid hs.reliable session.ref h.schema hbuffer
      hwaiting hunder
    rcases hnew with ⟨chunk, d, hencode, hperform, hfiles⟩
    have hfollows := (begun_moves hperform fun _ => True).follows
    have hstore : (s.setRegistry s.registry.takeChunk).performAll
        (chunkEffects (s.options.chunkPath session.ref s.registry.nextChunk) chunk) =
          ((s.setRegistry s.registry.takeChunk).setDisk d, .ok ()) := by
      rw [Store.performAll]
      have hdisk : (s.setRegistry s.registry.takeChunk).disk = s.disk := rfl
      rw [hdisk, hperform]
      rfl
    -- No page of the new chunk was known before.
    have hbefore : ∀ key : PageKey, key.chunk < s.registry.nextChunk →
        ChunkFiles.withChunk s.options bodies session.schema s.registry.nextChunk waiting key =
          bodies key := fun key hkey => by
      rw [ChunkFiles.withChunk, if_neg (Nat.ne_of_lt hkey)]
    have hsound := hs.follows hfollows (fun _ _ => trivial) hs.catalog
    refine ⟨_, session.stage ⟨s.registry.nextChunk, chunk.recordCount, chunk.columnIds⟩, _, ?_,
      hfollows, rfl, rfl, ⟨hsound.options, hsound.reliable, hsound.laid, hsound.catalog,
        fun key body hkey => ?_, fun key hkey => ?_⟩, hbefore, ?_, rfl, rfl, rfl⟩
    · rw [flush, if_neg hempty, hencode]
      simp only [hstore]
    · have hkept := hs.right key body hkey
      have hlt : key.chunk < s.registry.nextChunk := by
        rw [← Nat.not_le]
        intro hle
        rw [hs.ahead key hle] at hkept
        cases hkept
      rw [hbefore key hlt, hkept]
    · have hle : s.registry.nextChunk + 1 ≤ key.chunk := hkey
      rw [ChunkFiles.withChunk, if_neg (by omega)]
      exact hs.ahead key (by omega)
    · exact holds_stage h hbegun hfollows hbefore rfl (Nat.lt_succ_self _) hdocuments hwritten hfiles

/-! ### Committing -/

/-- The table of a session after its commit. -/
def committed (session : Session) (base : Table) : Table :=
  ⟨base.ref, base.name, session.schema, base.chunks ++ session.staged⟩

-- A session without documents in memory has the table's documents and its own in chunks.
theorem holds_committed (h : s.SessionHolds bodies t session documents) {kept : List Taken}
    (htable : s.TableHolds bodies t kept) (hempty : session.buffer.isEmpty = true) :
    s.TableHolds bodies (session.committed t) (kept ++ documents) := by
  rcases h.held with ⟨written, waiting, streams, hdocuments, hwritten, hwaiting, hbuffer⟩
  have hnone := documents_of_isEmpty hbuffer hempty
  rw [hnone, List.forall₂_nil_right_iff] at hwaiting
  rw [hwaiting, List.append_nil] at hdocuments
  rw [h.ref, ← hdocuments] at hwritten
  refine ⟨h.schema, fun x hx => ?_, fun c hc => ?_,
    (htable.chunks.grow h.grown).append hwritten⟩
  · rcases List.mem_append.mp hx with hx | hx
    · exact (htable.under x hx).grow h.grown
    · exact h.under x hx
  · rcases List.mem_append.mp hc with hc | hc
    · exact htable.begun c hc
    · exact h.begun c hc

theorem applyAll_operations {r : Registry} (hs : r.catalog.Sound)
    (ht : r.catalog.table? session.ref = some t)
    (hunchanged : session.schemaChanged = false → session.schema = t.schema)
    (hnext : ∀ c ∈ session.staged, c.chunk < r.nextChunk) :
    ∃ r', r.applyAll session.operations = (r', .ok ()) ∧
      r.Replaced r' session.ref (session.committed t) := by
  rw [operations, committed]
  cases hchanged : session.schemaChanged with
  | false =>
      rw [if_neg Bool.false_ne_true, List.nil_append, hunchanged hchanged]
      exact Registry.applyAll_addChunks hs ht session.staged hnext
  | true =>
      rw [if_pos rfl, List.singleton_append]
      rcases Registry.replaced_updateSchema hs ht session.schema with ⟨r₁, happly, hfirst⟩
      rcases Registry.applyAll_addChunks hfirst.sound hfirst.table session.staged
        (fun c hc => by rw [hfirst.nextChunk]; exact hnext c hc) with ⟨r₂, hall, hsecond⟩
      refine ⟨r₂, ?_, hsecond.sound, hsecond.nextChunk.trans hfirst.nextChunk, hsecond.table,
        fun other hne => (hsecond.others other hne).trans (hfirst.others other hne)⟩
      rw [Registry.applyAll_cons_ok happly, hall]

-- Without operations there is nothing to commit; with some, a commit fails only if it cannot be
-- written, and then the catalog is as it was.
theorem commit_applies (hs : s.catalog.Sound) (ht : s.catalog.table? session.ref = some t)
    (hunchanged : session.schemaChanged = false → session.schema = t.schema)
    (hnext : ∀ c ∈ session.staged, c.chunk < s.registry.nextChunk) :
    ∃ r, s.registry.applyAll session.operations = (r, .ok ()) ∧
      s.registry.Replaced r session.ref (session.committed t) ∧
      Follows (fun _ => True) s (session.commit s).1 ∧
      (session.commit s).1.writers = s.writers ∧
      ((session.commit s).2 = .ok () ∧ (session.commit s).1.registry = r ∨
        ¬ s.disk.Reliable ∧ (∃ e, (session.commit s).2 = .error e) ∧
          (session.commit s).1.registry = s.registry) := by
  rcases applyAll_operations hs ht hunchanged hnext with ⟨r, hall, hreplaced⟩
  refine ⟨r, hall, hreplaced, ?_⟩
  rw [commit]
  by_cases hops : session.operations.isEmpty = true
  · rw [if_pos hops]
    rw [List.isEmpty_iff.mp hops, Registry.applyAll, Prod.mk.injEq] at hall
    exact ⟨.refl .., rfl, Or.inl ⟨rfl, hall.1⟩⟩
  · rw [if_neg hops, ht]
    rcases Store.commit_cases (fun _ => True) s session.operations with
      ⟨hfollows, hwriters, ⟨hregistry, hresult, -⟩ | ⟨hregistry, ⟨e, herror⟩, -⟩⟩
    · rw [hall] at hregistry hresult
      exact ⟨hfollows, hwriters, Or.inl ⟨hresult, hregistry⟩⟩
    · refine ⟨hfollows, hwriters, Or.inr ⟨fun hreliable => ?_, ⟨e, herror⟩, hregistry⟩⟩
      have hresult := (Store.commit_reliable hreliable session.operations).2
      rw [hall, herror] at hresult
      cases hresult

theorem commit_holds (hs : s.Sound bodies) (h : s.SessionHolds bodies t session documents)
    (ht : s.catalog.table? t.ref = some t) {kept : List Taken} (htable : s.TableHolds bodies t kept)
    (hempty : session.buffer.isEmpty = true) :
    ∃ s' t', session.commit s = (s', .ok ()) ∧ Follows (fun _ => True) s s' ∧
      s'.writers = s.writers ∧ s'.Sound bodies ∧ s'.catalog.table? t.ref = some t' ∧
      (∀ other, other ≠ t.ref → s'.catalog.table? other = s.catalog.table? other) ∧
      s'.TableHolds bodies t' (kept ++ documents) := by
  rcases commit_applies hs.catalog (h.ref ▸ ht) h.unchanged h.begun with
    ⟨r, -, hreplaced, hfollows, hwriters, ⟨hok, hregistry⟩ | ⟨hnot, -⟩⟩
  · rw [h.ref] at hreplaced
    have hcatalog : (session.commit s).1.catalog = r.catalog := by rw [Store.catalog, hregistry]
    refine ⟨_, session.committed t, Prod.ext rfl hok, hfollows, hwriters,
      hs.follows hfollows (fun _ _ => trivial) (hcatalog ▸ hreplaced.sound), ?_, fun other hne => ?_,
      (holds_committed h htable hempty).follows hfollows (fun _ _ _ _ => trivial) fun _ _ => rfl⟩
    · rw [hcatalog]
      exact hreplaced.table
    · rw [hcatalog]
      exact hreplaced.others other hne
  · exact absurd hs.reliable hnot

end Session

end NestedColumns
