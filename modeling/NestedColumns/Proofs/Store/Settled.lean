import NestedColumns.Proofs.Store.Faultless
import NestedColumns.Proofs.Store.Reading
import NestedColumns.Proofs.Store.Writers

/-!
# What a store keeps whatever fails

The tables of a store hold the documents of all sessions that were closed, and a session that
is open holds those that were added to it. That stays so on a disk that may fail at any attempt:
an effect either took place or did not, and what the ones that took place remove is in no chunk
that counts.

Nothing is assumed of what else is in the directories of a store. A chunk of which all files
could be made is there, whatever was left behind by others before.

## Main definitions

* `DiskChunk.Filed`: The files that a chunk lists are there.
* `Store.Present`: The directories of chunks are there.
* `Store.Settled`: The tables of a store hold what was kept.
* `Session.Working`: A session holds what was added.

## Theorems

* `Store.Settled.moves`, `Store.Settled.altered`: What does not add documents to tables.
* `Session.Working.flush`: A chunk is written, or not.
* `Session.Working.commit`: The documents of a session become those of its table.
-/

namespace NestedColumns

/-- The files that a chunk lists are there, and none of them is the log. -/
def DiskChunk.Filed (log : Nat) (d : Disk) (chunk : DiskChunk) : Prop :=
  ∀ column ∈ chunk.info.columns, ∃ number file,
    d.node? (chunk.indexPath column) = some (.file number) ∧
      d.node? (chunk.dataPath column) = some (.file file) ∧
      (number < d.nextFile ∧ number ≠ log) ∧ file < d.nextFile ∧ file ≠ log

namespace Store

variable {spared : Path → Prop} {s s' : Store} {bodies bodies' : PageKey → Option (List UInt8)}
  {kept : TableRef → List Taken} {ref : TableRef} {t : Table} {chunks : List ChunkInfo}
  {ops : List Operation} {removed : List Path} {answer : Store × Except StoreError Unit}

/-- The directories of chunks are there. -/
def Present (s : Store) (ref : TableRef) (chunks : List ChunkInfo) : Prop :=
  ∀ c ∈ chunks, s.disk.node? (s.options.chunkPath ref c.chunk) = some .directory

theorem Present.follows (h : s.Present ref chunks) (hf : Follows spared s s')
    (hs : Spares spared s.options ref chunks) : s'.Present ref chunks := by
  intro c hc
  rw [hf.options]
  exact hf.disk.kept _ _ (hs c hc _ (List.prefix_refl _)) (h c hc)

/-- What pages hold is known of more of them. -/
def Extends (bodies bodies' : PageKey → Option (List UInt8)) : Prop :=
  ∀ key body, bodies key = some body → bodies' key = some body

theorem Extends.refl (bodies : PageKey → Option (List UInt8)) : Extends bodies bodies :=
  fun _ _ h => h

theorem Extends.trans {bodies'' : PageKey → Option (List UInt8)} (h : Extends bodies bodies')
    (h' : Extends bodies' bodies'') : Extends bodies bodies'' :=
  fun key body hkey => h' key body (h key body hkey)

/-- A store whose tables hold the documents that were kept for them. The disk may fail. -/
structure Settled (s : Store) (bodies : PageKey → Option (List UInt8))
    (kept : TableRef → List Taken) : Prop where
  options : s.options.validate = .ok ()
  number : s.log.file < s.disk.nextFile
  catalog : s.catalog.Numbered
  ahead : ∀ key : PageKey, s.registry.nextChunk ≤ key.chunk → bodies key = none
  tables : ∀ ref t, s.catalog.table? ref = some t → s.TableHolds bodies t (kept ref)
  present : ∀ ref t, s.catalog.table? ref = some t → s.Present ref t.chunks
  gone : ∀ ref, s.catalog.table? ref = none → kept ref = []

/-- What is in the chunks of a catalog is spared. -/
def SparesAll (spared : Path → Prop) (o : StoreOptions) (c : Catalog) : Prop :=
  ∀ ref t, c.table? ref = some t → Spares spared o ref t.chunks

theorem Settled.ref_eq (h : s.Settled bodies kept) (ht : s.catalog.table? ref = some t) :
    t.ref = ref :=
  h.catalog.sound.refs ref t ht

theorem Settled.begun (h : s.Settled bodies kept) (ht : s.catalog.table? ref = some t) :
    ∀ c ∈ t.chunks, c.chunk < s.registry.nextChunk :=
  (h.tables ref t ht).begun

-- The chunks of a table have all their files.
theorem Settled.filed (h : s.Settled bodies kept) (ht : s.catalog.table? ref = some t)
    {chunk : DiskChunk} (hc : chunk ∈ s.diskChunks t) :
    chunk.Filed s.log.file s.disk := by
  intro column hlisted
  rcases List.mem_map.mp hc with ⟨info, hinfo, rfl⟩
  rcases (h.tables ref t ht).chunks with ⟨batches, -, hfiles⟩
  rw [List.forall₂_iff_get] at hfiles
  rcases List.mem_iff_get.mp hinfo with ⟨n, rfl⟩
  have hn : n.val < batches.length := hfiles.1 ▸ n.isLt
  rcases (hfiles.2 n.val n.isLt hn).listed column (List.contains_iff_mem.mpr hlisted) with
    ⟨way, type, -, hcolumn⟩
  rcases hcolumn.index with ⟨number, hindex, hne, hlt, -⟩
  rcases hcolumn.data with ⟨file, hdata, hne', hlt', -⟩
  exact ⟨number, file, hindex, hdata, ⟨hlt, hne⟩, hlt', hne'⟩

theorem Settled.files (h : s.Settled bodies kept) (ht : s.catalog.table? ref = some t)
    {chunk : DiskChunk} (hc : chunk ∈ s.diskChunks t) {column : Nat}
    (hin : column ∈ chunk.info.columns) :
    (∃ bytes, s.disk.read (chunk.dataPath column) = .ok bytes) ∧
      ∃ bytes, s.disk.read (chunk.indexPath column) = .ok bytes := by
  rcases h.filed ht hc column hin with ⟨number, file, hindex, hdata, -⟩
  exact ⟨⟨_, Disk.read_eq_ok.mpr ⟨file, hdata, rfl⟩⟩, ⟨_, Disk.read_eq_ok.mpr ⟨number, hindex, rfl⟩⟩⟩

theorem Settled.extends (h : s.Settled bodies kept)
    (hb : ∀ key : PageKey, key.chunk < s.registry.nextChunk → bodies' key = bodies key) :
    Extends bodies bodies' := by
  intro key body hkey
  rw [hb key, hkey]
  rw [← Nat.not_le]
  intro hle
  rw [h.ahead key hle] at hkey
  cases hkey

-- A table whose chunks are spared holds what it held, when there is more in others.
theorem Settled.table (h : s.Settled bodies kept) (hf : Follows spared s s')
    (hb : ∀ key : PageKey, key.chunk < s.registry.nextChunk → bodies' key = bodies key)
    (ht : s.catalog.table? ref = some t) (hs : Spares spared s.options ref t.chunks) :
    s'.TableHolds bodies' t (kept ref) ∧ s'.Present ref t.chunks :=
  ⟨(h.tables ref t ht).follows hf (h.ref_eq ht ▸ hs) hb, (h.present ref t ht).follows hf hs⟩

theorem Settled.alter {made : Path → DiskNode → Prop} (h : s.Settled bodies kept)
    (ho : s'.options = s.options) (hl : s'.log.file = s.log.file) (hc : s'.catalog = s.catalog)
    (hd : Disk.Changes spared made (· = s.log.file) s.disk.left s'.disk.left)
    (hs : SparesAll spared s.options s.catalog)
    (hb : ∀ ref t, s.catalog.table? ref = some t → ∀ c ∈ t.chunks, c.chunk < s'.registry.nextChunk ∧
      ∀ key : PageKey, key.chunk = c.chunk → bodies' key = bodies key)
    (hahead : ∀ key : PageKey, s'.registry.nextChunk ≤ key.chunk → bodies' key = none) :
    s'.Settled bodies' kept where
  options := ho ▸ h.options
  number := hl ▸ Nat.lt_of_lt_of_le h.number hd.nextFile
  catalog := hc ▸ h.catalog
  ahead := hahead
  tables := fun ref t ht => by
    rw [hc] at ht
    have hholds := h.tables ref t ht
    have hchunks := hholds.chunks.alter ho hl hd (h.ref_eq ht ▸ hs ref t ht) fun c hc =>
      (hb ref t ht c hc).2
    exact ⟨ho ▸ hholds.schema, ho ▸ hholds.under, fun c hc => (hb ref t ht c hc).1, hchunks⟩
  present := fun ref t ht c hin => by
    rw [hc] at ht
    rw [ho]
    exact hd.kept _ _ (hs ref t ht c hin _ (List.prefix_refl _)) (h.present ref t ht c hin)
  gone := fun ref hnone => h.gone ref (hc ▸ hnone)

theorem Settled.follows (h : s.Settled bodies kept) (hf : Follows spared s s')
    (hc : s'.catalog = s.catalog) (hs : SparesAll spared s.options s.catalog)
    (hb : ∀ key : PageKey, key.chunk < s.registry.nextChunk → bodies' key = bodies key)
    (hahead : ∀ key : PageKey, s'.registry.nextChunk ≤ key.chunk → bodies' key = none) :
    s'.Settled bodies' kept :=
  h.alter hf.options hf.log hc hf.disk.left hs (fun _ _ ht c hin =>
    ⟨Nat.lt_of_lt_of_le (h.begun ht c hin) hf.next, fun key hkey =>
      hb key (hkey ▸ h.begun ht c hin)⟩) hahead

/-- What is on the disk may change beside the chunks of tables. -/
theorem Settled.changes {made : Path → DiskNode → Prop} {d : Disk} (h : s.Settled bodies kept)
    (hd : Disk.Changes spared made (· = s.log.file) s.disk.left d.left)
    (hs : SparesAll spared s.options s.catalog) : (s.setDisk d).Settled bodies kept :=
  h.alter rfl rfl rfl hd hs (fun _ _ ht c hin => ⟨h.begun ht c hin, fun _ _ => rfl⟩) h.ahead

theorem Settled.moves (h : s.Settled bodies kept) (hm : Moves spared ref s s')
    (hs : SparesAll spared s.options s.catalog) : s'.Settled bodies kept :=
  h.follows hm.follows hm.catalog hs (fun _ _ => rfl) fun key hkey =>
    h.ahead key (Nat.le_trans hm.next hkey)

-- Reading changes only what is in memory.
theorem Settled.setVolume {v : Volume} (h : s.Settled bodies kept) (hv : v.disk = s.disk) :
    (s.setVolume v).Settled bodies kept where
  options := h.options
  number := by
    have hnumber := h.number
    rwa [← hv] at hnumber
  catalog := h.catalog
  ahead := h.ahead
  tables := fun ref t ht => (h.tables ref t ht).setVolume hv
  present := fun ref t ht c hc => by
    have hthere := h.present ref t ht c hc
    rwa [← hv] at hthere
  gone := h.gone

/-! ### Databases and tables -/

-- Of a change that fails nothing is removed.
theorem Alters.follows (h : Alters s ops removed answer) :
    ∃ spared, Follows spared s answer.1 ∧ ∀ ref t, answer.1.catalog.table? ref = some t →
      ∀ chunks, Spares spared s.options ref chunks := by
  rcases hcommit : s.commit ops with ⟨after, e | _⟩
  · have hfollows := (commit_cases (fun _ => True) s ops).1
    rw [hcommit] at hfollows
    rw [h.failed after e hcommit]
    exact ⟨_, hfollows, fun _ _ _ _ _ _ _ _ => trivial⟩
  · have hfollows := (commit_cases (Outside removed) s ops).1
    rw [hcommit] at hfollows
    rw [h.done after hcommit]
    rcases commit_eq_ok hcommit with ⟨d, r, -, happly, rfl⟩
    exact ⟨_, hfollows.trans (discardTrees_follows ..), fun ref t ht _ c _ path hp =>
      h.apart r happly ref t ht c.chunk path hp⟩

-- With a table its documents are gone.
theorem Settled.altered (h : s.Settled bodies kept) (hf : Follows spared s s')
    (hs : ∀ ref t, s'.catalog.table? ref = some t → ∀ chunks, Spares spared s.options ref chunks)
    (hc : Changed s s') (hn : s'.catalog.Numbered) : s'.Settled bodies
      fun ref => if (s'.catalog.table? ref).isSome then kept ref else [] where
  options := by
    rw [hf.options]
    exact h.options
  number := by
    rw [hf.log]
    exact Nat.lt_of_lt_of_le h.number hf.disk.nextFile
  catalog := hn
  ahead := fun key hkey => h.ahead key (Nat.le_trans hf.next hkey)
  tables := fun ref t ht => by
    simp only [Option.isSome_iff_exists.mpr ⟨t, ht⟩, if_true]
    rcases hc.new ref t ht with hold | ⟨hnone, name, rfl⟩
    · exact (h.table hf (fun _ _ => rfl) hold (hs ref t ht _)).1
    · rw [h.gone ref hnone]
      exact Usage.tableHolds_empty s' bodies ref name
  present := fun ref t ht => by
    rcases hc.new ref t ht with hold | ⟨-, name, rfl⟩
    · exact (h.table hf (fun _ _ => rfl) hold (hs ref t ht _)).2
    · exact fun _ hin => absurd hin List.not_mem_nil
  gone := fun ref hnone => by
    simp only [hnone, Option.isSome_none, Bool.false_eq_true, if_false]

theorem numbered_commit (h : s.catalog.Numbered) (ops : List Operation) :
    (s.commit ops).1.catalog.Numbered :=
  Usage.commit_registry (P := fun r => r.catalog.Numbered) s h
    fun _ _ _ _ hbefore happly => hbefore.apply happly

theorem Alters.numbered (ha : Alters s ops removed answer) (h : s.catalog.Numbered) :
    answer.1.catalog.Numbered := by
  have hcommitted := numbered_commit h ops
  rw [ha.commits.after.catalog]
  exact hcommitted

end Store

/-! ### Sessions -/

namespace Session

open Store (Follows Moves Outside Present Settled Spares SparesAll SessionHolds TableHolds)

variable {spared : Path → Prop} {s s' : Store} {bodies bodies' : PageKey → Option (List UInt8)}
  {kept : TableRef → List Taken} {t : Table} {documents : List Taken} {session : Session}

/-- A session holds the documents that were added to it, and the directories of its chunks are
    there. -/
structure Working (s : Store) (bodies : PageKey → Option (List UInt8)) (t : Table)
    (documents : List Taken) (session : Session) : Prop where
  holds : s.SessionHolds bodies t session documents
  present : s.Present session.ref session.staged

theorem Working.follows (h : session.Working s bodies t documents) (hf : Follows spared s s')
    (hs : Spares spared s.options session.ref session.staged)
    (hb : ∀ key : PageKey, key.chunk < s.registry.nextChunk → bodies' key = bodies key) :
    session.Working s' bodies' t documents where
  holds := h.holds.follows hf hs hb
  present := h.present.follows hf hs

theorem Working.setVolume {v : Volume} (h : session.Working s bodies t documents)
    (hv : v.disk = s.disk) : session.Working (s.setVolume v) bodies t documents where
  holds := h.holds.setVolume hv
  present := fun c hc => by
    have hthere := h.present c hc
    rwa [← hv] at hthere

-- The chunks of a session are apart from those of other tables, and from the older ones of its own.
theorem spares_staged (session : Session) (o : StoreOptions) {owner : TableRef}
    {chunks : List ChunkInfo} (h : owner = session.ref →
      ∀ c ∈ session.staged, ∀ c' ∈ chunks, c.chunk ≠ c'.chunk) :
    Spares (Outside (session.stagedPaths o)) o owner chunks := by
  intro c' hc' path hpath p hp hprefix
  rcases List.mem_map.mp hp with ⟨c, hc, rfl⟩
  rcases StoreOptions.chunk_unique hpath hprefix with ⟨href, hchunk⟩
  exact h href c hc c' hc' hchunk.symm

-- The documents of a buffer are in the new chunk, or still in the buffer.
theorem Working.flush (h : session.Working s bodies t documents) (hs : s.Settled bodies kept)
    (ht : s.catalog.table? t.ref = some t) :
    ∃ bodies', (∀ key : PageKey, key.chunk < s.registry.nextChunk → bodies' key = bodies key) ∧
      (session.flush s).1.Settled bodies' kept ∧
      (session.flush s).2.1.Working (session.flush s).1 bodies' t documents ∧
      ((session.flush s).2.2 = .ok () → (session.flush s).2.1.buffer.isEmpty = true) := by
  have hlower : SparesAll (Outside [s.options.chunkPath session.ref s.registry.nextChunk])
      s.options s.catalog := fun ref t ht => spares_lower (hs.begun ht)
  have hown : Spares (Outside [s.options.chunkPath session.ref s.registry.nextChunk]) s.options
      session.ref session.staged := spares_lower h.holds.begun
  rcases h.holds.held with ⟨written, waiting, streams, hdocuments, hwritten, hwaiting, hbuffer⟩
  have hunder : ∀ x ∈ waiting, x.Under s.options.maxLevel session.schema := fun x hx =>
    h.holds.under x (hdocuments ▸ List.mem_append_right _ hx)
  rcases ChunkFiles.exists_encode s.options s.log.file s.registry.nextChunk bodies session.ref
    h.holds.schema hbuffer hwaiting hunder with ⟨encoding, hencode, -, hfiles⟩
  have hflushes := session.flush_spec s
  generalize session.flush s = answer at hflushes ⊢
  cases hflushes with
  | empty nothing => exact ⟨bodies, fun _ _ => rfl, hs, h, fun _ => nothing⟩
  | refused nonempty encoded => exact ⟨bodies, fun _ _ => rfl, hs, h, fun hok => by cases hok⟩
  | failed nonempty encoded performed =>
      have hleft := (begun_moves performed _).trans (Store.discardTrees_moves session.ref _
        [s.options.chunkPath session.ref s.registry.nextChunk])
      exact ⟨bodies, fun _ _ => rfl, hs.moves hleft hlower,
        h.follows hleft.follows hown fun _ _ => rfl, fun hok => by cases hok⟩
  | @written chunk d nonempty encoded performed =>
      rw [encoded, Except.ok.injEq] at hencode
      subst hencode
      have hfollows := (begun_moves performed fun _ => True).follows
      rcases chunkEffects_keeps hs.number performed with ⟨hthere, hkeeps⟩
      -- No page of the new chunk was known before.
      have hbefore : ∀ key : PageKey, key.chunk < s.registry.nextChunk →
          ChunkFiles.withChunk s.options bodies session.schema s.registry.nextChunk waiting key =
            bodies key := fun key hkey => by
        rw [ChunkFiles.withChunk, if_neg (Nat.ne_of_lt hkey)]
      refine ⟨_, hbefore, hs.follows hfollows rfl (fun _ _ _ _ _ _ _ => trivial) hbefore
        fun key hkey => ?_, ⟨holds_stage h.holds (hs.begun ht) hfollows hbefore rfl
          (Nat.lt_succ_self _) hdocuments hwritten (hfiles d hkeeps), fun c hc => ?_⟩,
        fun _ => rfl⟩
      · have hle : s.registry.nextChunk + 1 ≤ key.chunk := hkey
        rw [ChunkFiles.withChunk, if_neg (by omega)]
        exact hs.ahead key (by omega)
      · rcases List.mem_append.mp hc with hc | hc
        · exact (h.present.follows hfollows fun _ _ _ _ => trivial) c hc
        · rw [List.mem_singleton.mp hc]
          exact hthere

/-- A chunk that a session has written has all its files. -/
theorem flush_filed (session : Session) (s : Store) (hlog : s.log.file < s.disk.nextFile) :
    (session.flush s).2.1 = session ∨ ∃ count columns,
      (session.flush s).2.1 = session.stage ⟨s.registry.nextChunk, count, columns⟩ ∧
        (session.flush s).1.registry.nextChunk = s.registry.nextChunk + 1 ∧
        DiskChunk.Filed s.log.file (session.flush s).1.disk
          ⟨s.options.chunkPath session.ref s.registry.nextChunk,
            ⟨s.registry.nextChunk, count, columns⟩⟩ := by
  have hflushes := session.flush_spec s
  generalize session.flush s = answer at hflushes ⊢
  cases hflushes with
  | empty | refused | failed => exact Or.inl rfl
  | written nonempty encoded performed =>
      refine Or.inr ⟨_, _, rfl, rfl, fun column hlisted => ?_⟩
      rcases List.mem_map.mp hlisted with ⟨p, hp, rfl⟩
      have hkeeps := (chunkEffects_keeps hlog performed).2
      rcases hkeeps _ (mem_chunkFiles.mpr ⟨p, hp, Or.inr rfl⟩) with ⟨number, hindex, hne, hlt, -⟩
      rcases hkeeps _ (mem_chunkFiles.mpr ⟨p, hp, Or.inl rfl⟩) with ⟨file, hdata, hne', hlt', -⟩
      exact ⟨number, file, hindex, hdata, ⟨hlt, hne⟩, hlt', hne'⟩

theorem commit_follows (session : Session) (s : Store) :
    Follows (fun _ => True) s (session.commit s).1 := by
  rw [Session.commit]
  split
  · exact .refl ..
  · split
    · exact .refl ..
    · exact (Store.commit_cases ..).1

-- The operations of a session that was committed have been applied.
theorem Working.commit_applied (h : session.Working s bodies t documents) (hs : s.catalog.Sound)
    (ht : s.catalog.table? t.ref = some t) (hok : session.commit s = (s', .ok ())) :
    s.registry.applyAll session.operations = (s'.registry, .ok ()) ∧
      s.registry.Replaced s'.registry t.ref (session.committed t) := by
  rcases Session.commit_applies hs (h.holds.ref ▸ ht) h.holds.unchanged h.holds.begun with
    ⟨r, hall, hreplaced, -, -, ⟨-, hregistry⟩ | ⟨-, ⟨e, herror⟩, -⟩⟩
  · rw [hok] at hregistry
    rw [hregistry, ← h.holds.ref]
    exact ⟨hall, hreplaced⟩
  · rw [hok] at herror
    cases herror

-- A commit that succeeds makes the session's table what both hold.
theorem Working.commit (h : session.Working s bodies t documents) (hs : s.Settled bodies kept)
    (ht : s.catalog.table? t.ref = some t) (hempty : session.buffer.isEmpty = true)
    (hok : session.commit s = (s', .ok ())) :
    s'.Settled bodies (Function.update kept t.ref (kept t.ref ++ documents)) := by
  rcases h.commit_applied hs.catalog.sound ht hok with ⟨hall, hreplaced⟩
  have hfollows := session.commit_follows s
  rw [hok] at hfollows
  have htrue : ∀ ref chunks, Spares (fun _ => True) s.options ref chunks :=
    fun _ _ _ _ _ _ => trivial
  have hown : s'.catalog.table? t.ref = some (session.committed t) := hreplaced.table
  have hothers : ∀ ref, ref ≠ t.ref → s'.catalog.table? ref = s.catalog.table? ref :=
    hreplaced.others
  refine ⟨?_, ?_, ?_, fun key hkey => hs.ahead key (Nat.le_trans hfollows.next hkey),
    fun ref t' ht' => ?_, fun ref t' ht' => ?_, fun ref hnone => ?_⟩
  · rw [hfollows.options]
    exact hs.options
  · rw [hfollows.log]
    exact Nat.lt_of_lt_of_le hs.number hfollows.disk.nextFile
  · have hnumbered := Catalog.Numbered.applyAll hs.catalog session.operations
    rwa [hall] at hnumbered
  · by_cases hsame : ref = t.ref
    · subst hsame
      rw [hown, Option.some.injEq] at ht'
      rw [Function.update_self, ← ht']
      exact (holds_committed h.holds (hs.tables _ t ht) hempty).follows hfollows (htrue _ _)
        fun _ _ => rfl
    · rw [Function.update_of_ne hsame]
      exact (hs.table hfollows (fun _ _ => rfl) (hothers ref hsame ▸ ht') (htrue _ _)).1
  · by_cases hsame : ref = t.ref
    · subst hsame
      rw [hown, Option.some.injEq] at ht'
      rw [← ht']
      intro c hc
      rcases List.mem_append.mp hc with hc | hc
      · exact (hs.present _ t ht).follows hfollows (htrue _ _) c hc
      · have hstaged := h.present.follows hfollows (htrue _ _) c hc
        rwa [h.holds.ref] at hstaged
    · exact (hs.table hfollows (fun _ _ => rfl) (hothers ref hsame ▸ ht') (htrue _ _)).2
  · have hne : ref ≠ t.ref := by
      rintro rfl
      rw [hown] at hnone
      cases hnone
    rw [Function.update_of_ne hne]
    exact hs.gone ref (hothers ref hne ▸ hnone)

end Session

end NestedColumns
