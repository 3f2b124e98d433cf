import NestedColumns.Proofs.Column.Caching
import NestedColumns.Proofs.Engine.Courses
import NestedColumns.Proofs.Engine.Holders

/-!
# The pages that an engine keeps

A chunk keeps its number for good, and no other chunk gets it while the engine runs. The files of
its columns are written once, before the chunk is known to anybody, and never again. So what is kept
of a page under the number of its chunk is the page of that chunk, also when other tables were read
in between, tables were dropped, and chunks could not be written. When a store is opened again no
page is kept.

## Main definitions

* `Engine.Leads`: What a turn leaves alone.
* `Engine.Traced`: Every column that may be read has the same files for good.

## Theorems

* `Engine.calm_leads`, `Engine.change_leads`: What turns leave alone.
* `Engine.Traced.calm`, `Engine.Traced.change`: It stays so.
* `Engine.exists_traced`: It is so when a store is opened.
* `Engine.Course.distinct`, `Engine.Course.ongoing`: All of this, however the store was used.
* `Engine.Traced.next`: A reader is given what is in the files.
-/

namespace NestedColumns

open Store (Outside Present Settled Spares)

variable {d d' : Disk} {log : Nat}

/-- The numbers of the index and of the file of a column that a chunk lists. -/
def DiskChunk.sources (d : Disk) (chunk : DiskChunk) (column : Nat) : Option (Nat × Nat) :=
  if chunk.info.columns.contains column then
    match d.node? (chunk.indexPath column), d.node? (chunk.dataPath column) with
    | some (.file number), some (.file file) => some (number, file)
    | _, _ => none
  else none

theorem DiskChunk.Filed.sources {chunk : DiskChunk} (h : chunk.Filed log d) {column number file : Nat}
    (hsource : chunk.sources d column = some (number, file)) :
    (number < d.nextFile ∧ number ≠ log) ∧ file < d.nextFile ∧ file ≠ log := by
  rw [DiskChunk.sources] at hsource
  split at hsource
  · next hlisted =>
    rcases h column (List.contains_iff_mem.mp hlisted) with
      ⟨number', file', hindex, hdata, hnumber, hfile⟩
    rw [hindex, hdata] at hsource
    simp only [Option.some.injEq, Prod.mk.injEq] at hsource
    rw [← hsource.1, ← hsource.2]
    exact ⟨hnumber, hfile⟩
  · cases hsource

-- A chunk whose files are there has the files that are there.
theorem DiskChunk.Filed.traced {src : Sources} {chunk : DiskChunk} (h : chunk.Filed log d)
    (hsource : src chunk.info.chunk = chunk.sources d) : chunk.From src d := by
  intro column hlisted
  rcases h column hlisted with ⟨number, file, hindex, hdata, -⟩
  refine ⟨number, file, ?_, fun node hnode => ?_, fun node hnode => ?_⟩
  · rw [hsource, DiskChunk.sources, if_pos (List.contains_iff_mem.mpr hlisted), hindex, hdata]
  · rw [hindex, Option.some.injEq] at hnode
    exact hnode.symm
  · rw [hdata, Option.some.injEq] at hnode
    exact hnode.symm

namespace Store

variable {s s' : Store} {bodies : PageKey → Option (List UInt8)} {kept : TableRef → List Taken}

/-- A path in no chunk with a number that was given out. -/
def Unbegun (o : StoreOptions) (next : Nat) (path : Path) : Prop :=
  ∀ ref id, id < next → ¬ o.chunkPath ref id <+: path

theorem Fresh.unbegun {o : StoreOptions} {ref : TableRef} {next next' : Nat} {path : Path}
    {node : DiskNode} (h : Fresh o ref next next' path node) : Unbegun o next path := by
  intro other id hid hin
  rcases h with ⟨new, hle, -, hinside | ⟨hway, -⟩⟩
  · have hsame := (StoreOptions.chunk_unique hin hinside).2
    omega
  · have hpre := hin.trans hway
    have hsame := (StoreOptions.chunk_unique hpre (List.prefix_refl _)).2
    omega

theorem commit_changes {spared : Path → Prop} {made : Path → DiskNode → Prop} (s : Store)
    (ops : List Operation) :
    Disk.Changes spared made (· = s.log.file) s.disk (s.commit ops).1.disk := by
  have happend : Disk.Changes spared made (· = s.log.file) s.disk
      (s.log.append s.disk (ops.map .operation)).1 ∧ _ := append_changes ..
  rw [commit]
  rcases hresult : s.log.append s.disk (ops.map .operation) with ⟨d, e | _, log⟩
  · rw [hresult] at happend
    exact happend.1
  · rw [hresult] at happend
    exact happend.1

theorem commit_backend (s : Store) (ops : List Operation) :
    (s.commit ops).1.volume.backend = s.volume.backend := by
  rw [commit]
  rcases s.log.append s.disk (ops.map .operation) with ⟨d, e | _, log⟩
  · rfl
  · rfl

end Store

namespace Engine

variable {e e' : Engine} {s : Store} {bodies : PageKey → Option (List UInt8)} {src src' : Sources}

/-! ### What turns leave alone -/

/-- What a turn leaves alone: nothing is made in a chunk that was begun, the chunks of tables that
    stay are spared, and no table loses a chunk. -/
structure Leads (e e' : Engine) : Prop where
  options : e'.store.options = e.store.options
  log : e'.store.log.file = e.store.log.file
  next : e.store.registry.nextChunk ≤ e'.store.registry.nextChunk
  backend : e'.store.volume.backend = e.store.volume.backend
  disk : ∃ spared, Disk.Changes spared
    (fun path _ => Store.Unbegun e.store.options e.store.registry.nextChunk path)
      (· = e.store.log.file) e.store.disk e'.store.disk ∧
    ∀ ref t, e.store.catalog.table? ref = some t → (e'.store.catalog.table? ref).isSome = true →
      Spares spared e.store.options ref t.chunks
  tables : ∀ ref t t', e.store.catalog.table? ref = some t →
    e'.store.catalog.table? ref = some t' → ∀ c ∈ t.chunks, c ∈ t'.chunks

-- What leaves the disk and the catalog alone leaves everything alone.
theorem leads_of_same (ho : e'.store.options = e.store.options)
    (hlog : e'.store.log.file = e.store.log.file)
    (hnext : e.store.registry.nextChunk ≤ e'.store.registry.nextChunk)
    (hb : e'.store.volume.backend = e.store.volume.backend)
    (hd : e'.store.disk = e.store.disk) (hc : e'.store.catalog = e.store.catalog) : Leads e e' where
  options := ho
  log := hlog
  next := hnext
  backend := hb
  disk := ⟨fun _ => True, hd ▸ .refl .., fun _ _ _ _ _ _ _ _ => trivial⟩
  tables := fun ref t t' ht ht' c hin => by
    rw [hc, ht, Option.some.injEq] at ht'
    exact ht' ▸ hin

theorem leads_of_moves {spared : Path → Prop} {ref : TableRef}
    (hm : Store.Moves spared ref e.store e'.store)
    (hb : e'.store.volume.backend = e.store.volume.backend)
    (hs : Store.SparesAll spared e.store.options e.store.catalog) : Leads e e' where
  options := hm.options
  log := by rw [hm.log]
  next := hm.next
  backend := hb
  disk := ⟨spared, hm.changes.weaken (fun _ h => h) (fun _ _ hm => hm.unbegun)
    fun _ hw => absurd hw id, fun ref t ht _ => hs ref t ht⟩
  tables := fun ref t t' ht ht' c hin => by
    rw [hm.catalog, ht, Option.some.injEq] at ht'
    exact ht' ▸ hin

theorem flush_backend (session : Session) (s : Store) :
    (session.flush s).1.volume.backend = s.volume.backend := by
  have hflushes := session.flush_spec s
  generalize session.flush s = answer at hflushes ⊢
  cases hflushes <;> rfl

/-! ### Columns with the same files for good -/

/-- A chunk that may be read: it is in its place, and its columns have their files, as far as they
    are still there. -/
structure Known (e : Engine) (src : Sources) (chunk : DiskChunk) : Prop where
  files : chunk.From src e.store.disk
  begun : chunk.info.chunk < e.store.registry.nextChunk
  place : ∃ ref, chunk.directory = e.store.options.chunkPath ref chunk.info.chunk

/-- Every column that may be read has the same files for good, and what is kept of its pages is what
    these have. -/
structure Traced (e : Engine) (src : Sources) : Prop where
  within : src.Within e.store.registry.nextChunk e.store.log.file e.store.disk
  chunks : ∀ holder, ∀ c ∈ e.chunksOf holder, e.Known src c
  readers : ∀ handle r, e.readers.find? handle = some r →
    r.From src (e.Known src) e.store.disk
  keeping : e.store.volume.Keeping src

theorem Traced.mirrors (h : e.Traced src) :
    e.store.volume.Mirrors src (e.Known src) e.store.volume where
  opens := fun _ _ _ => rfl
  places := fun _ hc => hc.files
  loads := fun _ _ _ _ _ _ _ => rfl
  keeping := h.keeping
  backend := rfl

/-- A reader is given what is in the files, whatever is kept of them. -/
theorem Traced.next (h : e.Traced src) {handle : Nat} {r : RecordReader}
    (found : e.readers.find? handle = some r) :
    e.store.volume.Gives src (e.Known src) e.store.volume (RecordReader.From src (e.Known src))
      (r.next e.store.volume) (r.next e.store.volume.bare) :=
  RecordReader.next_mirrors h.mirrors (h.readers handle r found)

theorem calm_leads (hg : e.Guarded) (h : e.Steady bodies) (ht : e.Traced src) (hc : Calm e e') :
    Leads e e' := by
  cases hc with
  | @failed ops s error fits hcommit =>
      have hfollows := (Store.commit_cases (fun _ => True) e.store ops).1
      have hbackend := Store.commit_backend e.store ops
      have hdisk : Disk.Changes (fun _ => True)
          (fun path _ => Store.Unbegun e.store.options e.store.registry.nextChunk path)
            (· = e.store.log.file) e.store.disk (e.store.commit ops).1.disk := Store.commit_changes ..
      have hcatalog : s.catalog = e.store.catalog := commit_failed_catalog fits hcommit
      rw [hcommit] at hfollows hdisk hbackend
      refine ⟨hfollows.options, hfollows.log, hfollows.next, hbackend,
        ⟨_, hdisk, fun _ _ _ _ _ _ _ _ => trivial⟩, fun ref t t' ht ht' c hin => ?_⟩
      simp only [hcatalog, ht, Option.some.injEq] at ht'
      exact ht' ▸ hin
  | opened free table unwritten => exact leads_of_same rfl rfl (Nat.le_refl _) rfl rfl rfl
  | added found htakes => exact leads_of_same rfl rfl (Nat.le_refl _) rfl rfl rfl
  | @flushed handle live session more found htakes =>
      exact leads_of_moves (session.flush_moves e.store).1 (flush_backend session e.store)
        fun ref t ht => Session.spares_lower (h.settled.begun ht)
  | @ended handle live s found hends =>
      rcases h.ended_moves hg found hends with ⟨hmoves, hspares⟩
      refine leads_of_moves hmoves ?_ hspares
      rcases hends with rfl | rfl
      · rfl
      · rfl
  | asked hreader => exact leads_of_same rfl rfl (Nat.le_refl _) rfl rfl rfl
  | @given handle reader found =>
      rcases ht.next found with ⟨v, answer, after, hnext, -, hdisk, hmirrors, -⟩
      rw [onNext, hnext]
      exact leads_of_same rfl rfl (Nat.le_refl _) hmirrors.backend hdisk rfl
  | forgotten keys => exact leads_of_same rfl rfl (Nat.le_refl _) rfl rfl rfl

theorem change_leads (hg : e.Guarded) (hc : Change e e') : Leads e e' := by
  cases hc with
  | @altered ops removed answer s halters changed done =>
      have hdisk : Disk.Changes (Outside removed)
          (fun path _ => Store.Unbegun e.store.options e.store.registry.nextChunk path)
            (· = e.store.log.file) e.store.disk (e.store.commit ops).1.disk := Store.commit_changes ..
      have hfollows := (Store.commit_cases (Outside removed) e.store ops).1
      have hbackend := Store.commit_backend e.store ops
      rw [done] at hdisk hfollows hbackend
      rcases Store.commit_eq_ok done with ⟨d, r, -, happly, hs⟩
      have hanswer := halters.done s done
      have hremoved : Disk.Changes (Outside removed)
          (fun path _ => Store.Unbegun e.store.options e.store.registry.nextChunk path)
            (· = e.store.log.file) s.disk (s.discardTrees removed).disk :=
        Disk.discardTrees_changes fun p hp other hpre houtside => houtside p hp hpre
      have hcatalog : (s.discardTrees removed).catalog = r.catalog := by
        rw [hs]
        rfl
      rw [hanswer] at changed ⊢
      refine ⟨hfollows.options, hfollows.log, hfollows.next, hbackend,
        ⟨_, hdisk.trans hremoved, fun ref t _ hsome c _ path hp => ?_⟩, fun ref t t' ht ht' c hin => ?_⟩
      · have hthere : (r.catalog.table? ref).isSome = true := hcatalog ▸ hsome
        rcases Option.isSome_iff_exists.mp hthere with ⟨t', ht'⟩
        exact halters.apart r happly ref t' ht' c.chunk path hp
      · rcases changed.new ref t' ht' with hold | ⟨hnone, -⟩
        · rw [ht, Option.some.injEq] at hold
          exact hold ▸ hin
        · rw [ht] at hnone
          cases hnone
  | @committed handle live s found written operations done =>
      have hbased := hg.based _ _ found
      have hcommit : e.store.commit live.session.operations = (s, .ok ()) := by
        rw [Session.commit, if_neg operations, hbased.table] at done
        exact done
      have hdisk : Disk.Changes (fun _ => True)
          (fun path _ => Store.Unbegun e.store.options e.store.registry.nextChunk path)
            (· = e.store.log.file) e.store.disk
              (e.store.commit live.session.operations).1.disk := Store.commit_changes ..
      have hfollows := (Store.commit_cases (fun _ => True) e.store live.session.operations).1
      have hbackend := Store.commit_backend e.store live.session.operations
      rcases hbased.commit hg.catalog with ⟨-, -, -, hothers, hcases⟩
      rw [hcommit] at hdisk hfollows hbackend
      rw [done] at hothers hcases
      refine ⟨hfollows.options, hfollows.log, hfollows.next, hbackend,
        ⟨_, hdisk, fun _ _ _ _ _ _ _ _ => trivial⟩, fun ref t t' ht ht' c hin => ?_⟩
      have hafter : s.catalog.table? ref = some t' := ht'
      by_cases hsame : ref = live.session.ref
      · rcases hcases with ⟨-, htable⟩ | ⟨⟨error, herror⟩, -⟩
        · rw [hsame, htable, Option.some.injEq] at hafter
          rw [hsame, hbased.table, Option.some.injEq] at ht
          rw [← hafter, Session.committed, ht]
          exact List.mem_append_left _ hin
        · cases herror
      · rw [hothers ref hsame, ht, Option.some.injEq] at hafter
        exact hafter ▸ hin

/-! ### Turns -/

-- The files of chunks that were begun stay what they are, also if there are new ones.
theorem Leads.later (hl : Leads e e') (h : e.Traced src)
    (hsame : ∀ id, id < e.store.registry.nextChunk → src' id = src id) : ∃ spared,
      src.Later spared (fun path _ => Store.Unbegun e.store.options e.store.registry.nextChunk path)
        e.store.registry.nextChunk e.store.log.file e.store.disk src' e'.store.disk := by
  rcases hl.disk with ⟨spared, hdisk, -⟩
  exact ⟨spared, h.within, hsame, hdisk⟩

theorem Leads.known (hl : Leads e e') (h : e.Traced src)
    (hsame : ∀ id, id < e.store.registry.nextChunk → src' id = src id) {chunk : DiskChunk}
    (hc : e.Known src chunk) : e'.Known src' chunk := by
  rcases hl.later h hsame with ⟨spared, hlater⟩
  rcases hc.place with ⟨ref, hplace⟩
  refine ⟨hc.files.later hlater fun path node hp hunbegun => ?_,
    Nat.lt_of_lt_of_le hc.begun hl.next, ref, by rw [hl.options, hplace]⟩
  exact hunbegun ref chunk.info.chunk hc.begun (hplace ▸ hp)

/-- What was traced stays so, and what is new may be traced by more. -/
theorem Traced.leads (h : e.Traced src) (hl : Leads e e')
    (hsame : ∀ id, id < e.store.registry.nextChunk → src' id = src id)
    (hwithin : src'.Within e'.store.registry.nextChunk e'.store.log.file e'.store.disk)
    (hchunks : ∀ holder, ∀ c ∈ e'.chunksOf holder,
      (∃ before, c ∈ e.chunksOf before) ∨ e'.Known src' c)
    (hreaders : ∀ handle r, e'.readers.find? handle = some r →
      (∃ before, e.readers.find? before = some r) ∨ r.From src' (e'.Known src') e'.store.disk)
    (hkeeping : e'.store.volume.Keeping src') : e'.Traced src' where
  within := hwithin
  chunks := fun holder c hc => by
    rcases hchunks holder c hc with ⟨before, hold⟩ | hnew
    · exact hl.known h hsame (h.chunks before c hold)
    · exact hnew
  readers := fun handle r found => by
    rcases hreaders handle r found with ⟨before, hold⟩ | hnew
    · rcases hl.later h hsame with ⟨spared, hlater⟩
      exact (h.readers before r hold).later hlater fun _ hc => hl.known h hsame hc
    · exact hnew
  keeping := hkeeping

theorem Traced.within_later (h : e.Traced src) (hl : Leads e e') :
    src.Within e'.store.registry.nextChunk e'.store.log.file e'.store.disk := by
  rcases hl.disk with ⟨spared, hdisk, -⟩
  exact h.within.later hdisk hl.next hl.log

theorem Traced.keeping_later (h : e.Traced src) (hl : Leads e e')
    (hsame : ∀ id, id < e.store.registry.nextChunk → src' id = src id)
    (hpages : e'.store.volume.pages = e.store.volume.pages) : e'.store.volume.Keeping src' := by
  rcases hl.later h hsame with ⟨spared, hlater⟩
  exact h.keeping.later hlater hpages hl.backend

-- Where no chunk is new nothing is known of more columns.
theorem Traced.leads_same (h : e.Traced src) (hl : Leads e e')
    (hchunks : ∀ holder, ∀ c ∈ e'.chunksOf holder, ∃ before, c ∈ e.chunksOf before)
    (hreaders : e'.readers = e.readers)
    (hpages : e'.store.volume.pages = e.store.volume.pages) : e'.Traced src :=
  h.leads hl (fun _ _ => rfl) (h.within_later hl) (fun holder c hc => Or.inl (hchunks holder c hc))
    (fun handle _ found => Or.inl ⟨handle, hreaders ▸ found⟩)
    (h.keeping_later hl (fun _ _ => rfl) hpages)

-- A reader is new, or goes on.
theorem Traced.leads_reader (h : e.Traced src) (hl : Leads e e')
    (hc : e'.store.catalog = e.store.catalog) (hs : e'.sessions = e.sessions) {handle : Nat}
    {reader : RecordReader} (hreaders : e'.readers = e.readers.insert handle reader)
    (hreader : reader.From src (e.Known src) e'.store.disk)
    (hkeeping : e'.store.volume.Keeping src) : e'.Traced src := by
  refine h.leads hl (fun _ _ => rfl) (h.within_later hl) (fun holder c hin => Or.inl ⟨holder, ?_⟩)
    (fun other r found => ?_) hkeeping
  · rw [← chunksOf_congr hl.options hc hs]
    exact hin
  · rw [hreaders, IdMap.find?_insert] at found
    split at found
    · rw [Option.some.injEq] at found
      subst found
      refine Or.inr fun c hin => ?_
      rcases hreader c hin with ⟨hlater, hnow⟩
      have hknown : ∀ chunk, e.Known src chunk → e'.Known src chunk := fun _ hchunk =>
        hl.known h (fun _ _ => rfl) hchunk
      refine ⟨fun chunk hchunk => hknown chunk (hlater chunk hchunk), fun r hstate => ?_⟩
      rcases hnow r hstate with ⟨⟨chunk, hchunk, hsame⟩, hcolumn, hpages⟩
      exact ⟨⟨chunk, hknown chunk hchunk, hsame⟩, hcolumn, hpages⟩
    · exact Or.inl ⟨other, found⟩

-- A new chunk has the files that were made for it.
theorem Traced.shift (h : e.Traced src) (hl : Leads e e') (hs : Shift e e')
    (hreaders : e'.readers = e.readers)
    (hpages : e'.store.volume.pages = e.store.volume.pages) :
    ∃ src', (∀ id, id < e.store.registry.nextChunk → src' id = src id) ∧ e'.Traced src' := by
  cases hs with
  | fewer all =>
      refine ⟨src, fun _ _ => rfl, h.leads_same hl (fun holder c hc => ?_) hreaders hpages⟩
      rcases all holder with hsame | hnone
      · exact ⟨holder, hsame ▸ hc⟩
      · rw [hnone] at hc
        exact absurd hc List.not_mem_nil
  | @moved handle ref own left others =>
      refine ⟨src, fun _ _ => rfl, h.leads_same hl (fun holder c hc => ?_) hreaders hpages⟩
      by_cases hsession : holder = .session handle
      · rw [hsession, left] at hc
        exact absurd hc List.not_mem_nil
      · by_cases htable : holder = .table ref
        · rw [htable, own] at hc
          exact (List.mem_append.mp hc).elim (fun hc => ⟨_, hc⟩) fun hc => ⟨_, hc⟩
        · exact ⟨holder, others holder htable hsession ▸ hc⟩
  | @added handle chunk number begun place filed own others =>
      have hnew : Function.update src chunk.info.chunk (chunk.sources e'.store.disk)
          chunk.info.chunk = chunk.sources e'.store.disk := Function.update_self ..
      have hsame : ∀ id, id < e.store.registry.nextChunk →
          Function.update src chunk.info.chunk (chunk.sources e'.store.disk) id = src id :=
        fun id hid => Function.update_of_ne (number ▸ Nat.ne_of_lt hid) ..
      refine ⟨_, hsame, h.leads hl hsame (fun id column index file hsource => ?_)
        (fun holder c hc => ?_) (fun other _ found => Or.inl ⟨other, hreaders ▸ found⟩)
          (h.keeping_later hl hsame hpages)⟩
      · by_cases heq : id = chunk.info.chunk
        · rw [heq, hnew] at hsource
          rw [heq, hl.log, number]
          exact ⟨begun, filed.sources hsource⟩
        · rw [Function.update_of_ne heq] at hsource
          exact h.within_later hl id column index file hsource
      · by_cases heq : holder = .session handle
        · rw [heq, own] at hc
          rcases List.mem_append.mp hc with hc | hc
          · exact Or.inl ⟨_, hc⟩
          · rw [List.mem_singleton.mp hc]
            exact Or.inr ⟨filed.traced hnew, number ▸ begun, place⟩
        · exact Or.inl ⟨holder, others holder heq ▸ hc⟩

-- The reader of a table has the chunks of the table ahead.
theorem from_reader {chunks : DiskChunk → Prop} {database table : String} {paths : List String}
    {t : Table} {r : RecordReader} (hreader : s.reader database table paths = .ok r)
    (ht : s.tableNamed database table = .ok t) (hc : ∀ chunk ∈ s.diskChunks t, chunks chunk)
    (d : Disk) : r.From src chunks d := by
  intro cursor hcursor
  rcases Store.reader_eq_ok.mp hreader with ⟨t', p, ht', -, rfl⟩
  rw [ht, Except.ok.injEq] at ht'
  subst ht'
  rcases List.mem_map.mp hcursor with ⟨column, -, rfl⟩
  exact ⟨hc, fun _ hstate => by cases hstate⟩

theorem Traced.asked (hg : e.Guarded) (h : e.Traced src) (handle : Nat) {database table : String}
    {paths : List String} {reader : RecordReader}
    (hreader : e.store.reader database table paths = .ok reader) :
    (⟨e.store, e.sessions, e.readers.insert handle reader, e.kept⟩ : Engine).Traced src := by
  have hl : Leads e ⟨e.store, e.sessions, e.readers.insert handle reader, e.kept⟩ :=
    leads_of_same rfl rfl (Nat.le_refl _) rfl rfl rfl
  rcases Store.reader_eq_ok.mp hreader with ⟨t, -, ht, -, -⟩
  refine h.leads_reader hl rfl rfl rfl (from_reader hreader ht (fun chunk hchunk => ?_) _) h.keeping
  refine h.chunks (.table t.ref) chunk ?_
  simp only [chunksOf, Store.table?_of_tableNamed hg.catalog ht]
  exact hchunk

theorem Traced.given (hg : e.Guarded) (hs : e.Steady bodies) (h : e.Traced src) {handle : Nat}
    {reader : RecordReader} (found : e.readers.find? handle = some reader) :
    (e.onNext handle (reader.next e.store.volume)).1.Traced src := by
  have hl := calm_leads hg hs h (.given found)
  rcases h.next found with ⟨v, answer, after, hnext, -, hdisk, hmirrors, hafter⟩
  rw [onNext, hnext] at hl ⊢
  exact h.leads_reader hl rfl rfl rfl hafter hmirrors.keeping

theorem Traced.calm (hg : e.Guarded) (hs : e.Steady bodies) (h : e.Traced src) (hc : Calm e e') :
    ∃ src', (∀ id, id < e.store.registry.nextChunk → src' id = src id) ∧ e'.Traced src' := by
  have hl := calm_leads hg hs h hc
  have hshift := (calm_shift hs hc).1
  cases hc with
  | @failed ops s error fits hcommit =>
      have hfollows := (Store.commit_cases (fun _ => True) e.store ops).1
      rw [hcommit] at hfollows
      exact h.shift hl hshift rfl hfollows.pages
  | opened free table unwritten => exact h.shift hl hshift rfl rfl
  | added found htakes => exact h.shift hl hshift rfl rfl
  | @flushed handle live session more found htakes =>
      exact h.shift hl hshift rfl (session.flush_moves e.store).1.pages
  | ended found hends =>
      exact h.shift hl hshift rfl (hs.ended_moves hg found hends).1.pages
  | asked hreader => exact ⟨src, fun _ _ => rfl, h.asked hg _ hreader⟩
  | given found => exact ⟨src, fun _ _ => rfl, h.given hg hs found⟩
  | forgotten keys =>
      refine ⟨src, fun _ _ => rfl, h.leads hl (fun _ _ => rfl) (h.within_later hl)
        (fun holder c hc => Or.inl ⟨holder, ?_⟩) (fun other _ found => Or.inl ⟨other, found⟩)
          (h.keeping.forget keys)⟩
      rw [← chunksOf_congr hl.options rfl rfl]
      exact hc

theorem Traced.change (hg : e.Guarded) (h : e.Traced src) (hc : Change e e') :
    ∃ src', (∀ id, id < e.store.registry.nextChunk → src' id = src id) ∧ e'.Traced src' := by
  have hl := change_leads hg hc
  have hshift := (change_shift hg hc).1
  cases hc with
  | altered halters changed done =>
      rcases halters.follows with ⟨spared, hfollows, -⟩
      exact h.shift hl hshift rfl hfollows.pages
  | @committed handle live s found written operations done =>
      have hfollows := live.session.commit_follows e.store
      rw [done] at hfollows
      exact h.shift hl hshift rfl hfollows.pages

/-! ### Opening a store -/

-- A number is that of one chunk at most, whose files are those of its number.
theorem Distinct.exists_sources (h : e.Distinct) (d : Disk) : ∃ src : Sources,
    (∀ holder, ∀ c ∈ e.chunksOf holder, src c.info.chunk = c.sources d) ∧
      ∀ id column files, src id column = some files →
        ∃ holder, ∃ c ∈ e.chunksOf holder, c.info.chunk = id ∧ c.sources d column = some files := by
  have heach : ∀ id, ∃ sources : Nat → Option (Nat × Nat),
      (∀ holder, ∀ c ∈ e.chunksOf holder, c.info.chunk = id → sources = c.sources d) ∧
        ∀ column files, sources column = some files →
          ∃ holder, ∃ c ∈ e.chunksOf holder, c.info.chunk = id ∧ c.sources d column = some files := by
    intro id
    by_cases hsome : ∃ holder, ∃ c ∈ e.chunksOf holder, c.info.chunk = id
    · rcases hsome with ⟨holder, c, hc, hid⟩
      refine ⟨c.sources d, fun holder' c' hc' hid' => ?_, fun column files hfiles =>
        ⟨holder, c, hc, hid, hfiles⟩⟩
      rw [(h.unique hc hc' (hid.trans hid'.symm)).2]
    · refine ⟨fun _ => none, fun holder c hc hid => absurd ⟨holder, c, hc, hid⟩ hsome,
        fun column files hfiles => by cases hfiles⟩
  choose src hsrc hback using heach
  exact ⟨src, fun holder c hc => hsrc _ holder c hc rfl, hback⟩

-- When a store was opened no page is kept, and nobody reads.
theorem exists_traced {kept : TableRef → List Taken} (hs : s.Settled bodies kept)
    (hd : (resume s kept).Distinct) (hpages : s.volume.pages = ∅) :
    ∃ src, (resume s kept).Traced src := by
  have hfiled : ∀ holder, ∀ c ∈ (resume s kept).chunksOf holder,
      c.Filed s.log.file s.disk ∧ ∃ ref, c.directory = s.options.chunkPath ref c.info.chunk := by
    intro holder c hc
    cases holder with
    | session handle => cases hc
    | table ref =>
        have hsame : (resume s kept).store = s := rfl
        rw [chunksOf, hsame] at hc
        cases ht : s.catalog.table? ref with
        | none =>
            rw [ht] at hc
            cases hc
        | some t =>
            rw [ht] at hc
            rcases List.mem_map.mp hc with ⟨info, -, hplace⟩
            exact ⟨hs.filed ht hc, t.ref, by rw [← hplace]⟩
  rcases hd.exists_sources s.disk with ⟨src, hsource, hback⟩
  refine ⟨src, fun id column number file hfiles => ?_, fun holder c hc => ?_, fun handle r hr => ?_,
    fun key body hkey => ?_⟩
  · rcases hback id column _ hfiles with ⟨holder, c, hc, rfl, hsources⟩
    exact ⟨hd.begun holder c hc, (hfiled holder c hc).1.sources hsources⟩
  · exact ⟨(hfiled holder c hc).1.traced (hsource holder c hc), hd.begun holder c hc,
      (hfiled holder c hc).2⟩
  · cases hr
  · have hnone : s.volume.pages[key]? = some body := hkey
    rw [hpages, Std.HashMap.getElem?_empty] at hnone
    cases hnone

/-- What is known of an engine at any time. -/
structure Ongoing (o : StoreOptions) (e : Engine) : Prop where
  options : e.store.options = o
  guarded : e.Guarded
  steady : ∃ bodies, e.Steady bodies
  distinct : e.Distinct
  traced : ∃ src, e.Traced src

variable {o : StoreOptions} {c : Catalog} {kept : TableRef → List Taken}

/-- What every turn preserves is preserved by actions. -/
theorem Ongoing.run_preserves {P : Engine → Prop} (h : e.Ongoing o) (hp : P e)
    (hcalm : ∀ e e' bodies src, e.Guarded → e.Steady bodies → e.Traced src → e.Distinct → P e →
      Calm e e' → P e')
    (hchange : ∀ e e', e.Guarded → P e → Change e e' → P e') (actions : List Action) :
    (e.run actions).Ongoing o ∧ P (e.run actions) := by
  rcases h.steady with ⟨bodies, hs⟩
  refine hs.run_preserves (P := fun e => e.Ongoing o ∧ P e) h.guarded ⟨h, hp⟩
    (fun e₁ e₂ bodies₁ hg₁ hs₁ h₁ hc => ?_) (fun e₁ e₂ bodies₁ hg₁ hs₁ h₁ hc => ?_) actions
  · rcases h₁ with ⟨h₁, hp₁⟩
    rcases h₁.traced with ⟨src₁, ht₁⟩
    rcases hs₁.calm hg₁ hc with ⟨bodies₂, -, hs₂⟩
    rcases ht₁.calm hg₁ hs₁ hc with ⟨src₂, -, ht₂⟩
    rcases calm_shift hs₁ hc with ⟨hshift, hnext⟩
    exact ⟨⟨(calm_leads hg₁ hs₁ ht₁ hc).options.trans h₁.options, hg₁.calm hc, ⟨bodies₂, hs₂⟩,
      h₁.distinct.shift hshift hnext, src₂, ht₂⟩,
        hcalm e₁ e₂ bodies₁ src₁ hg₁ hs₁ ht₁ h₁.distinct hp₁ hc⟩
  · rcases h₁ with ⟨h₁, hp₁⟩
    rcases h₁.traced with ⟨src₁, ht₁⟩
    rcases ht₁.change hg₁ hc with ⟨src₂, -, ht₂⟩
    rcases change_shift hg₁ hc with ⟨hshift, hnext⟩
    exact ⟨⟨(change_leads hg₁ hc).options.trans h₁.options, hg₁.change hc,
      ⟨bodies₁, hs₁.change hg₁ hc⟩, h₁.distinct.shift hshift hnext, src₂, ht₂⟩,
        hchange e₁ e₂ hg₁ hp₁ hc⟩

theorem Ongoing.run (h : e.Ongoing o) (actions : List Action) : (e.run actions).Ongoing o :=
  (h.run_preserves trivial (fun _ _ _ _ _ _ _ _ _ _ => trivial) (fun _ _ _ _ _ => trivial)
    actions).1

theorem ongoing_resume {faults : Nat → Option Nat} (h : Store.Durable o c kept d) (hc : c.Distinct)
    (opened : Store.openWith o (d.setFaults faults) = (d', .ok s)) :
    (resume s kept).Ongoing o ∧ s.catalog = c := by
  have hset : Store.Durable o c kept (d.setFaults faults) := h.left rfl
  have hopening := hset.openWith_spec
  rw [opened] at hopening
  rcases hopening.resumed s rfl with ⟨hoptions, hcatalog, ⟨bodies, hsettled⟩, -, -⟩
  rcases Store.openWith_below opened with ⟨-, -, hbelow, -, hpages, -⟩
  have hdistinct := distinct_resume (hcatalog.symm ▸ hc) hbelow kept
  exact ⟨⟨hoptions, guarded_resume kept opened,
    ⟨bodies, hsettled, fun _ _ hlive => by cases hlive⟩, hdistinct,
    exists_traced hsettled hdistinct hpages⟩, hcatalog⟩

-- The induction is on the course; each run begins with the chunks that were left.
theorem Course.distinct (h : Course o Disk.Whole c kept d) : c.Distinct := by
  induction h with
  | blank tree free => exact ⟨(fun _ _ ht => by cases ht), fun _ _ _ _ ht => by cases ht⟩
  | opening h planned n ih => exact ih
  | @running c kept d d' faults s h planned opened before a n ih =>
      have hall := fun actions => ((ongoing_resume h.durable ih opened).1.run actions).distinct.catalog
      rw [counted]
      split
      · exact hall _
      · exact hall _

/-- An engine of a store that was opened, after any actions. -/
theorem Course.ongoing {faults : Nat → Option Nat} (h : Course o Disk.Whole c kept d)
    (opened : Store.openWith o (d.setFaults faults) = (d', .ok s)) (actions : List Action) :
    ((resume s kept).run actions).Ongoing o :=
  (ongoing_resume h.durable h.distinct opened).1.run actions

end Engine

end NestedColumns
