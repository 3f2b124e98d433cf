import NestedColumns.Proofs.Store.Chunks
import NestedColumns.Store.Session

/-!
# Writing a chunk

The number of a new chunk is above those of all others, so its directory is free, and no
page of it was ever read. On a disk that does not fail the files of its columns are made
one by one, and hold what the documents have.

## Main definitions

* `Session.chunkFiles`: The files of a chunk with their contents.
* `Session.Begun`: What is at a path because a chunk was begun.

## Theorems

* `Session.chunkEffects_changes`: What writing a chunk changes.
* `Session.chunkEffects_since`, `Session.chunkEffects_keeps`: Files that could be made are
  there.
* `Session.chunkEffects_made`, `Session.chunkEffects_spec`: On a disk that does not fail they
  are made.
* `ChunkFiles.exists_encode`: What a chunk holds if its files are there.
* `ChunkFiles.exists_new`: A chunk is written, and holds the documents of its buffer.
-/

namespace NestedColumns

open Schema (Node)

namespace Session

/-- The files of a chunk with their contents. -/
def chunkFiles (directory : Path) (columns : List (Nat × EncodedColumn)) :
    List (Path × List UInt8) :=
  columns.flatMap fun (id, file) =>
    [(directory ++ [toString id ++ ".col"], file.data),
      (directory ++ [toString id ++ ".idx"], file.index)]

theorem chunkEffects_eq (directory : Path) (chunk : EncodedChunk) :
    chunkEffects directory chunk = .makeDirectories directory ::
      (chunkFiles directory chunk.columns).map fun f => .createFile f.1 f.2 := by
  rw [chunkEffects, chunkFiles, List.map_flatMap]
  rfl

theorem mem_chunkFiles {directory : Path} {columns : List (Nat × EncodedColumn)}
    {f : Path × List UInt8} : f ∈ chunkFiles directory columns ↔ ∃ p ∈ columns,
      f = (directory ++ [toString p.1 ++ ".col"], p.2.data) ∨
        f = (directory ++ [toString p.1 ++ ".idx"], p.2.index) := by
  rw [chunkFiles, List.mem_flatMap]
  simp only [List.mem_cons, List.not_mem_nil, or_false]

-- The last character tells the two files of a column apart.
theorem col_ne_idx (a b : Nat) : toString a ++ ".col" ≠ toString b ++ ".idx" := by
  intro h
  have hlast := congrArg (fun s : String => s.toList.getLast?) h
  have hcol : ".col".toList.getLast? = some 'l' := by decide
  have hidx : ".idx".toList.getLast? = some 'x' := by decide
  simp only [String.toList_append, List.getLast?_append, hcol, hidx, Option.some_or,
    Option.some.injEq, Char.reduceEq] at hlast

theorem fileName_inj {a b : Nat} {suffix : String} (h : toString a ++ suffix = toString b ++ suffix) :
    a = b :=
  toString_inj ((String.append_left_inj suffix).mp h)

theorem nodup_chunkFiles {directory : Path} {columns : List (Nat × EncodedColumn)}
    (h : (columns.map (·.1)).Nodup) : ((chunkFiles directory columns).map (·.1)).Nodup := by
  induction columns with
  | nil => exact List.nodup_nil
  | cons p rest ih =>
      rw [List.map_cons, List.nodup_cons] at h
      have hrest : ∀ q ∈ rest, q.1 ≠ p.1 := fun q hq heq =>
        h.1 (List.mem_map.mpr ⟨q, hq, heq⟩)
      have hcons : (chunkFiles directory (p :: rest)).map (·.1) =
          (directory ++ [toString p.1 ++ ".col"]) :: (directory ++ [toString p.1 ++ ".idx"]) ::
            (chunkFiles directory rest).map (·.1) := rfl
      -- A path of another column ends in another number.
      have hother : ∀ suffix, (suffix = ".col" ∨ suffix = ".idx") →
          directory ++ [toString p.1 ++ suffix] ∉ (chunkFiles directory rest).map (·.1) := by
        intro suffix hsuffix hin
        rcases List.mem_map.mp hin with ⟨f, hf, heq⟩
        rcases mem_chunkFiles.mp hf with ⟨q, hq, rfl | rfl⟩
        · have hname := List.append_cancel_left heq
          rw [List.cons.injEq] at hname
          rcases hsuffix with rfl | rfl
          · exact hrest q hq (fileName_inj hname.1)
          · exact col_ne_idx _ _ hname.1
        · have hname := List.append_cancel_left heq
          rw [List.cons.injEq] at hname
          rcases hsuffix with rfl | rfl
          · exact col_ne_idx _ _ hname.1.symm
          · exact hrest q hq (fileName_inj hname.1)
      rw [hcons, List.nodup_cons, List.mem_cons, not_or, List.nodup_cons]
      refine ⟨⟨fun heq => ?_, hother _ (Or.inl rfl)⟩, hother _ (Or.inr rfl), ih h.2⟩
      have hname := List.append_cancel_left heq
      rw [List.cons.injEq] at hname
      exact col_ne_idx _ _ hname.1

/-- What is at a path because a chunk was begun: a directory on the way to it, or
    something inside. -/
def Begun (o : StoreOptions) (ref : TableRef) (id : Nat) (path : Path) (node : DiskNode) : Prop :=
  o.chunkPath ref id <+: path ∨ path <+: o.chunkPath ref id ∧ node = .directory

variable {o : StoreOptions} {ref : TableRef} {id log : Nat} {d : Disk}

-- Writing a chunk makes what is on the way to its directory and what is in it.
theorem chunkEffects_inside (directory : Path) (spared : Path → Prop) (written : Nat → Prop)
    (chunk : EncodedChunk) : ∀ e ∈ chunkEffects directory chunk,
      Disk.Effect.Within spared
        (fun path node => directory <+: path ∨ path <+: directory ∧ node = .directory) written e := by
  intro e he
  rw [chunkEffects_eq] at he
  rcases List.mem_cons.mp he with rfl | he
  · exact fun other hother => Or.inr ⟨hother, rfl⟩
  · rcases List.mem_map.mp he with ⟨f, hf, rfl⟩
    rcases mem_chunkFiles.mp hf with ⟨p, -, rfl | rfl⟩
    · exact fun _ => Or.inl (List.prefix_append ..)
    · exact fun _ => Or.inl (List.prefix_append ..)

theorem chunkEffects_within (spared : Path → Prop) (written : Nat → Prop) (chunk : EncodedChunk) :
    ∀ e ∈ chunkEffects (o.chunkPath ref id) chunk,
      Disk.Effect.Within spared (Begun o ref id) written e :=
  chunkEffects_inside (o.chunkPath ref id) spared written chunk

theorem Begun.own {next : Nat} {path : Path} {node : DiskNode} (h : Begun o ref id path node)
    (hid : id < next) (hdirectory : o.directory <+: path) (hne : path ≠ o.directory) :
    o.Own next path node := by
  rcases h with hinside | ⟨hway, rfl⟩
  · exact .chunk node hid hinside
  · exact StoreOptions.own_of_prefix_chunk hdirectory hne hid hway

theorem chunkEffects_changes {directory : Path} {chunk : EncodedChunk} {d' : Disk}
    {result : Except FileError Unit}
    (h : d.performAll (chunkEffects directory chunk) = (d', result)) :
    Disk.Changes (fun _ => True)
      (fun path node => directory <+: path ∨ path <+: directory ∧ node = .directory)
      (fun _ => False) d d' :=
  Disk.changes_of_performAll h (chunkEffects_inside directory _ _ chunk)

-- Whatever the faults, a chunk whose files could all be made is there.
theorem chunkEffects_since {directory : Path} {chunk : EncodedChunk} {d' : Disk}
    (h : d.performAll (chunkEffects directory chunk) = (d', .ok ())) :
    d'.node? directory = some .directory ∧
      ∀ f ∈ chunkFiles directory chunk.columns, d'.Since d.nextFile f.1 f.2 := by
  rw [chunkEffects_eq, Disk.performAll] at h
  rcases hmake : d.perform (.makeDirectories directory) with ⟨d₁, result⟩
  rw [hmake] at h
  cases result with
  | error fault => cases h
  | ok _ =>
      have hmade : Disk.Changes (fun _ => True) (fun _ _ => True) (fun _ => False) d d₁ :=
        Disk.changes_of_perform hmake fun _ _ => trivial
      have hrest : d₁.performAll ((chunkFiles directory chunk.columns).map fun f =>
          .createFile f.1 f.2) = (d', .ok ()) := h
      exact ⟨(Disk.createFiles_changes hrest).kept _ _ trivial (Disk.there_of_makeDirectories hmake),
        fun f hf => (Disk.createFiles_since hrest f hf).earlier hmade.nextFile⟩

theorem chunkEffects_keeps {directory : Path} {chunk : EncodedChunk} {d' : Disk}
    (hlog : log < d.nextFile)
    (h : d.performAll (chunkEffects directory chunk) = (d', .ok ())) :
    d'.node? directory = some .directory ∧
      ∀ f ∈ chunkFiles directory chunk.columns, d'.Keeps log f.1 f.2 :=
  ⟨(chunkEffects_since h).1, fun f hf => ((chunkEffects_since h).2 f hf).keeps hlog⟩

-- On a disk that does not fail a chunk is written where no file is in the way.
theorem chunkEffects_made {directory : Path} (hr : d.Reliable) (hfree : d.Free directory)
    {chunk : EncodedChunk} (hids : chunk.columnIds.Nodup) :
    ∃ d', d.performAll (chunkEffects directory chunk) = (d', .ok ()) := by
  rcases Disk.makeDirectories_spec hr hfree.way with ⟨d₁, hmake⟩
  have hchanges : Disk.Changes (fun _ => True)
      (fun path node => path <+: directory ∧ node = .directory) (fun _ => False) d d₁ :=
    Disk.changes_of_perform hmake fun other hother => ⟨hother, rfl⟩
  have hpath : ∀ f ∈ chunkFiles directory chunk.columns, ∃ name, f.1 = directory ++ [name] := by
    intro f hf
    rcases mem_chunkFiles.mp hf with ⟨p, -, rfl | rfl⟩
    · exact ⟨_, rfl⟩
    · exact ⟨_, rfl⟩
  have hnone : ∀ f ∈ chunkFiles directory chunk.columns, d₁.node? f.1 = none := by
    intro f hf
    rcases hpath f hf with ⟨name, heq⟩
    rw [Option.eq_none_iff_forall_ne_some]
    intro node hnode
    rcases hchanges.new _ _ hnode with hold | ⟨⟨hway, -⟩, -⟩
    · rw [heq, hfree.inside name] at hold
      cases hold
    · have hle := hway.length_le
      rw [heq, List.length_append, List.length_singleton] at hle
      omega
  have hparent : ∀ f ∈ chunkFiles directory chunk.columns,
      d₁.node? f.1.dropLast = some .directory := by
    intro f hf
    rcases hpath f hf with ⟨name, heq⟩
    rw [heq, List.dropLast_concat, Disk.there_of_makeDirectories hmake]
  rcases Disk.createFiles_spec (hchanges.reliable hr) hnone hparent (nodup_chunkFiles hids) with
    ⟨d₂, hfiles⟩
  refine ⟨d₂, ?_⟩
  rw [chunkEffects_eq, Disk.performAll, hmake]
  exact hfiles

theorem chunkEffects_spec (hl : o.Laid id log d) (hr : d.Reliable) (ref : TableRef)
    {chunk : EncodedChunk} (hids : chunk.columnIds.Nodup) :
    ∃ d', d.performAll (chunkEffects (o.chunkPath ref id) chunk) = (d', .ok ()) :=
  chunkEffects_made hr ⟨hl.clear (Nat.le_refl id),
    fun _ => hl.free (Nat.le_refl id) _ (List.prefix_append ..)⟩ hids

end Session

/-! ### The documents of a buffer -/

namespace ChunkFiles

variable {o : StoreOptions} {log limit id : Nat} {d : Disk} {schema : Schema}

/-- What pages hold when those of a new chunk are among them. -/
def withChunk (o : StoreOptions) (bodies : PageKey → Option (List UInt8)) (schema : Schema)
    (id : Nat) (batch : List Taken) (key : PageKey) : Option (List UInt8) :=
  if key.chunk = id then
    (ChunkBuffer.leaf? schema key.column).bind fun leaf =>
      (Column.pack ⟨leaf.maxRep, leaf.maxDef⟩ o.columnOptions.targetPageSize
        (batch.map fun x => x.entries key.column))[key.page]?.map
          (Page.body ⟨leaf.maxRep, leaf.maxDef⟩)
  else bodies key

-- A column that a document touched is one of its schema, and so of any later one.
theorem mem_columns_of_touched {x : Taken} {streams : Shredding.Streams}
    (hx : x.Under limit schema) (h : Shredding.shred x.schema x.document = .ok streams)
    {column : Nat} (hc : (streams.find? column).isSome = true) : column ∈ schema.root.columns := by
  rcases Shredding.find?_shred hx.sound.distinct h with ⟨hothers, -⟩
  by_cases hin : column ∈ x.schema.root.columns
  · exact hx.grown.grows.columns_subset hin
  · rw [hothers column hin] at hc
    cases hc

-- A buffer is written as the columns that its documents touched.
theorem exists_encode (o : StoreOptions) (log id : Nat) (bodies : PageKey → Option (List UInt8))
    (ref : TableRef) (hs : schema.Sound limit) {buffer : ChunkBuffer} {batch : List Taken}
    {streams : List Shredding.Streams} (hbuffer : buffer.Holds streams)
    (hbatch : List.Forall₂ (fun x s => Shredding.shred x.schema x.document = .ok s) batch streams)
    (hx : ∀ x ∈ batch, x.Under limit schema) :
    ∃ chunk, buffer.encode schema o.columnOptions = .ok chunk ∧ chunk.columnIds.Nodup ∧
      ∀ d : Disk, (∀ f ∈ Session.chunkFiles (o.chunkPath ref id) chunk.columns,
          d.Keeps log f.1 f.2) →
        ChunkFiles o log d (withChunk o bodies schema id batch) schema ref
          ⟨id, chunk.recordCount, chunk.columnIds⟩ batch := by
  have hentries : ∀ column, streams.map (ChunkBuffer.entriesIn column) =
      batch.map fun x => x.entries column := by
    intro column
    clear hbuffer hx
    induction hbatch with
    | nil => rfl
    | cons hshred _ ih => rw [List.map_cons, List.map_cons, ih, Taken.entries_of_shred hshred]
  have hcolumns : ∀ s ∈ streams, ∀ column, (s.find? column).isSome = true →
      column ∈ schema.root.columns := by
    intro s hs column hc
    rcases List.mem_iff_getElem.mp hs with ⟨i, hi, rfl⟩
    have hi' : i < batch.length := hbatch.length_eq ▸ hi
    exact mem_columns_of_touched (hx _ (List.getElem_mem hi')) (hbatch.get hi' hi) hc
  rcases hbuffer.encode_spec hs hcolumns with ⟨chunk, hencode, hcount, hids, hlisted, hwritten⟩
  refine ⟨chunk, hencode, hids, fun d hkeeps => ⟨?_, ?_, ?_⟩⟩
  · rw [hcount, hbatch.length_eq]
  · intro column hcolumn x hin
    have hnot : column ∉ chunk.columnIds := fun hmem => by
      rw [List.contains_iff_mem.mpr hmem] at hcolumn
      cases hcolumn
    rw [hlisted] at hnot
    rcases List.mem_iff_getElem.mp hin with ⟨i, hi, rfl⟩
    have hi' : i < streams.length := hbatch.length_eq ▸ hi
    have hmiss : ¬ (streams[i].find? column).isSome = true := fun hsome =>
      hnot ⟨_, List.getElem_mem hi', hsome⟩
    rw [Option.not_isSome_iff_eq_none] at hmiss
    have hshred : Shredding.shred batch[i].schema batch[i].document = .ok streams[i] :=
      hbatch.get hi hi'
    rw [Taken.entries_of_shred hshred, ChunkBuffer.entriesIn, hmiss, Option.getD_none]
  · intro column hcolumn
    have hmem := List.contains_iff_mem.mp hcolumn
    rcases List.mem_map.mp hmem with ⟨p, hp, rfl⟩
    rcases hwritten p hp with ⟨leaf, hleaf, hfile⟩
    rcases (hlisted p.1).mp hmem with ⟨s, hin, hsome⟩
    rcases Node.exists_way hs.names (hcolumns s hin p.1 hsome) with ⟨way, type, hw⟩
    rcases ChunkBuffer.exists_leaf? hs hw with ⟨leaf', hleaf', hrep, hdef⟩
    rw [hleaf, Option.some.injEq] at hleaf'
    subst hleaf'
    rw [hentries, hrep, hdef] at hfile
    have hindex := hkeeps _ (Session.mem_chunkFiles.mpr ⟨p, hp, Or.inr rfl⟩)
    have hdata := hkeeps _ (Session.mem_chunkFiles.mpr ⟨p, hp, Or.inl rfl⟩)
    rw [hfile] at hindex hdata
    refine ⟨way, type, hw, hindex, hdata, fun n page hpage => ?_⟩
    rw [withChunk, if_pos rfl, hleaf, Option.bind_some, hrep, hdef]
    exact Option.map_eq_some_iff.mpr ⟨page, hpage, rfl⟩

theorem exists_new (bodies : PageKey → Option (List UInt8)) (hl : o.Laid id log d)
    (hr : d.Reliable) (ref : TableRef) (hs : schema.Sound limit) {buffer : ChunkBuffer}
    {batch : List Taken} {streams : List Shredding.Streams} (hbuffer : buffer.Holds streams)
    (hbatch : List.Forall₂ (fun x s => Shredding.shred x.schema x.document = .ok s) batch streams)
    (hx : ∀ x ∈ batch, x.Under limit schema) :
    ∃ chunk d', buffer.encode schema o.columnOptions = .ok chunk ∧
      d.performAll (Session.chunkEffects (o.chunkPath ref id) chunk) = (d', .ok ()) ∧
      ChunkFiles o log d' (withChunk o bodies schema id batch) schema ref
        ⟨id, chunk.recordCount, chunk.columnIds⟩ batch := by
  rcases exists_encode o log id bodies ref hs hbuffer hbatch hx with ⟨chunk, hencode, hids, hfiles⟩
  rcases Session.chunkEffects_spec hl hr ref hids with ⟨d', hperform⟩
  exact ⟨chunk, d', hencode, hperform,
    hfiles d' (Session.chunkEffects_keeps hl.number hperform).2⟩

end ChunkFiles

end NestedColumns
