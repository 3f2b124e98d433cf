import NestedColumns.Proofs.Column.Cursors
import NestedColumns.Proofs.Column.Untouched
import NestedColumns.Proofs.Disk.Changes

/-!
# Reading with pages that are kept

Pages are kept under the chunk, the column and their number, whichever table they were read for.
As long as a column of a chunk has the same two files for good, whoever reads it, a reader is given
what it would be given if no page were kept. So it does not matter what else was read before, and
neither does what has become of the disk elsewhere.

Nothing is assumed of what the files hold: an index that does not fit its file, or a page that does
not pass its check, is met in the same way. And nothing is assumed of which pages are kept: all of
this holds of any part of them.

## Main definitions

* `Sources`: The files that columns have.
* `Volume.Keeping`: What is kept of pages is what their files have.
* `Volume.bare`: A volume that keeps no pages.
* `Volume.Mirrors`: A volume gives what another one has, of which no pages are kept.

## Theorems

* `Volume.page_keeping`: A page that is given is the one in its file.
* `RecordReader.next_mirrors`: A reader is given what it would be given without pages.
* `RecordReader.next_forget`: It does not matter which pages are forgotten.
* `Volume.Mirrors.changes`: The disk may change elsewhere.
-/

namespace NestedColumns

/-- The numbers of the index and of the file that a column of a chunk has. -/
abbrev Sources := Nat → Nat → Option (Nat × Nat)

variable {src : Sources} {d d' : Disk} {u v v' : Volume} {chunks : DiskChunk → Prop}

/-- An open column has the index and the file of its place. -/
def OpenColumn.From (src : Sources) (d : Disk) (c : OpenColumn) : Prop :=
  ∃ number file, src c.chunk c.column = some (number, file) ∧ c.file = some file ∧
    PageIndex.decode (d.contentsOf number) = .ok c.index

/-- The files that a chunk lists are those of its columns, as far as they are there. -/
def DiskChunk.From (src : Sources) (d : Disk) (chunk : DiskChunk) : Prop :=
  ∀ column ∈ chunk.info.columns, ∃ number file,
    src chunk.info.chunk column = some (number, file) ∧
      (∀ node, d.node? (chunk.indexPath column) = some node → node = .file number) ∧
      ∀ node, d.node? (chunk.dataPath column) = some node → node = .file file

/-- What is left of a column of some chunks has the index and the file of its place. -/
structure ColumnReader.From (src : Sources) (chunks : DiskChunk → Prop) (d : Disk)
    (r : ColumnReader) : Prop where
  chunk : ∃ chunk, chunks chunk ∧ chunk.info.chunk = r.column.chunk
  column : r.column.From src d
  pages : ∀ p ∈ r.pages, r.column.index[p.1]? = some p.2

/-- A cursor over some chunks has the files of its column. -/
structure Cursor.From (src : Sources) (chunks : DiskChunk → Prop) (d : Disk) (c : Cursor) :
    Prop where
  later : ∀ chunk ∈ c.chunks, chunks chunk
  now : ∀ reader, c.state = .reading reader → reader.From src chunks d

/-- The cursors of a reader over some chunks have the files of their columns. -/
def RecordReader.From (src : Sources) (chunks : DiskChunk → Prop) (d : Disk) (r : RecordReader) :
    Prop :=
  ∀ c ∈ r.cursors, c.From src chunks d

namespace Volume

/-- What is kept of pages is what the files of their columns have. -/
def Keeping (src : Sources) (v : Volume) : Prop :=
  ∀ (key : PageKey) (body : List UInt8), v.pages[key]? = some body →
    ∃ number file index entry, src key.chunk key.column = some (number, file) ∧
      PageIndex.decode (v.disk.contentsOf number) = .ok index ∧ index[key.page]? = some entry ∧
      v.loadPage (some file) entry = .ok body

/-- A volume that keeps no pages. -/
def bare (v : Volume) : Volume :=
  ⟨v.disk, v.backend, 0, ∅⟩

/-- A volume gives what is in the files of some chunks on another one. -/
structure Mirrors (src : Sources) (chunks : DiskChunk → Prop) (v u : Volume) : Prop where
  opens : ∀ chunk, chunks chunk → ∀ column, v.openColumn chunk column = u.openColumn chunk column
  places : ∀ chunk, chunks chunk → chunk.From src v.disk
  loads : ∀ chunk, chunks chunk → ∀ column number file,
    src chunk.info.chunk column = some (number, file) →
      ∀ entry, v.loadPage (some file) entry = u.loadPage (some file) entry
  keeping : v.Keeping src
  backend : v.backend = u.backend

/-! ### Pages -/

theorem page_bare (u : Volume) (column : OpenColumn) (number : Nat) (entry : PageEntry) :
    u.bare.page column number entry = (u.bare, u.loadPage column.file entry) := by
  have hempty : u.bare.pages[(⟨column.chunk, column.column, number⟩ : PageKey)]? = none :=
    Std.HashMap.getElem?_empty
  have hload : u.bare.loadPage column.file entry = u.loadPage column.file entry := rfl
  have hcapacity : u.bare.capacity = 0 := rfl
  rw [page, hempty]
  simp only [hload, hcapacity, if_true]
  cases u.loadPage column.file entry with
  | error e => rfl
  | ok body => rfl

/-- A page that is given is the one in the file of its column, whether it was kept or not. -/
theorem page_keeping {column : OpenColumn} {number : Nat} {entry : PageEntry}
    (hk : v.Keeping src) (hc : column.From src v.disk) (he : column.index[number]? = some entry) :
    ∃ v', v.page column number entry = (v', v.loadPage column.file entry) ∧ v'.disk = v.disk ∧
      v'.backend = v.backend ∧ v'.Keeping src := by
  rcases hc with ⟨source, file, hsource, hfile, hindex⟩
  rw [page]
  cases hkept : v.pages[(⟨column.chunk, column.column, number⟩ : PageKey)]? with
  | some body =>
      rcases hk _ _ hkept with ⟨source', file', index, entry', hsource', hindex', hentry, hload⟩
      simp only at hsource'
      rw [hsource, Option.some.injEq, Prod.mk.injEq] at hsource'
      rw [← hsource'.1, hindex, Except.ok.injEq] at hindex'
      rw [← hindex', he, Option.some.injEq] at hentry
      rw [← hsource'.2, ← hentry, ← hfile] at hload
      exact ⟨v, by rw [hload], rfl, rfl, hk⟩
  | none =>
      cases hload : v.loadPage column.file entry with
      | error e => exact ⟨v, rfl, rfl, rfl, hk⟩
      | ok body =>
          by_cases hcapacity : v.capacity = 0
          · simp only [if_pos hcapacity]
            exact ⟨v, rfl, rfl, rfl, hk⟩
          · simp only [if_neg hcapacity]
            refine ⟨_, rfl, rfl, rfl, fun key other hkey => ?_⟩
            rw [Std.HashMap.getElem?_insert] at hkey
            split at hkey
            · next heq =>
              rw [Option.some.injEq] at hkey
              rw [← beq_iff_eq.mp heq, ← hkey]
              exact ⟨source, file, column.index, entry, hsource, hindex, he, hfile ▸ hload⟩
            · exact hk key other hkey

/-- A column is opened with the files of its place. -/
theorem from_openColumn {chunk : DiskChunk} {column : Nat} {c : OpenColumn}
    (h : chunk.From src v.disk) (hopen : v.openColumn chunk column = .ok (some c)) :
    c.From src v.disk ∧ c.chunk = chunk.info.chunk ∧
      ∃ file, c.file = some file ∧ v.disk.node? (chunk.dataPath column) = some (.file file) := by
  rw [openColumn] at hopen
  split at hopen
  · cases hopen
  · next hlisted =>
    rw [Bool.not_eq_true', Bool.not_eq_false, List.contains_iff_mem] at hlisted
    rcases h column hlisted with ⟨number, file, hsource, hindexed, hstored⟩
    rcases Outcome.bind_eq_ok.mp hopen with ⟨bytes, hread, hrest⟩
    rcases Outcome.bind_eq_ok.mp hrest with ⟨index, hdecode, hlast⟩
    clear hopen hrest
    rcases Disk.read_eq_ok.mp (Outcome.mapError_eq_ok.mp hread) with ⟨found, hnode, rfl⟩
    have hnumber := hindexed _ hnode
    rw [DiskNode.file.injEq] at hnumber
    rw [hnumber] at hdecode
    simp only at hlast
    split at hlast
    · cases hlast
    · rcases hdata : v.disk.node? (chunk.dataPath column) with _ | _ | other
      · rw [hdata] at hlast
        cases hlast
      · cases hstored _ hdata
      · have hother := hstored _ hdata
        rw [DiskNode.file.injEq] at hother
        rw [hdata] at hlast
        simp only [pure, Except.pure, Except.ok.injEq, Option.some.injEq] at hlast
        subst hlast hother
        exact ⟨⟨number, other, hsource, rfl, Outcome.mapError_eq_ok.mp hdecode⟩, rfl, other, rfl,
          rfl⟩

-- Of a volume only what is on its disk and how it is read matter for its files.
theorem openColumn_congr (h : v'.disk = v.disk) (chunk : DiskChunk) (column : Nat) :
    v'.openColumn chunk column = v.openColumn chunk column := by
  rw [openColumn, openColumn, h]

theorem loadPage_congr (h : v'.backend = v.backend) {file : Nat}
    (hc : v'.disk.contentsOf file = v.disk.contentsOf file) (entry : PageEntry) :
    v'.loadPage (some file) entry = v.loadPage (some file) entry := by
  rw [loadPage, loadPage, readRange, readRange, h]
  simp only [hc]

theorem Mirrors.keep (h : v.Mirrors src chunks u) (hd : v'.disk = v.disk)
    (hb : v'.backend = v.backend) (hk : v'.Keeping src) : v'.Mirrors src chunks u where
  opens := fun chunk hc column => (openColumn_congr hd chunk column).trans (h.opens chunk hc column)
  places := fun chunk hc => hd ▸ h.places chunk hc
  loads := fun chunk hc column number file hsource entry =>
    (loadPage_congr hb (by rw [hd]) entry).trans (h.loads chunk hc column number file hsource entry)
  keeping := hk
  backend := hb.trans h.backend

-- What is still kept was kept before.
theorem getElem?_forget (v : Volume) (keys : List PageKey) {key : PageKey} {body : List UInt8}
    (h : (v.forget keys).pages[key]? = some body) : v.pages[key]? = some body := by
  rw [forget] at h
  generalize v.pages = pages at h
  induction keys generalizing pages with
  | nil => exact h
  | cons gone keys ih =>
      have hrest := ih (pages.erase gone) h
      rw [Std.HashMap.getElem?_erase] at hrest
      split at hrest
      · cases hrest
      · exact hrest

/-- Of pages that are right any part is. -/
theorem Keeping.forget (h : v.Keeping src) (keys : List PageKey) : (v.forget keys).Keeping src :=
  fun key body hkey => h key body (v.getElem?_forget keys hkey)

/-- A volume that forgets pages gives what it gave before. -/
theorem Mirrors.forget (h : v.Mirrors src chunks u) (keys : List PageKey) :
    (v.forget keys).Mirrors src chunks u :=
  h.keep rfl rfl (h.keeping.forget keys)

/-- A step from a volume gives what it gives where no pages are kept, and something holds of what is
    left to be read. -/
def Gives {α β : Type} (src : Sources) (chunks : DiskChunk → Prop) (v u : Volume)
    (left : Disk → β → Prop) (step bare : Volume × α × β) : Prop :=
  ∃ v' answer after, step = (v', answer, after) ∧ bare = (u.bare, answer, after) ∧
    v'.disk = v.disk ∧ v'.Mirrors src chunks u ∧ left v'.disk after

end Volume

/-! ### Readers -/

namespace ColumnReader

-- The induction is on the pages that are left, of which each is given as it is in its file.
theorem nextFrom_mirrors {column : OpenColumn} {layout : PageLayout} {pages : List (Nat × PageEntry)}
    (hv : v.Mirrors src chunks u) (hchunk : ∃ chunk, chunks chunk ∧ chunk.info.chunk = column.chunk)
    (hc : column.From src v.disk) (hp : ∀ p ∈ pages, column.index[p.1]? = some p.2)
    (records : List (List Triple)) :
    v.Gives src chunks u (From src chunks) (nextFrom v column layout pages records)
      (nextFrom u.bare column layout pages records) := by
  induction pages generalizing v records with
  | nil =>
      cases records with
      | nil => exact ⟨v, _, _, rfl, rfl, rfl, hv, hchunk, hc, hp⟩
      | cons record rest => exact ⟨v, _, _, rfl, rfl, rfl, hv, hchunk, hc, hp⟩
  | cons page pages ih =>
      rcases page with ⟨number, entry⟩
      cases records with
      | cons record rest => exact ⟨v, _, _, rfl, rfl, rfl, hv, hchunk, hc, hp⟩
      | nil =>
          rcases Volume.page_keeping hv.keeping hc (hp _ List.mem_cons_self) with
            ⟨v₁, hpage, hd, hb, hk⟩
          rcases hc with ⟨source, file, hsource, hfile, hindex⟩
          have hload : v.loadPage column.file entry = u.loadPage column.file entry := by
            rcases hchunk with ⟨chunk, hin, hsame⟩
            rw [hfile, hv.loads chunk hin _ _ _ (hsame ▸ hsource)]
          have hv₁ := hv.keep hd hb hk
          have hc₁ : column.From src v₁.disk := hd ▸ ⟨source, file, hsource, hfile, hindex⟩
          rw [nextFrom, nextFrom, hpage, Volume.page_bare, hload]
          cases u.loadPage column.file entry with
          | error e => exact ⟨v₁, _, _, rfl, rfl, hd, hv₁, hchunk, hc₁, hp⟩
          | ok body =>
              simp only
              cases Page.decode layout body with
              | error e => exact ⟨v₁, _, _, rfl, rfl, hd, hv₁, hchunk, hc₁, hp⟩
              | ok records =>
                  rcases ih hv₁ hc₁ (fun p hin => hp p (List.mem_cons_of_mem _ hin)) records with
                    ⟨v₂, answer, reader, hnext, hbare, hd₂, hrest⟩
                  exact ⟨v₂, answer, reader, hnext, hbare, hd₂.trans hd, hrest⟩

theorem next_mirrors {r : ColumnReader} (hv : v.Mirrors src chunks u) (hr : r.From src chunks v.disk) :
    v.Gives src chunks u (From src chunks) (r.next v) (r.next u.bare) :=
  nextFrom_mirrors hv hr.chunk hr.column hr.pages r.records

-- The pages of a column are those of its index.
theorem from_ofColumn {column : OpenColumn} (h : column.From src d)
    (hchunk : ∃ chunk, chunks chunk ∧ chunk.info.chunk = column.chunk) (layout : PageLayout) :
    (ofColumn column layout).From src chunks d := by
  refine ⟨hchunk, h, fun p hp => ?_⟩
  rcases List.mem_map.mp hp with ⟨⟨entry, i⟩, hin, rfl⟩
  exact List.mem_zipIdx_iff_getElem?.mp hin

end ColumnReader

namespace Cursor

variable {column : Nat} {layout : PageLayout}

-- The induction is on the chunks that are left.
theorem nextChunk_mirrors {left : List DiskChunk} (hv : v.Mirrors src chunks u)
    (hc : ∀ chunk ∈ left, chunks chunk) :
    v.Gives src chunks u (From src chunks) (nextChunk v column layout left)
      (nextChunk u.bare column layout left) := by
  have hidle : ∀ (left : List DiskChunk) (d : Disk), (∀ chunk ∈ left, chunks chunk) →
      From src chunks d ⟨column, layout, left, .idle⟩ :=
    fun _ _ hleft => ⟨hleft, fun _ hstate => by cases hstate⟩
  induction left generalizing v with
  | nil => exact ⟨v, _, _, rfl, rfl, rfl, hv, hidle [] _ hc⟩
  | cons chunk left ih =>
      have hleft : ∀ chunk ∈ left, chunks chunk := fun c hin => hc c (List.mem_cons_of_mem _ hin)
      have hchunk := hc chunk List.mem_cons_self
      have hbare : u.bare.openColumn chunk column = u.openColumn chunk column := rfl
      rw [nextChunk, nextChunk, hbare, ← hv.opens chunk hchunk column]
      cases hopen : v.openColumn chunk column with
      | error e => exact ⟨v, _, _, rfl, rfl, rfl, hv, hidle left _ hleft⟩
      | ok opened =>
          cases opened with
          | none =>
              cases chunk.info.recordCount with
              | zero => exact ih hv hleft
              | succ remaining =>
                  exact ⟨v, _, _, rfl, rfl, rfl, hv, hleft, fun _ hstate => by cases hstate⟩
          | some c =>
              rcases Volume.from_openColumn (hv.places chunk hchunk) hopen with ⟨hfrom, hsame, -⟩
              rcases ColumnReader.next_mirrors hv (ColumnReader.from_ofColumn hfrom
                ⟨chunk, hchunk, hsame.symm⟩ layout) with
                ⟨v₁, answer, reader, hnext, hnext', hd, hv₁, hreader⟩
              simp only [hnext, hnext']
              have hstay : From src chunks v₁.disk ⟨column, layout, left, .reading reader⟩ := by
                refine ⟨hleft, fun other hstate => ?_⟩
                rw [CursorState.reading.injEq] at hstate
                exact hstate ▸ hreader
              cases answer with
              | error e => exact ⟨v₁, _, _, rfl, rfl, hd, hv₁, hstay⟩
              | ok found =>
                  cases found with
                  | none =>
                      rcases ih hv₁ hleft with ⟨v₂, answer, cursor, hrest, hrest', hd₂, hlast⟩
                      exact ⟨v₂, answer, cursor, hrest, hrest', hd₂.trans hd, hlast⟩
                  | some record => exact ⟨v₁, _, _, rfl, rfl, hd, hv₁, hstay⟩

theorem next_mirrors {c : Cursor} (hv : v.Mirrors src chunks u) (hc : c.From src chunks v.disk) :
    v.Gives src chunks u (From src chunks) (c.next v) (c.next u.bare) := by
  rcases c with ⟨column, layout, left, state⟩
  rcases hc with ⟨hleft, hstate⟩
  have hchunk : v.Gives src chunks u (From src chunks) (nextChunk v column layout left)
      (nextChunk u.bare column layout left) := nextChunk_mirrors hv hleft
  cases state with
  | idle => exact hchunk
  | missing remaining =>
      cases remaining with
      | zero => exact hchunk
      | succ remaining =>
          exact ⟨v, _, _, rfl, rfl, rfl, hv, hleft, fun _ hreading => by cases hreading⟩
  | reading reader =>
      rcases ColumnReader.next_mirrors hv (hstate reader rfl) with
        ⟨v₁, answer, reader', hnext, hnext', hd, hv₁, hreader⟩
      have hstay : From src chunks v₁.disk ⟨column, layout, left, .reading reader'⟩ := by
        refine ⟨hleft, fun other hreading => ?_⟩
        rw [CursorState.reading.injEq] at hreading
        exact hreading ▸ hreader
      rw [next, next]
      simp only [hnext, hnext']
      cases answer with
      | error e => exact ⟨v₁, _, _, rfl, rfl, hd, hv₁, hstay⟩
      | ok found =>
          cases found with
          | none =>
              have hrest : v₁.Gives src chunks u (From src chunks) (nextChunk v₁ column layout left)
                  (nextChunk u.bare column layout left) := nextChunk_mirrors hv₁ hleft
              rcases hrest with ⟨v₂, answer, cursor, hrest, hrest', hd₂, hlast⟩
              exact ⟨v₂, answer, cursor, hrest, hrest', hd₂.trans hd, hlast⟩
          | some record => exact ⟨v₁, _, _, rfl, rfl, hd, hv₁, hstay⟩

end Cursor

namespace RecordReader

-- The induction is on the cursors; those before one that fails have moved on.
theorem stepCursors_mirrors {cursors : List Cursor} (hv : v.Mirrors src chunks u)
    (hc : ∀ c ∈ cursors, c.From src chunks v.disk) :
    v.Gives src chunks u (fun d cursors => ∀ c ∈ cursors, Cursor.From src chunks d c)
      (stepCursors v cursors) (stepCursors u.bare cursors) := by
  induction cursors generalizing v with
  | nil => exact ⟨v, _, _, rfl, rfl, rfl, hv, hc⟩
  | cons cursor rest ih =>
      rcases Cursor.next_mirrors hv (hc cursor List.mem_cons_self) with
        ⟨v₁, answer, cursor', hnext, hnext', hd, hv₁, hcursor⟩
      have hrest : ∀ c ∈ rest, c.From src chunks v₁.disk := fun c hin =>
        hd ▸ hc c (List.mem_cons_of_mem _ hin)
      rw [stepCursors, stepCursors, hnext, hnext']
      cases answer with
      | error e => exact ⟨v₁, _, _, rfl, rfl, hd, hv₁, List.forall_mem_cons.mpr ⟨hcursor, hrest⟩⟩
      | ok triples =>
          rcases ih hv₁ hrest with ⟨v₂, others, rest', hstep, hstep', hd₂, hv₂, hall⟩
          have hboth : ∀ c ∈ cursor' :: rest', c.From src chunks v₂.disk :=
            List.forall_mem_cons.mpr ⟨hd₂ ▸ hcursor, hall⟩
          simp only [hstep, hstep']
          cases others with
          | error e => exact ⟨v₂, _, _, rfl, rfl, hd₂.trans hd, hv₂, hboth⟩
          | ok others => exact ⟨v₂, _, _, rfl, rfl, hd₂.trans hd, hv₂, hboth⟩

/-- A reader is given what it would be given if no page were kept. -/
theorem next_mirrors {r : RecordReader} (hv : v.Mirrors src chunks u)
    (hr : r.From src chunks v.disk) :
    v.Gives src chunks u (From src chunks) (r.next v) (r.next u.bare) := by
  rw [next, next]
  by_cases hend : r.total ≤ r.emitted
  · rw [if_pos hend, if_pos hend]
    exact ⟨v, _, _, rfl, rfl, rfl, hv, hr⟩
  · rw [if_neg hend, if_neg hend]
    rcases stepCursors_mirrors hv hr with ⟨v₁, answer, cursors, hstep, hstep', hd, hv₁, hcursors⟩
    rw [hstep, hstep']
    cases answer with
    | error e => exact ⟨v₁, _, _, rfl, rfl, hd, hv₁, hcursors⟩
    | ok documents =>
        simp only
        split
        · exact ⟨v₁, _, _, rfl, rfl, hd, hv₁, hcursors⟩
        · exact ⟨v₁, _, _, rfl, rfl, hd, hv₁, hcursors⟩

/-- Whichever pages are forgotten, a reader is given the same, and goes on in the same way. -/
theorem next_forget {r : RecordReader} (hv : v.Mirrors src chunks u) (hr : r.From src chunks v.disk)
    (keys : List PageKey) : (r.next (v.forget keys)).2 = (r.next v).2 := by
  rcases next_mirrors hv hr with ⟨v₁, answer, after, hnext, hbare, -⟩
  rcases next_mirrors (hv.forget keys) hr with ⟨v₂, answer', after', hnext', hbare', -⟩
  rw [hbare, Prod.mk.injEq] at hbare'
  rw [hnext, hnext', ← hbare'.2]

end RecordReader

/-! ### Changes of the disk -/

/-- The files of columns are on a disk, none of them is the log, and the chunks have numbers that
    were given out. -/
def Sources.Within (src : Sources) (next log : Nat) (d : Disk) : Prop :=
  ∀ chunk column number file, src chunk column = some (number, file) →
    chunk < next ∧ (number < d.nextFile ∧ number ≠ log) ∧ file < d.nextFile ∧ file ≠ log

/-- A disk after changes that do not write to the files of columns, with the files of new chunks
    perhaps. -/
structure Sources.Later (spared : Path → Prop) (made : Path → DiskNode → Prop) (next log : Nat)
    (src : Sources) (d : Disk) (src' : Sources) (d' : Disk) : Prop where
  within : src.Within next log d
  same : ∀ chunk, chunk < next → src' chunk = src chunk
  changes : Disk.Changes spared made (· = log) d d'

section

variable {spared : Path → Prop} {made : Path → DiskNode → Prop} {next log : Nat} {src' : Sources}
  {chunks' : DiskChunk → Prop}

theorem Sources.Within.later {next' log' : Nat} (h : src.Within next log d)
    (hd : Disk.Changes spared made (· = log) d d') (hnext : next ≤ next') (hlog : log' = log) :
    src.Within next' log' d' := by
  intro chunk column number file hsource
  rcases h chunk column number file hsource with ⟨hchunk, hnumber, hfile⟩
  have hle := hd.nextFile
  exact ⟨Nat.lt_of_lt_of_le hchunk hnext, ⟨Nat.lt_of_lt_of_le hnumber.1 hle, hlog ▸ hnumber.2⟩,
    Nat.lt_of_lt_of_le hfile.1 hle, hlog ▸ hfile.2⟩

theorem Sources.Later.source (hl : src.Later spared made next log d src' d') {chunk column : Nat}
    {files : Nat × Nat} (h : src chunk column = some files) : src' chunk column = some files := by
  rw [hl.same chunk (hl.within chunk column files.1 files.2 h).1, h]

theorem Sources.Later.contents (hl : src.Later spared made next log d src' d')
    {chunk column number file : Nat} (h : src chunk column = some (number, file)) :
    d'.contentsOf number = d.contentsOf number ∧ d'.contentsOf file = d.contentsOf file := by
  rcases hl.within chunk column number file h with ⟨-, hnumber, hfile⟩
  exact ⟨hl.changes.contents _ hnumber.1 hnumber.2, hl.changes.contents _ hfile.1 hfile.2⟩

theorem OpenColumn.From.later {c : OpenColumn} (h : c.From src d)
    (hl : src.Later spared made next log d src' d') : c.From src' d' := by
  rcases h with ⟨number, file, hsource, hfile, hindex⟩
  refine ⟨number, file, hl.source hsource, hfile, ?_⟩
  rw [(hl.contents hsource).1, hindex]

theorem DiskChunk.From.later {chunk : DiskChunk} (h : chunk.From src d)
    (hl : src.Later spared made next log d src' d')
    (hm : ∀ path node, chunk.directory <+: path → ¬ made path node) : chunk.From src' d' := by
  intro column hlisted
  rcases h column hlisted with ⟨number, file, hsource, hindex, hdata⟩
  have hold : ∀ name node, d'.node? (chunk.directory ++ [name]) = some node →
      d.node? (chunk.directory ++ [name]) = some node := fun name node hnode => by
    rcases hl.changes.new _ _ hnode with hold | ⟨hmade, -⟩
    · exact hold
    · exact absurd hmade (hm _ _ (List.prefix_append ..))
  exact ⟨number, file, hl.source hsource, fun node hnode => hindex node (hold _ _ hnode),
    fun node hnode => hdata node (hold _ _ hnode)⟩

theorem RecordReader.From.later {r : RecordReader} (h : r.From src chunks d)
    (hl : src.Later spared made next log d src' d')
    (hc : ∀ chunk, chunks chunk → chunks' chunk) : r.From src' chunks' d' := by
  intro c hin
  rcases h c hin with ⟨hlater, hnow⟩
  refine ⟨fun chunk hchunk => hc chunk (hlater chunk hchunk), fun reader hstate => ?_⟩
  rcases hnow reader hstate with ⟨⟨chunk, hchunk, hsame⟩, hcolumn, hpages⟩
  exact ⟨⟨chunk, hc chunk hchunk, hsame⟩, hcolumn.later hl, hpages⟩

namespace Volume

theorem Keeping.later (h : v.Keeping src) (hl : src.Later spared made next log v.disk src' v'.disk)
    (hp : v'.pages = v.pages) (hb : v'.backend = v.backend) : v'.Keeping src' := by
  intro key body hkey
  rw [hp] at hkey
  rcases h key body hkey with ⟨number, file, index, entry, hsource, hindex, hentry, hload⟩
  rcases hl.contents hsource with ⟨hnumber, hfile⟩
  refine ⟨number, file, index, entry, hl.source hsource, ?_, hentry, ?_⟩
  · rw [hnumber, hindex]
  · rw [loadPage_congr hb hfile, hload]

-- A column is opened as before if nothing was removed from its chunk.
theorem openColumn_later {chunk : DiskChunk} (h : chunk.From src v.disk)
    (hl : src.Later spared made next log v.disk src' v'.disk)
    (hs : ∀ path, chunk.directory <+: path → spared path)
    (hm : ∀ path node, chunk.directory <+: path → ¬ made path node) (column : Nat) :
    v'.openColumn chunk column = v.openColumn chunk column := by
  have hnode : ∀ name, v'.disk.node? (chunk.directory ++ [name]) =
      v.disk.node? (chunk.directory ++ [name]) := by
    intro name
    refine Option.ext fun node => ⟨fun hafter => ?_, hl.changes.kept _ _ (hs _ (List.prefix_append ..))⟩
    rcases hl.changes.new _ _ hafter with hold | ⟨hmade, -⟩
    · exact hold
    · exact absurd hmade (hm _ _ (List.prefix_append ..))
  have hindexed : v'.disk.node? (chunk.indexPath column) = v.disk.node? (chunk.indexPath column) :=
    hnode _
  have hstored : v'.disk.node? (chunk.dataPath column) = v.disk.node? (chunk.dataPath column) :=
    hnode _
  rw [openColumn, openColumn]
  by_cases hlisted : chunk.info.columns.contains column = true
  · have hread : v'.disk.read (chunk.indexPath column) = v.disk.read (chunk.indexPath column) := by
      rw [Disk.read, Disk.read, hindexed]
      rcases hfound : v.disk.node? (chunk.indexPath column) with _ | _ | found
      · rfl
      · rfl
      · rcases h column (List.contains_iff_mem.mp hlisted) with ⟨number, file, hsource, hindex, -⟩
        have hnumber := hindex _ hfound
        rw [DiskNode.file.injEq] at hnumber
        simp only [hnumber, (hl.contents hsource).1]
    rw [hread, hstored]
  · rw [Bool.not_eq_true] at hlisted
    simp only [hlisted, Bool.not_false, if_true]

theorem Mirrors.later (h : v.Mirrors src chunks u)
    (hl : src.Later spared made next log v.disk src' v'.disk) (hb : v'.backend = v.backend)
    (hk : v'.Keeping src')
    (hc : ∀ chunk, chunks chunk → chunk.info.chunk < next ∧
      ∀ path, chunk.directory <+: path → spared path ∧ ∀ node, ¬ made path node) :
    v'.Mirrors src' chunks u where
  opens := fun chunk hin column => by
    have hplace := (hc chunk hin).2
    rw [openColumn_later (h.places chunk hin) hl (fun path hp => (hplace path hp).1)
      (fun path node hp => (hplace path hp).2 node), h.opens chunk hin]
  places := fun chunk hin => (h.places chunk hin).later hl fun path node hp =>
    ((hc chunk hin).2 path hp).2 node
  loads := fun chunk hin column number file hsource entry => by
    rw [hl.same _ (hc chunk hin).1] at hsource
    rw [loadPage_congr hb (hl.contents hsource).2, h.loads chunk hin column number file hsource]
  keeping := hk
  backend := hb.trans h.backend

end Volume

end

end NestedColumns
