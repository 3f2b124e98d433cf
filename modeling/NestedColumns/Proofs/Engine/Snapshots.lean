import NestedColumns.Proofs.Engine.Pages

/-!
# What a reader sees

A reader has the chunks that its table had when it was made, and opens their files one after another
while others go on. None of these files is removed as long as the table is not dropped, and none is
written to, so whatever happens between two of its steps, the next is what it would be on the disk of
that time. There the files hold the documents that were committed by then.

## Main definitions

* `Engine.answers`: The answers of a reader.
* `Engine.Sees`: A reader sees a table as it was at some time.

## Theorems

* `Engine.Sees.step`: It does so on, whatever is done.
* `Engine.Sees.next`: Its next record is what it would have been at that time.
* `Engine.snapshot_isolation`: A reader gives the records of the documents that were committed.
-/

namespace NestedColumns

open Disk (Whole)
open Json (shown)

/-- An action asks the reader of a handle for its next record. -/
def Action.asks (handle : Nat) : Action → Bool
  | .next other => other == handle
  | _ => false

/-- An action gives a handle to a new reader. -/
def Action.reopens (handle : Nat) : Action → Bool
  | .openReader other _ _ _ => other == handle
  | _ => false

namespace RecordReader

variable {α : Type} {d : Disk} {bodies : PageKey → Option (List UInt8)}
  {stored : α → Nat → List Triple} {P : α → Record → Prop} {r : RecordReader}

-- After the last document nothing is read.
theorem Ready.end_of_nil (h : Ready d bodies stored P [] r) (v : Volume) :
    r.next v = (v, .ok none, r) := by
  have htotal := h.total
  rw [List.length_nil, Nat.add_zero] at htotal
  rw [RecordReader.next, if_pos (Nat.le_of_eq htotal)]

end RecordReader

namespace Engine

variable {e e' : Engine} {u : Volume} {t : Table} {r : RecordReader} {handle : Nat}
  {bodies : PageKey → Option (List UInt8)} {src : Sources}

/-- The answers that the reader of a handle gives to actions. -/
def answers (handle : Nat) :
    Engine → List Action → List (Except (Halt EngineError) (Option Record))
  | _, [] => []
  | e, a :: rest =>
    if a.asks handle then (e.step a).2 :: answers handle (e.step a).1 rest
    else answers handle (e.step a).1 rest

/-- A reader of a table sees it as it was on a volume: it has the files of that time, which are still
    there. -/
structure Sees (e : Engine) (u : Volume) (t : Table) (r : RecordReader) : Prop where
  table : ∃ t', e.store.catalog.table? t.ref = some t' ∧ ∀ c ∈ t.chunks, c ∈ t'.chunks
  files : ∃ src, e.Traced src ∧ e.store.volume.Mirrors src (· ∈ e.store.diskChunks t) u ∧
    r.From src (· ∈ e.store.diskChunks t) e.store.disk

-- Of the chunks of a table that stays nothing is removed, and nothing is made in them.
theorem Sees.turn (h : e.Sees u t r) (hl : Leads e e')
    (htraced : ∀ src, e.Traced src → ∃ src', (∀ id, id < e.store.registry.nextChunk →
      src' id = src id) ∧ e'.Traced src')
    (hthere : (e'.store.catalog.table? t.ref).isSome = true) : e'.Sees u t r := by
  rcases h.table with ⟨t₁, ht₁, hsub⟩
  rcases Option.isSome_iff_exists.mp hthere with ⟨t₂, ht₂⟩
  rcases h.files with ⟨src, ht, hmirrors, hfrom⟩
  rcases htraced src ht with ⟨src', hsame, ht'⟩
  rcases hl.disk with ⟨spared, hdisk, hspares⟩
  have hlater : src.Later spared
      (fun path _ => Store.Unbegun e.store.options e.store.registry.nextChunk path)
        e.store.registry.nextChunk e.store.log.file e.store.disk src' e'.store.disk :=
    ⟨ht.within, hsame, hdisk⟩
  have hchunks : e'.store.diskChunks t = e.store.diskChunks t := by
    rw [Store.diskChunks, Store.diskChunks, hl.options]
  have hplace : ∀ chunk ∈ e.store.diskChunks t, chunk.info.chunk < e.store.registry.nextChunk ∧
      ∀ path, chunk.directory <+: path → spared path ∧
        ¬ Store.Unbegun e.store.options e.store.registry.nextChunk path := by
    intro chunk hchunk
    rcases List.mem_map.mp hchunk with ⟨info, hinfo, rfl⟩
    have hbegun : info.chunk < e.store.registry.nextChunk := by
      refine (ht.chunks (.table t.ref) ⟨e.store.options.chunkPath t₁.ref info.chunk, info⟩ ?_).begun
      simp only [chunksOf, ht₁]
      exact List.mem_map_of_mem (hsub info hinfo)
    exact ⟨hbegun, fun path hp => ⟨hspares t.ref t₁ ht₁ hthere info (hsub info hinfo) path hp,
      fun hunbegun => hunbegun t.ref info.chunk hbegun hp⟩⟩
  refine ⟨⟨t₂, ht₂, fun c hc => hl.tables t.ref t₁ t₂ ht₁ ht₂ c (hsub c hc)⟩, src', ht', ?_, ?_⟩
  · rw [hchunks]
    exact hmirrors.later hlater hl.backend ht'.keeping fun chunk hchunk =>
      ⟨(hplace chunk hchunk).1, fun path hp =>
        ⟨((hplace chunk hchunk).2 path hp).1, fun _ => ((hplace chunk hchunk).2 path hp).2⟩⟩
  · rw [hchunks]
    exact hfrom.later hlater fun _ hchunk => hchunk

theorem calm_catalog (h : Calm e e') : e'.store.catalog = e.store.catalog := by
  cases h with
  | failed fits hcommit => exact commit_failed_catalog fits hcommit
  | opened | added | asked | given | forgotten => rfl
  | @flushed handle live session more found htakes => exact (session.flush_moves e.store).1.catalog
  | @ended handle live s found hends =>
      rcases hends with rfl | rfl
      · exact (live.session.discard_moves e.store).catalog
      · exact (live.session.abort_moves e.store).catalog

/-- Whatever is done, a reader sees its table as before, if that is still there. -/
theorem Sees.step (hg : e.Guarded) (hs : e.Steady bodies) (h : e.Sees u t r) (a : Action)
    (hthere : ((e.step a).1.store.catalog.table? t.ref).isSome = true) :
    (e.step a).1.Sees u t r := by
  rcases step_turns hg hs a with ⟨e₁, hcalm, hend⟩
  have hmiddle : e₁.Guarded ∧ (∃ bodies', e₁.Steady bodies') ∧ e₁.Sees u t r := by
    clear hend hthere
    induction hcalm with
    | refl => exact ⟨hg, ⟨bodies, hs⟩, h⟩
    | @tail e₂ e₃ _ hturn ih =>
        rcases ih with ⟨hg₂, ⟨bodies₂, hs₂⟩, h₂⟩
        rcases hs₂.calm hg₂ hturn with ⟨bodies₃, -, hs₃⟩
        rcases h₂.table with ⟨t', ht', -⟩
        rcases h₂.files with ⟨src, htraced, -⟩
        refine ⟨hg₂.calm hturn, ⟨bodies₃, hs₃⟩, h₂.turn (calm_leads hg₂ hs₂ htraced hturn)
          (fun _ ht => ht.calm hg₂ hs₂ hturn) ?_⟩
        rw [calm_catalog hturn, ht']
        rfl
  rcases hmiddle with ⟨hg₁, -, h₁⟩
  rcases hend with hsame | hchange
  · rw [hsame]
    exact h₁
  · exact h₁.turn (change_leads hg₁ hchange) (fun _ ht => ht.change hg₁ hchange) hthere

/-- The next record of a reader is what it would have been when the volume was as the reader sees
    it. -/
theorem Sees.next (hg : e.Guarded) (hs : e.Steady bodies) (h : e.Sees u t r)
    (found : e.readers.find? handle = some r) :
    (e.step (.next handle)).2 = (r.next u.bare).2.1.mapError (.map .store) ∧
      (e.step (.next handle)).1.readers.find? handle = some (r.next u.bare).2.2 ∧
      (e.step (.next handle)).1.Sees u t (r.next u.bare).2.2 := by
  rcases h.files with ⟨src, htraced, hmirrors, hfrom⟩
  have hafter := htraced.given hg hs found
  rcases RecordReader.next_mirrors hmirrors hfrom with
    ⟨v, answer, after, hnext, hbare, hdisk, hmirrors', hfrom'⟩
  rw [hnext] at hafter
  have hstep : e.step (.next handle) = e.onNext handle (v, answer, after) := by
    rw [Engine.step, found, ← hnext]
  rw [hstep, hbare]
  have hinsert := IdMap.find?_insert e.readers handle after handle
  rw [if_pos rfl] at hinsert
  exact ⟨rfl, hinsert, h.table, src, hafter, hmirrors', hfrom'⟩

-- Only who asks a reader moves it on.
theorem readers_step {a : Action} (hasks : a.asks handle = false)
    (hreopens : a.reopens handle = false) :
    (e.step a).1.readers.find? handle = e.readers.find? handle := by
  cases a with
  | createDatabase name | dropDatabase name | createTable database table | dropTable database table =>
      rw [step, onChange.eq_def]
      split <;> rfl
  | openSession other database table =>
      rw [step]
      split
      · rfl
      · rw [onOpen.eq_def]
        split <;> rfl
  | insert other document | insertText other bytes | close other | abort other | discard other =>
      rw [step]
      split <;> rfl
  | openReader other database table paths =>
      have hne : ¬ other = handle := beq_eq_false_iff_ne.mp hreopens
      rw [step]
      split
      · rfl
      · next reader _ =>
        have hinsert := IdMap.find?_insert e.readers other reader handle
        rwa [if_neg hne] at hinsert
  | next other =>
      have hne : ¬ other = handle := beq_eq_false_iff_ne.mp hasks
      rw [step]
      split
      · rfl
      · next reader _ =>
        have hinsert := IdMap.find?_insert e.readers other (reader.next e.store.volume).2.2 handle
        rwa [if_neg hne] at hinsert
  | forget keys => rfl

/-- Whatever is done between the steps of a reader, its answers are the records of the documents that
    it had left, and nothing after them. -/
theorem Sees.answers {P : Taken → Record → Prop} {documents : List Taken} (hg : e.Guarded)
    (hs : e.Steady bodies) (h : e.Sees u t r) (found : e.readers.find? handle = some r)
    {bodies' : PageKey → Option (List UInt8)}
    (hready : RecordReader.Ready u.disk bodies' Taken.entries P documents r) {after : List Action}
    (hown : ∀ a ∈ after, a.reopens handle = false)
    (hthere : ∀ n, ((e.run (after.take n)).store.catalog.table? t.ref).isSome = true) :
    ∃ records, List.Forall₂ P documents records ∧
      ∀ (i : Nat) answer, (Engine.answers handle e after)[i]? = some answer →
        answer = .ok records[i]? := by
  have hright : u.bare.Right bodies' := fun key body hkey => by
    have hnone : (∅ : Std.HashMap PageKey (List UInt8))[key]? = some body := hkey
    rw [Std.HashMap.getElem?_empty] at hnone
    cases hnone
  -- The induction is on the actions, of which some take a document from those that are left.
  induction after generalizing e bodies r documents with
  | nil =>
      rcases hready.take (v := u.bare) rfl hright with ⟨v, records, -, -, -, hrecords⟩
      exact ⟨records, hrecords, fun i answer hanswer => by cases hanswer⟩
  | cons a rest ih =>
      rcases hs.step hg a with ⟨bodies₁, -, hs₁⟩
      have hfirst : ((e.step a).1.store.catalog.table? t.ref).isSome = true := hthere 1
      have hrest : ∀ a ∈ rest, a.reopens handle = false := fun b hb =>
        hown b (List.mem_cons_of_mem _ hb)
      have hlater : ∀ n, (((e.step a).1.run (rest.take n)).store.catalog.table? t.ref).isSome = true :=
        fun n => hthere (n + 1)
      rw [Engine.answers]
      by_cases hasks : a.asks handle = true
      · have ha : a = .next handle := by
          cases a with
          | next other => rw [beq_iff_eq.mp hasks]
          | _ => cases hasks
        subst ha
        rcases h.next hg hs found with ⟨hanswer, hfound, hsees⟩
        rw [if_pos hasks, hanswer]
        cases documents with
        | nil =>
            rw [hready.end_of_nil] at hfound hsees ⊢
            rcases ih (hg.step _) hs₁ hsees hfound hready hrest hlater with
              ⟨records, hrecords, hanswers⟩
            cases hrecords
            refine ⟨[], .nil, fun i answer hi => ?_⟩
            cases i with
            | zero => exact (Option.some.inj hi).symm
            | succ i => exact hanswers i answer hi
        | cons x documents =>
            rcases hready.next (v := u.bare) rfl hright with ⟨v, record, r₁, hnext, -, -, hx, hready₁⟩
            rw [hnext] at hfound hsees ⊢
            rcases ih (hg.step _) hs₁ hsees hfound hready₁ hrest hlater with
              ⟨records, hrecords, hanswers⟩
            refine ⟨record :: records, .cons hx hrecords, fun i answer hi => ?_⟩
            cases i with
            | zero => exact (Option.some.inj hi).symm
            | succ i => exact hanswers i answer hi
      · rw [Bool.not_eq_true] at hasks
        rw [if_neg (Bool.not_eq_true _ ▸ hasks)]
        have hfound := (readers_step hasks (hown a List.mem_cons_self)).trans found
        exact ih (hg.step a) hs₁ (h.step hg hs a hfirst) hfound hready hrest hlater

-- A reader that was just made sees its table as it is.
theorem sees_asked (hg : e.Guarded) (h : e.Traced src) {database table : String}
    {paths : List String} (ht : e.store.tableNamed database table = .ok t)
    (hreader : e.store.reader database table paths = .ok r) :
    (⟨e.store, e.sessions, e.readers.insert handle r, e.kept⟩ : Engine).Sees e.store.volume t r := by
  have hin := Store.table?_of_tableNamed hg.catalog ht
  have hknown : ∀ chunk ∈ e.store.diskChunks t, e.Known src chunk := fun chunk hchunk => by
    refine h.chunks (.table t.ref) chunk ?_
    simp only [chunksOf, hin]
    exact hchunk
  have hmirrors := h.mirrors
  exact ⟨⟨t, hin, fun _ hc => hc⟩, src, h.asked hg handle hreader,
    ⟨fun chunk hc => hmirrors.opens chunk (hknown chunk hc),
      fun chunk hc => hmirrors.places chunk (hknown chunk hc),
      fun chunk hc => hmirrors.loads chunk (hknown chunk hc), h.keeping, rfl⟩,
    from_reader hreader ht (fun _ hc => hc) _⟩

/-- A reader of a table gives the records of the documents that were committed when it was made, in
    order and under the schema of that time, and nothing after them. It does not matter what is done
    between its steps, by other readers, by sessions on this table and on others, and by whoever
    makes and drops others, nor which pages are forgotten, as long as the table is not dropped and
    its handle is given to nobody else. -/
theorem snapshot_isolation {o : StoreOptions} {c : Catalog} {kept : TableRef → List Taken}
    {d d' : Disk} {s : Store} {faults : Nat → Option Nat} (h : Course o Whole c kept d)
    (opened : Store.openWith o (d.setFaults faults) = (d', .ok s)) (before after : List Action)
    (handle : Nat) (database table : String) (paths : List String) {p : Projection}
    (ht : ((resume s kept).run before).store.tableNamed database table = .ok t)
    (hp : Projection.resolve t.schema paths = .ok p)
    (hsmall : t.Small o (((resume s kept).run before).kept t.ref))
    (hown : ∀ a ∈ after, a.reopens handle = false)
    (hthere : ∀ n, (((resume s kept).run (before ++ .openReader handle database table paths ::
      after.take n)).store.catalog.table? t.ref).isSome = true) :
    (((resume s kept).run before).step (.openReader handle database table paths)).2 = .ok none ∧
      ∃ records : List Record, records.map Record.toJson =
          (((resume s kept).run before).kept t.ref).map
            (fun x => shown p.schema.root (Json.kept x.schema.root x.document)) ∧
        ∀ (i : Nat) answer, (answers handle ((resume s kept).run
          (before ++ [.openReader handle database table paths])) after)[i]? = some answer →
            answer = .ok records[i]? := by
  have hongoing := h.ongoing opened before
  have hopened := h.ongoing opened (before ++ [.openReader handle database table paths])
  rw [run_concat] at hopened ⊢
  have hlater : ∀ n, ((((((resume s kept).run before).step
      (.openReader handle database table paths)).1.run (after.take n)).store.catalog.table?
        t.ref).isSome = true) := fun n => by
    have hsome := hthere n
    rw [run_append] at hsome
    exact hsome
  generalize (resume s kept).run before = e at *
  rcases hongoing.steady with ⟨bodies, hs⟩
  rcases hongoing.traced with ⟨src, htraced⟩
  have hg := hongoing.guarded
  have hin := Store.table?_of_tableNamed hg.catalog ht
  rw [← hongoing.options] at hsmall
  rcases Store.reader_spec (Store.maxLevel_lt hs.settled.options) (hs.settled.tables t.ref t hin)
    hsmall ht hp with ⟨r, hreader, hready⟩
  have hstep : e.step (.openReader handle database table paths) =
      (⟨e.store, e.sessions, e.readers.insert handle r, e.kept⟩, .ok none) := by
    rw [step, hreader]
  rw [hstep] at hopened hlater ⊢
  rcases hopened.steady with ⟨bodies₁, hs₁⟩
  have hfound := IdMap.find?_insert e.readers handle r handle
  rw [if_pos rfl] at hfound
  rcases (sees_asked hg htraced ht hreader).answers hopened.guarded hs₁ hfound hready hown hlater with
    ⟨records, hrecords, hanswers⟩
  exact ⟨rfl, records, Store.map_toJson_of_shows hrecords, hanswers⟩

/-- A document in a new table. -/
def sampleCommitted : List Action :=
  sampleBefore.take 5

/-- A reader is asked after a second document was committed. -/
def sampleReads : List Action :=
  [.openSession 1 "d" "t", sampleInsert, .close 1, .next 7, .next 7]

-- The reader gives the first document, and then nothing.
theorem snapshot_isolation_sample : ∃ records : List Record,
    records.map Record.toJson = [.object [("a", .number (.whole 1))]] ∧
      answers 7 ((resume .sample fun _ => []).run
        (sampleCommitted ++ [.openReader 7 "d" "t" []])) sampleReads =
          [.ok records[0]?, .ok none] := by
  have hwhole : Whole fun _ => none := fun _ _ hfault => by cases hfault
  have hcourse : Course Store.sampleOptions Whole .empty (fun _ => []) .empty :=
    .blank Disk.tree_empty Store.made_sample.unlogged
  have ht : ((resume .sample fun _ => []).run sampleCommitted).store.tableNamed "d" "t" =
      .ok sampleTable := rfl
  have hp : Projection.resolve sampleTable.schema [] = .ok _ := rfl
  have hfirst : ∀ n < 6, (((resume .sample fun _ => []).run (sampleCommitted ++
      .openReader 7 "d" "t" [] :: sampleReads.take n)).store.catalog.table?
        sampleTable.ref).isSome = true := by decide +kernel
  have hthere : ∀ n, (((resume .sample fun _ => []).run (sampleCommitted ++
      .openReader 7 "d" "t" [] :: sampleReads.take n)).store.catalog.table?
        sampleTable.ref).isSome = true := fun n => by
    have hsome := hfirst (min n 5) (by omega)
    have htake : sampleReads.take (min n 5) = sampleReads.take n := List.take_eq_take_iff.mpr (by
      have hlength : sampleReads.length = 5 := rfl
      omega)
    rwa [htake] at hsome
  rcases snapshot_isolation hcourse Store.made_sample.opened sampleCommitted sampleReads 7 "d" "t" []
    ht hp (by decide +kernel) (by decide +kernel) hthere with ⟨-, records, hjson, hanswers⟩
  refine ⟨records, hjson.trans rfl, ?_⟩
  have hone : records.length = 1 := by
    rw [← List.length_map Record.toJson, hjson]
    rfl
  have htwo : ∃ first second, answers 7 ((resume .sample fun _ => []).run
      (sampleCommitted ++ [.openReader 7 "d" "t" []])) sampleReads = [first, second] := ⟨_, _, rfl⟩
  rcases htwo with ⟨first, second, hboth⟩
  rw [hboth] at hanswers ⊢
  rw [hanswers 0 first rfl, hanswers 1 second rfl, List.getElem?_eq_none (Nat.le_of_eq hone)]

end Engine

end NestedColumns
