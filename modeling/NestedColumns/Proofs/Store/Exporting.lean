import NestedColumns.Proofs.Assembly.Printing
import NestedColumns.Proofs.Column.Elsewhere
import NestedColumns.Proofs.Disk.Aside
import NestedColumns.Proofs.Roundtrip
import NestedColumns.Proofs.Store.Reading

/-!
# Exporting a table

The records of a table are given one after another, as one text, or in a file. When the file is
made, its hidden file is written before a record is read, so the records are read from a disk that
has one file more, or one with other contents. No file of a column has the name of a hidden file,
so they are the same records; and what is written piece by piece and counted is their text and
their number.

What is assumed of the disk is that every file is at one path only, which is so whatever was
attempted on it.

## Theorems

* `Store.all_written`: The records on a disk on which a hidden file was written.
* `Store.exportFile_eq`: A file with the records is their text, written aside.
* `Store.outputs_agree`: All outputs have the same records.
-/

namespace NestedColumns

open Schema (Node)

namespace Store

variable {s : Store} {database table : String} {paths : List String} {records : List Record}
  {hidden : Path} {output : Route} {d : Disk}

theorem reader_of_records (h : (s.records database table paths).2 = .ok records) :
    ∃ r, s.reader database table paths = .ok r ∧ (r.all s.volume).2 = .ok records := by
  rw [Store.records] at h
  cases hreader : s.reader database table paths with
  | error e =>
      rw [hreader] at h
      cases h
  | ok r =>
      rw [hreader] at h
      exact ⟨r, rfl, Outcome.mapError_eq_ok.mp h⟩

-- A hidden file has another last letter.
theorem columnFile_ne_hidden (a stem : String) :
    a ++ ".col" ≠ stem ++ ".tmp" ∧ a ++ ".idx" ≠ stem ++ ".tmp" := by
  have hcol : ".col".toList.getLast? = some 'l' := by decide
  have hidx : ".idx".toList.getLast? = some 'x' := by decide
  have htmp : ".tmp".toList.getLast? = some 'p' := by decide
  constructor <;> intro h <;> have hlast := congrArg (fun s : String => s.toList.getLast?) h <;>
    simp only [String.toList_append, List.getLast?_append, hcol, hidx, htmp, Option.some_or,
      Option.some.injEq, Char.reduceEq] at hlast

/-- The records that a new reader has left are the same on a disk on which a hidden file was
    written. -/
theorem all_written {r : RecordReader} (hreader : s.reader database table paths = .ok r)
    (hhidden : s.disk.place output.hiddenSibling = .ok hidden)
    (hsame : ∀ other, other ≠ hidden → s.disk.SameAt d other) :
    r.all (s.volume.setDisk d) = Volume.onDisk d (r.all s.volume) := by
  rcases reader_eq_ok.mp hreader with ⟨t, p, -, -, rfl⟩
  rcases Disk.getLast?_hiddenSibling output with ⟨stem, hstem⟩
  rcases Disk.place_eq_ok hhidden with ⟨directory, name, hname, rfl, -⟩
  rw [hstem, Option.some.injEq] at hname
  subst hname
  refine RecordReader.all_onDisk fun c hc => ?_
  rcases List.mem_map.mp hc with ⟨column, -, rfl⟩
  refine ⟨fun chunk _ => ⟨hsame _ fun heq => ?_, hsame _ fun heq => ?_⟩,
    fun _ hstate => by cases hstate⟩
  · rw [DiskChunk.indexPath, List.append_singleton_inj] at heq
    exact (columnFile_ne_hidden _ _).2 heq.2
  · rw [DiskChunk.dataPath, List.append_singleton_inj] at heq
    exact (columnFile_ne_hidden _ _).1 heq.2

/-- A file with all records is their text, written aside, and the answer is their number. -/
theorem exportFile_eq (hd : s.disk.Numbered)
    (h : (s.records database table paths).2 = .ok records) (output : Route) :
    ((s.exportFile database table paths output).1.disk,
        (s.exportFile database table paths output).2) =
      ((s.disk.writeAside output (Utf8.encode (Record.printAll records))).1,
        ((s.disk.writeAside output (Utf8.encode (Record.printAll records))).2.map
          fun _ => records.length).mapError fun fault => .ofStore (.file fault)) := by
  rcases reader_of_records h with ⟨r, hreader, hrecords⟩
  rw [exportFile, hreader, Disk.writeAside]
  simp only
  cases hhidden : s.disk.place output.hiddenSibling with
  | error e => rfl
  | ok hidden =>
      simp only [writeRecords, Store.perform, Disk.performAll]
      rcases hfirst : s.disk.perform (.replaceFile hidden []) with ⟨d₁, e | ⟨⟩⟩
      · rfl
      · have haside := Disk.aside_of_perform hd hfirst
        have hall := all_written hreader hhidden haside.same
        rcases hdrain : r.all s.volume with ⟨v, result⟩
        rw [hdrain] at hall hrecords
        simp only at hrecords
        subst hrecords
        have hdrained : (s.setDisk d₁).drain r =
            ((s.setDisk d₁).setVolume (v.setDisk d₁), .ok records) := by
          rw [drain, show (s.setDisk d₁).volume = s.volume.setDisk d₁ from rfl, hall]
          rfl
        have hdisk : ((s.setDisk d₁).setVolume (v.setDisk d₁)).disk = d₁ := rfl
        simp only [Except.mapError, hdrained, Record.writeEach_eq, hdisk]
        rw [Record.printAll]
        rcases hsecond : d₁.perform (.replaceFile hidden (Utf8.encode
          ('[' :: (Json.commaSeparated (records.map Record.print) ++ [']'])))) with ⟨d₂, e | ⟨⟩⟩
        · rfl
        · have hdisk₂ : (((s.setDisk d₁).setVolume (v.setDisk d₁)).setDisk d₂).disk = d₂ := rfl
          simp only [reveal, Store.perform, hdisk₂]
          cases d₂.place output with
          | error e => rfl
          | ok path =>
              rcases hrenamed : d₂.perform (.rename hidden path) with ⟨d₃, e | ⟨⟩⟩
              · simp only [hrenamed]
                rfl
              · simp only [hrenamed]
                rfl

/-- All outputs have the same records. Printing a record as it is walked is printing its JSON value;
    and the text with all records, and the bytes of a file that was made with them, are their texts
    with commas between them, in brackets. The file is made unless the disk does not take it. -/
theorem outputs_agree :
    (∀ r : Record, (Node.object r.fields).NamesUnique → r.print = r.toJson.print) ∧
    ∀ (s : Store) (database table : String) (paths : List String) (records : List Record),
      s.disk.Numbered → (s.records database table paths).2 = .ok records →
        (s.exportText database table paths).2 = .ok (Record.joined records) ∧
        ∀ output : Route,
          (match s.exportFile database table paths output with
            | (s', .ok count) => count = records.length ∧ ∃ path, s.disk.place output = .ok path ∧
                s'.disk.read path = .ok (Utf8.encode (Record.joined records))
            | (_, .error halt) => ∃ fault, halt = .failed (.store (.file fault))) ∧
          (s.disk.Reliable → s.disk.Admits output.hiddenSibling → s.disk.Admits output →
            (s.exportFile database table paths output).2 = .ok records.length) := by
  refine ⟨Record.print_eq, fun s database table paths records hd h => ?_⟩
  rw [← Record.printAll_eq]
  refine ⟨?_, fun output => ?_⟩
  · rw [exportText]
    simp only [h, Except.map]
  have hexport := exportFile_eq hd h output
  rcases hanswer : s.exportFile database table paths output with ⟨s', result⟩
  rcases haside : s.disk.writeAside output (Utf8.encode (Record.printAll records)) with
    ⟨d', written⟩
  rw [hanswer, haside, Prod.mk.injEq] at hexport
  rcases hexport with ⟨hdisk, rfl⟩
  constructor
  · cases written with
    | error fault => exact ⟨fault, rfl⟩
    | ok done =>
        rcases Disk.writeAside_read hd haside with ⟨path, hplace, hread⟩
        exact ⟨rfl, path, hplace, hdisk ▸ hread⟩
  · intro hreliable hhidden houtput
    rcases Disk.exists_writeAside hd hreliable hhidden houtput
      (Utf8.encode (Record.printAll records)) with ⟨after, hok⟩
    rw [haside, Prod.mk.injEq] at hok
    rw [hok.2]
    rfl

/-- A record with a float that has no text, a slot that does not fit, and an absent one. -/
def degenerateRecord : Record :=
  ⟨[("a", .array (.leaf 0 .float)), ("b", .leaf 1 .string), ("c", .leaf 2 .integer)],
    .object [.array [.value (.float (.infinity true)), .absent], .object [], .absent]⟩

open Usage (ofStore sampleCalls sampleTable) in
-- Two documents are exported beside the directory of the store.
theorem outputs_agree_sample :
    degenerateRecord.toJson.print = "\x7b\"a\":[null,null],\"b\":null\x7d".toList ∧
      degenerateRecord.print = degenerateRecord.toJson.print ∧
    ∃ records, records.length = 2 ∧
      (((ofStore .sample).run sampleCalls).store.records "d" "t" []).2 = .ok records ∧
      (((ofStore .sample).run sampleCalls).store.exportText "d" "t" []).2 =
        .ok (Record.joined records) ∧
      ∃ after, ((ofStore .sample).run sampleCalls).store.exportFile "d" "t" []
          (.ofString "out.json") = (after, .ok 2) ∧
        after.disk.read ["out.json"] = .ok (Utf8.encode (Record.joined records)) := by
  have hunique : (Node.object degenerateRecord.fields).NamesUnique :=
    ⟨by decide, trivial, trivial, trivial, trivial⟩
  refine ⟨by decide +kernel, outputs_agree.1 degenerateRecord hunique, ?_⟩
  have ht : ((ofStore .sample).run sampleCalls).store.tableNamed "d" "t" = .ok sampleTable := rfl
  have hall : Projection.resolve sampleTable.schema [] = .ok _ :=
    Projection.resolve_nil sampleTable.schema
  rcases (Usage.sound_ofStore made_sample).run Usage.small_sample with ⟨bodies, hsound⟩
  rcases hsound.records_shown (Usage.small_sample _ (List.prefix_refl _)) ht hall with
    ⟨v, records, hrecords, hjson⟩
  have hlength : records.length = 2 := by
    rw [← List.length_map Record.toJson, hjson]
    rfl
  have hread : (((ofStore .sample).run sampleCalls).store.records "d" "t" []).2 = .ok records := by
    rw [hrecords]
  have hnumbered : ((ofStore .sample).run sampleCalls).store.disk.Numbered :=
    .of_entries (by decide +kernel)
  have hreliable : ((ofStore .sample).run sampleCalls).store.disk.Reliable := rfl
  have hhidden : ((ofStore .sample).run sampleCalls).store.disk.Admits
      (Route.ofString "out.json").hiddenSibling := ⟨[".out.json.tmp"], rfl, by decide +kernel⟩
  have hplace : ((ofStore .sample).run sampleCalls).store.disk.place (.ofString "out.json") =
      .ok ["out.json"] := rfl
  have houtput : ((ofStore .sample).run sampleCalls).store.disk.Admits (.ofString "out.json") :=
    ⟨["out.json"], hplace, by decide +kernel⟩
  generalize ((ofStore .sample).run sampleCalls).store = s at *
  rcases outputs_agree.2 s "d" "t" [] records hnumbered hread with ⟨htext, hfile⟩
  rcases hfile (.ofString "out.json") with ⟨hwritten, hmade⟩
  have hcount := hmade hreliable hhidden houtput
  refine ⟨records, hlength, hread, htext, ?_⟩
  rcases hexport : s.exportFile "d" "t" [] (.ofString "out.json") with ⟨after, result⟩
  rw [hexport] at hcount hwritten
  simp only at hcount
  subst hcount
  rcases hwritten with ⟨-, path, hpath, hbytes⟩
  have hsame := hplace.symm.trans hpath
  rw [Except.ok.injEq] at hsame
  rw [hlength]
  exact ⟨after, rfl, hsame ▸ hbytes⟩

end Store

end NestedColumns
