import NestedColumns.Proofs.Store.Opening
import NestedColumns.Proofs.Store.Runs
import Mathlib.Data.List.Infix

/-!
# What is read is what was written

An engine was used in any way, on a disk that did not fail. A table then gives a record for
every document of the sessions on it that were closed, in order, however documents, chunks
and pages were cut and whatever was made, dropped and read in between. The record is the
normal form of the document, and the record at some paths is the part of it that belongs
to them.

## Theorems

* `Usage.Sound.records_shown`: The records at any paths.
* `Usage.records_normalForm`: The records without paths are normal forms.
* `Usage.records_restrict`: The records at paths are parts of them.
-/

namespace NestedColumns

open Schema (Node)
open Json (normalForm restrict shown)

namespace Usage

theorem Sound.records_shown {u : Usage} {bodies : PageKey → Option (List UInt8)}
    (h : u.Sound bodies) (hsmall : u.Small) {database name : String} {t : Table}
    (ht : u.store.tableNamed database name = .ok t) {paths : List String} {p : Projection}
    (hp : Projection.resolve t.schema paths = .ok p) :
    ∃ after records, u.store.records database name paths = (after, .ok records) ∧
      records.map Record.toJson =
        (u.kept t.ref).map fun x => shown p.schema.root (Json.kept x.schema.root x.document) := by
  have hin := Store.table?_of_tableNamed h.store.catalog ht
  rcases Store.records_spec h.store.maxLevel_lt h.store.right (h.tables t.ref t hin)
    (hsmall t.ref t hin) ht hp with ⟨v, records, hrecords, -, -, hjson⟩
  exact ⟨_, records, hrecords, hjson⟩

/-- A session on a new table. -/
def sampleCalls : List Call :=
  [.createDatabase "d", .createTable "d" "t", .openSession "d" "t",
    .insert ⟨0, 0⟩ (.object [("a", .array [.number (.whole 1), .null])]),
    .insert ⟨0, 0⟩ (.object [("b", .object [("c", .bool true)]), ("a", .array [])]),
    .close ⟨0, 0⟩]

/-- The table after that. -/
def sampleTable : Table :=
  ⟨⟨0, 0⟩, "t", ⟨[("a", .array (.leaf 0 .integer)), ("b", .object [("c", .leaf 1 .boolean)])], 2⟩,
    [⟨0, 1, [0]⟩, ⟨1, 1, [0, 1]⟩]⟩

theorem small_sample :
    ∀ before, before <+: sampleCalls → ((ofStore .sample).run before).Small := by
  have hall : ∀ before ∈ sampleCalls.inits, ((ofStore .sample).run before).Small := by
    decide +kernel
  exact fun before hbefore => hall before ((List.mem_inits _ _).mpr hbefore)

section

variable {options : StoreOptions} {d : Disk} {s : Store} {calls : List Call}
  {database name : String} {t : Table}

-- All fields are shown, and what is shown of what was kept is the normal form.
theorem records_normalForm (hmade : Store.Made options d s)
    (hsmall : ∀ before, before <+: calls → ((ofStore s).run before).Small)
    (ht : ((ofStore s).run calls).store.tableNamed database name = .ok t) :
    ∃ after records,
      ((ofStore s).run calls).store.records database name [] = (after, .ok records) ∧
        records.map Record.toJson = (((ofStore s).run calls).kept t.ref).map fun x =>
          normalForm t.schema.root x.schema.root x.document := by
  rcases (sound_ofStore hmade).run hsmall with ⟨bodies, hsound⟩
  have hnow := hsmall calls (List.prefix_refl _)
  generalize (ofStore s).run calls = u at ht hsound hnow ⊢
  have hall : Projection.resolve t.schema [] =
      .ok ((Projection.ofSchema (Schema.ofFields t.schema.fields)).withShapeSources t.schema) :=
    Projection.resolve_nil t.schema
  rcases hsound.records_shown hnow ht hall with ⟨after, records, hrecords, hjson⟩
  have hholds := hsound.tables t.ref t (Store.table?_of_tableNamed hsound.store.catalog ht)
  refine ⟨after, records, hrecords, ?_⟩
  rw [hjson]
  refine List.map_congr_left fun x hx => ?_
  have hunder := hholds.under x hx
  exact Json.shown_kept hunder.grown.grows hunder.sound.names hholds.schema.names x.document

-- One document has an item that is `null` and misses a member, the other has an empty array.
theorem records_normalForm_sample : ∃ after records,
    ((ofStore .sample).run sampleCalls).store.records "d" "t" [] = (after, .ok records) ∧
      records.map Record.toJson =
        [.object [("a", .array [.number (.whole 1)])],
          .object [("a", .array []), ("b", .object [("c", .bool true)])]] := by
  have ht : ((ofStore .sample).run sampleCalls).store.tableNamed "d" "t" = .ok sampleTable := rfl
  rcases records_normalForm Store.made_sample small_sample ht with
    ⟨after, records, hrecords, hjson⟩
  exact ⟨after, records, hrecords, hjson.trans rfl⟩

/-! ### Parts of records -/

-- Both records show what was kept of a document, one of them all of it.
theorem records_restrict (hmade : Store.Made options d s)
    (hsmall : ∀ before, before <+: calls → ((ofStore s).run before).Small)
    (ht : ((ofStore s).run calls).store.tableNamed database name = .ok t) {paths : List String}
    {p : Projection} (hp : Projection.resolve t.schema paths = .ok p)
    (hleafy : p.schema.root.Leafy) :
    ∃ after after' whole parts,
      ((ofStore s).run calls).store.records database name [] = (after, .ok whole) ∧
      ((ofStore s).run calls).store.records database name paths = (after', .ok parts) ∧
        parts.map Record.toJson = whole.map fun record =>
          restrict p.schema.root record.toJson := by
  rcases (sound_ofStore hmade).run hsmall with ⟨bodies, hsound⟩
  have hnow := hsmall calls (List.prefix_refl _)
  generalize (ofStore s).run calls = u at ht hsound hnow ⊢
  have hall : Projection.resolve t.schema [] =
      .ok ((Projection.ofSchema (Schema.ofFields t.schema.fields)).withShapeSources t.schema) :=
    Projection.resolve_nil t.schema
  have hholds := hsound.tables t.ref t (Store.table?_of_tableNamed hsound.store.catalog ht)
  rcases hsound.records_shown hnow ht hall with ⟨after, whole, hwhole, hjson⟩
  rcases hsound.records_shown hnow ht hp with ⟨after', parts, hparts, hjson'⟩
  rcases Projection.resolve_eq_ok hholds.schema.names hp with ⟨fields, heq, hpart, -, -⟩
  have hroot : p.schema.root = .object fields := by
    rw [heq]
    rfl
  refine ⟨after, after', whole, parts, hwhole, hparts, ?_⟩
  have hmap : whole.map (fun record => restrict p.schema.root record.toJson) =
      (whole.map Record.toJson).map (restrict p.schema.root) := by
    rw [List.map_map]
    rfl
  rw [hmap, hjson, hjson', List.map_map]
  refine List.map_congr_left fun x _ => ?_
  rw [hroot] at hleafy ⊢
  exact (Json.restrict_shown hpart hleafy hholds.schema.names _).symm

-- The first document is older than the column of the path.
theorem records_restrict_sample : ∃ after after' whole parts,
    ((ofStore .sample).run sampleCalls).store.records "d" "t" [] = (after, .ok whole) ∧
    ((ofStore .sample).run sampleCalls).store.records "d" "t" ["b.c"] = (after', .ok parts) ∧
      parts.map Record.toJson = whole.map fun record =>
        restrict (.object [("b", .object [("c", .leaf 1 .boolean)])]) record.toJson := by
  have ht : ((ofStore .sample).run sampleCalls).store.tableNamed "d" "t" = .ok sampleTable := rfl
  have hp : Projection.resolve sampleTable.schema ["b.c"] = .ok _ := rfl
  have hleafy : (Node.object [("b", .object [("c", .leaf 1 .boolean)])]).Leafy :=
    ⟨rfl, ⟨rfl, trivial, trivial⟩, trivial⟩
  exact records_restrict Store.made_sample small_sample ht hp hleafy

end

end Usage

end NestedColumns
