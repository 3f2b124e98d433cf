import NestedColumns.Log.Operation
import NestedColumns.Proofs.Json.Readers
import NestedColumns.Proofs.Schema.Merging
import NestedColumns.Proofs.Schema.Ways

/-!
# Log entries that are read back

An entry of the log is written without looking at how deep it nests. It is read back if it
opens no more brackets at once than a text may, and if its numbers fit. The entry that nests
deepest is the one with the schema of a table: every object of the schema takes three
brackets and every array one.

## Main definitions

* `Operation.Bounded`: The numbers of an operation fit.
* `Operation.Readable`: An operation that is read back from its entry.

## Theorems

* `Schema.Node.reads`: A shape is read back.
* `LogEntry.reads_operation`: An operation is read back.
-/

namespace NestedColumns

open Json (Reader)

theorem idBound_le : idBound ≤ 2 ^ 64 := by decide

/-- The numbers of a table fit. -/
def TableRef.Bounded (r : TableRef) : Prop :=
  r.database < idBound ∧ r.table < idBound

/-- The numbers of a chunk fit. -/
def ChunkInfo.Bounded (c : ChunkInfo) : Prop :=
  c.chunk < idBound ∧ c.recordCount < idBound ∧ ∀ column ∈ c.columns, column < idBound

/-- The numbers of a schema fit. -/
def Schema.Bounded (schema : Schema) : Prop :=
  (∀ column ∈ schema.root.columns, column < idBound) ∧ schema.nextColumn < idBound

/-- The numbers of an operation fit. -/
def Operation.Bounded : Operation → Prop
  | .createDatabase id _ => id < idBound
  | .dropDatabase id => id < idBound
  | .createTable ref _ => ref.Bounded
  | .dropTable ref => ref.Bounded
  | .updateSchema ref schema => ref.Bounded ∧ schema.Bounded
  | .addChunk ref chunk => ref.Bounded ∧ chunk.Bounded

/-- An operation that is read back from its entry: it opens no more brackets at once than a
    text may, and its numbers fit. -/
def Operation.Readable (op : Operation) : Prop :=
  op.toJson.nesting ≤ Json.maxNesting ∧ op.Bounded

instance (r : TableRef) : Decidable r.Bounded :=
  inferInstanceAs (Decidable (_ ∧ _))

instance (c : ChunkInfo) : Decidable c.Bounded :=
  inferInstanceAs (Decidable (_ ∧ _ ∧ ∀ column ∈ c.columns, column < idBound))

instance (schema : Schema) : Decidable schema.Bounded :=
  inferInstanceAs (Decidable ((∀ column ∈ schema.root.columns, column < idBound) ∧ _))

instance : (op : Operation) → Decidable op.Bounded
  | .createDatabase id _ => inferInstanceAs (Decidable (id < idBound))
  | .dropDatabase id => inferInstanceAs (Decidable (id < idBound))
  | .createTable ref _ => inferInstanceAs (Decidable ref.Bounded)
  | .dropTable ref => inferInstanceAs (Decidable ref.Bounded)
  | .updateSchema ref schema => inferInstanceAs (Decidable (ref.Bounded ∧ schema.Bounded))
  | .addChunk ref chunk => inferInstanceAs (Decidable (ref.Bounded ∧ chunk.Bounded))

instance (op : Operation) : Decidable op.Readable :=
  inferInstanceAs (Decidable (_ ∧ op.Bounded))

theorem Json.Reader.Reads.congr {α : Type} {reader : Reader α} {room : Nat} {v : Json}
    {ok ok' : Prop} {a : α} (h : reader.Reads room v ok a) (hok : ok ↔ ok') :
    reader.Reads room v ok' a := by
  rwa [← propext hok]

theorem TableRef.reads (r : TableRef) (room : Nat) :
    TableRef.reader.Reads room r.toJson r.Bounded r :=
  (Reader.Reads.two (by decide) (fun inner _ => Reader.reads_natBelow idBound_le inner r.database)
    fun inner _ => Reader.reads_natBelow idBound_le inner r.table).map _

theorem ChunkInfo.reads (c : ChunkInfo) (room : Nat) :
    ChunkInfo.reader.Reads room c.toJson c.Bounded c := by
  have hcolumns : ∀ inner, (Reader.list (Reader.natBelow idBound)).Reads inner
      (.array (c.columns.map .ofNat)) (∀ column ∈ c.columns, column < idBound)
        (c.columns.map id) := fun inner =>
    Reader.Reads.list fun inner _ column _ => Reader.reads_natBelow idBound_le inner column
  rw [List.map_id] at hcolumns
  exact (Reader.Reads.three (by decide) (by decide) (by decide)
    (fun inner _ => Reader.reads_natBelow idBound_le inner c.chunk)
    (fun inner _ => Reader.reads_natBelow idBound_le inner c.recordCount)
    fun inner _ => hcolumns inner).map _

theorem DataType.reads (type : DataType) (room : Nat) :
    DataType.reader.Reads room (.string type.name) True type := by
  cases type <;> exact Reader.reads_bare rfl room

namespace Schema

namespace Node

/-- The field of an object as JSON. -/
def fieldToJson (f : String × Node) : Json :=
  .object [("name", .string f.1), ("node", toJson f.2)]

theorem fieldsToJson_eq (fields : List (String × Node)) :
    fieldsToJson fields = fields.map fieldToJson := by
  induction fields with
  | nil => rfl
  | cons f rest ih =>
      rcases f with ⟨name, node⟩
      rw [fieldsToJson, ih, List.map_cons, fieldToJson]

-- The fields of an object are read back if their shapes are, which have fewer brackets.
theorem reads_fields {fields : List (String × Node)} {reader : Reader Node} {room : Nat}
    (h : ∀ f ∈ fields, ∀ inner, inner + 2 ≤ room →
      reader.Reads inner f.2.toJson (∀ column ∈ f.2.columns, column < idBound) f.2) :
    (Reader.list (Reader.two "name" Reader.string "node" reader)).Reads room
      (.array (fieldsToJson fields)) (∀ column ∈ columnsOf fields, column < idBound) fields := by
  have hlist : (Reader.list (Reader.two "name" Reader.string "node" reader)).Reads room
      (.array (fields.map fieldToJson))
        (∀ f ∈ fields, True ∧ ∀ column ∈ f.2.columns, column < idBound)
          (fields.map fun f => (f.1, f.2)) :=
    Reader.Reads.list fun inner hinner f hf => Reader.Reads.two (by decide)
      (fun room _ => Reader.reads_string room f.1) fun last hlast => h f hf last (by omega)
  have hmap : fields.map (fun f => (f.1, f.2)) = fields := List.map_id fields
  rw [hmap, ← fieldsToJson_eq] at hlist
  refine hlist.congr ⟨fun hall column hcolumn => ?_, fun hall f hf => ⟨trivial, fun column hc => ?_⟩⟩
  · rcases mem_columnsOf.mp hcolumn with ⟨f, hf, hin⟩
    exact (hall f hf).2 column hin
  · exact hall column (mem_columnsOf.mpr ⟨f, hf, hc⟩)

/-- A shape is read back by a reader for so many shapes in each other as there may be
    brackets. -/
theorem reads (node : Node) {depth room : Nat} (hroom : room < depth) :
    (readerTo depth).Reads room node.toJson (∀ column ∈ node.columns, column < idBound) node := by
  induction node using inductionOn generalizing depth room with
  | leaf column type =>
      cases depth with
      | zero => exact absurd hroom (Nat.not_lt_zero _)
      | succ depth =>
          have hleaf : (readerTo (depth + 1)).Reads room (toJson (.leaf column type))
              (column < idBound ∧ True) (.leaf column type) :=
            Reader.Reads.tagged rfl fun inner _ => (Reader.Reads.two (by decide)
              (fun inner _ => Reader.reads_natBelow idBound_le inner column)
              fun inner _ => type.reads inner).map _
          refine hleaf.congr ?_
          rw [and_true, columns, List.forall_mem_singleton]
  | object fields ih =>
      cases depth with
      | zero => exact absurd hroom (Nat.not_lt_zero _)
      | succ depth =>
          exact Reader.Reads.tagged rfl fun inner hinner =>
            (reads_fields fun f hf last hlast => ih f hf (by omega)).map _
  | array element ih =>
      cases depth with
      | zero => exact absurd hroom (Nat.not_lt_zero _)
      | succ depth =>
          exact Reader.Reads.tagged rfl fun inner hinner => (ih (by omega)).map _

end Node

theorem reads (schema : Schema) {room : Nat} (hroom : room ≤ Json.maxNesting) :
    Schema.reader.Reads room schema.toJson schema.Bounded schema := by
  have hfields : ∀ inner, room = inner + 1 →
      (Reader.list (Reader.two "name" Reader.string "node" Node.reader)).Reads inner
        (.array (Node.fieldsToJson schema.fields))
          (∀ column ∈ schema.root.columns, column < idBound) schema.fields := by
    intro inner hinner
    exact Node.reads_fields fun f _ last hlast => f.2.reads (by omega)
  have hnames : "fields" ≠ "next_column_id" := by decide
  have hboth := Reader.Reads.two hnames hfields
    fun inner _ => Reader.reads_natBelow idBound_le inner schema.nextColumn
  exact hboth.map _

end Schema

namespace LogEntry

/-- The entries by the word that tells them apart. -/
def variants : List (String × Reader.Variant LogEntry) :=
  Operation.variants.map ofVariant ++ [("Begin", .bare .opening), ("End", .bare .closing)]

theorem reads_tag {reader : Reader Operation} {tag : String} {v : Json} {ok : Prop}
    {op : Operation} {room : Nat}
    (hlookup : variants.lookup tag = some (.holding (reader.map .operation)))
    (h : ∀ inner, room = inner + 1 → reader.Reads inner v ok op) :
    LogEntry.reader.Reads room (.object [(tag, v)]) ok (.operation op) :=
  Reader.Reads.tagged hlookup fun inner hinner => (h inner hinner).map LogEntry.operation

theorem reads_operation (op : Operation) :
    LogEntry.reader.Reads Json.maxNesting op.toJson op.Bounded (.operation op) := by
  cases op with
  | createDatabase id name =>
      have hboth : ∀ inner, (Reader.two "database_id" (Reader.natBelow idBound)
          "name" Reader.string).Reads inner
            (.object [("database_id", .ofNat id), ("name", .string name)])
              (id < idBound ∧ True) (id, name) := fun inner =>
        Reader.Reads.two (by decide) (fun inner _ => Reader.reads_natBelow idBound_le inner id)
          fun inner _ => Reader.reads_string inner name
      have hread : LogEntry.reader.Reads Json.maxNesting (Operation.toJson (.createDatabase id name))
          (id < idBound ∧ True) (.operation (.createDatabase id name)) :=
        reads_tag rfl fun inner _ => (hboth inner).map _
      exact hread.congr (iff_of_eq (and_true _))
  | dropDatabase id =>
      have hone : ∀ inner, (Reader.one "database_id" (Reader.natBelow idBound)).Reads inner
          (.object [("database_id", .ofNat id)]) (id < idBound) id := fun inner =>
        Reader.Reads.one fun inner _ => Reader.reads_natBelow idBound_le inner id
      exact reads_tag rfl fun inner _ => (hone inner).map _
  | createTable ref name =>
      have hboth : ∀ inner, (Reader.two "table_id" TableRef.reader "name" Reader.string).Reads
          inner (.object [("table_id", ref.toJson), ("name", .string name)])
            (ref.Bounded ∧ True) (ref, name) := fun inner =>
        Reader.Reads.two (by decide) (fun inner _ => ref.reads inner)
          fun inner _ => Reader.reads_string inner name
      have hread : LogEntry.reader.Reads Json.maxNesting (Operation.toJson (.createTable ref name))
          (ref.Bounded ∧ True) (.operation (.createTable ref name)) :=
        reads_tag rfl fun inner _ => (hboth inner).map _
      exact hread.congr (iff_of_eq (and_true _))
  | dropTable ref =>
      have hone : ∀ inner, (Reader.one "table_id" TableRef.reader).Reads inner
          (.object [("table_id", ref.toJson)]) ref.Bounded ref := fun inner =>
        Reader.Reads.one fun inner _ => ref.reads inner
      exact reads_tag rfl fun inner _ => (hone inner).map _
  | updateSchema ref schema =>
      have hboth : ∀ inner, Json.maxNesting = inner + 1 →
          (Reader.two "table_id" TableRef.reader "schema" Schema.reader).Reads inner
            (.object [("table_id", ref.toJson), ("schema", schema.toJson)])
              (ref.Bounded ∧ schema.Bounded) (ref, schema) := fun inner hinner =>
        Reader.Reads.two (by decide) (fun last _ => ref.reads last)
          fun last hlast => schema.reads (by omega)
      exact reads_tag rfl fun inner hinner => (hboth inner hinner).map _
  | addChunk ref chunk =>
      have hboth : ∀ inner, (Reader.two "table_id" TableRef.reader "chunk" ChunkInfo.reader).Reads
          inner (.object [("table_id", ref.toJson), ("chunk", chunk.toJson)])
            (ref.Bounded ∧ chunk.Bounded) (ref, chunk) := fun inner =>
        Reader.Reads.two (by decide) (fun inner _ => ref.reads inner)
          fun inner _ => chunk.reads inner
      exact reads_tag rfl fun inner _ => (hboth inner).map _

theorem reads_opening : LogEntry.reader.Reads Json.maxNesting (toJson .opening) True .opening :=
  Reader.reads_bare rfl _

theorem reads_closing : LogEntry.reader.Reads Json.maxNesting (toJson .closing) True .closing :=
  Reader.reads_bare rfl _

end LogEntry

end NestedColumns
