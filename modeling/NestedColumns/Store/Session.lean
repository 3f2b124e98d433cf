import NestedColumns.Chunk
import NestedColumns.Store.Basic

/-!
# Sessions

A session writes documents to a table. It has a schema of its own, which grows
with the documents, and collects them in memory. When enough have come together,
they are written to disk as a chunk, which nobody else can see yet. Closing the
session commits the schema and all chunks at once; a session that ends in any
other way removes its chunks.

A document that is refused leaves no trace in its session. A chunk that cannot be
written does not lose documents: they stay in memory for the next attempt, under
a new number.

## Main definitions

* `Session`: A session that is open.
* `Store.openSession`: Opening one, if the table has no writer.
* `Session.insert`, `Session.insertText`: Adding a document.
* `Session.flush`: Writing a chunk.
* `Session.close`, `Session.abort`, `Session.discard`: Ending a session.
-/

namespace NestedColumns

/-- A session that is open. -/
structure Session where
  ref : TableRef
  /-- The name of the table. -/
  table : String
  /-- The schema of the table with the changes of this session. -/
  schema : Schema
  schemaChanged : Bool
  /-- The documents that were not written yet. -/
  buffer : ChunkBuffer
  /-- The chunks that were written but not committed. -/
  staged : List ChunkInfo
  /-- How many documents were added. -/
  inserted : Nat
  deriving Inhabited

/-- Open a session. -/
def Store.openSession (s : Store) (database table : String) :
    Store × Except StoreError Session :=
  match s.tableNamed database table with
  | .error e => (s, .error e)
  | .ok t =>
    match s.lock t with
    | (s, .error e) => (s, .error e)
    | (s, .ok _) => (s, .ok ⟨t.ref, t.name, t.schema, false, .empty, [], 0⟩)

namespace Session

/-- The table is free for another writer. -/
def release (session : Session) (s : Store) : Store :=
  s.unlock session.ref

/-- The directories of the chunks that were not committed. -/
def stagedPaths (session : Session) (options : StoreOptions) : List Path :=
  session.staged.map fun c => options.chunkPath session.ref c.chunk

/-- The files of a chunk in the order in which they are written. -/
def chunkEffects (directory : Path) (chunk : EncodedChunk) : List Effect :=
  .makeDirectories directory ::
    chunk.columns.flatMap fun (id, file) =>
      [.createFile (directory ++ [toString id ++ ".col"]) file.data,
        .createFile (directory ++ [toString id ++ ".idx"]) file.index]

/-- The session after its documents were written as a chunk. -/
def stage (session : Session) (info : ChunkInfo) : Session :=
  ⟨session.ref, session.table, session.schema, session.schemaChanged, .empty,
    session.staged ++ [info], session.inserted⟩

/-- Write the documents that are in memory as a chunk. If that fails, they stay
    there, and what was written is removed. -/
def flush (session : Session) (s : Store) : Store × Session × Except StoreError Unit :=
  if session.buffer.isEmpty then (s, session, .ok ())
  else
    match session.buffer.encode session.schema s.options.columnOptions with
    | .error id => (s, session, .error (.notFound .column (toString id)))
    | .ok chunk =>
      -- The number is used up even if the files cannot be written, so a later
      -- attempt never meets what this one leaves behind.
      let id := s.registry.nextChunk
      let directory := s.options.chunkPath session.ref id
      match (s.setRegistry s.registry.takeChunk).performAll (chunkEffects directory chunk) with
      | (s, .error e) => (s.discardTrees [directory], session, .error e)
      | (s, .ok _) => (s, session.stage ⟨id, chunk.recordCount, chunk.columnIds⟩, .ok ())

/-- The session with one more document in memory, if its schema can take it. -/
def accept (session : Session) (options : MergeOptions) (document : Json) :
    Except SchemaError Session := do
  let merged ← session.schema.merge options document
  let schema := merged.getD session.schema
  let streams ← Shredding.shred schema document
  return ⟨session.ref, session.table, schema, session.schemaChanged || merged.isSome,
    session.buffer.append streams, session.staged, session.inserted + 1⟩

/-- Add a document. When enough have come together they are written; if that
    fails, the document is in the session all the same. -/
def insert (session : Session) (s : Store) (document : Json) :
    Store × Session × Except StoreError Unit :=
  match session.accept s.options.mergeOptions document with
  | .error e => (s, session, .error (.schema e))
  | .ok session =>
    if s.options.targetChunkSize ≤ session.buffer.estimatedSize then session.flush s
    else (s, session, .ok ())

/-- Add the document that a text holds. Bytes that are no text are read as a
    character that no document has. -/
def insertText (session : Session) (s : Store) (bytes : List UInt8) :
    Store × Session × Except StoreError Unit :=
  match Json.read? (Utf8.readWith '\x00' bytes) with
  | .error fault => (s, session, .error (.notADocument fault))
  | .ok document => session.insert s document

/-- Add documents, up to the first that fails. -/
def insertAll (session : Session) (s : Store) :
    List Json → Store × Session × Except StoreError Unit
  | [] => (s, session, .ok ())
  | document :: rest =>
    match session.insert s document with
    | (s, session, .error e) => (s, session, .error e)
    | (s, session, .ok _) => insertAll session s rest

/-- The operations that make a session's schema and chunks those of its table. -/
def operations (session : Session) : List Operation :=
  (if session.schemaChanged then [.updateSchema session.ref session.schema] else []) ++
    session.staged.map (.addChunk session.ref)

/-- Commit what was written, if there is anything. -/
def commit (session : Session) (s : Store) : Store × Except StoreError Unit :=
  if session.operations.isEmpty then (s, .ok ())
  else
    match s.catalog.table? session.ref with
    | none => (s, .error (.notFound .table session.table))
    | some _ => s.commit session.operations

/-- End a session without its documents. Chunks that cannot be removed are left
    for the next time the store is opened. -/
def discard (session : Session) (s : Store) : Store :=
  session.release (s.discardTrees (session.stagedPaths s.options))

/-- End a session and commit its documents. If that fails, they are discarded. -/
def close (session : Session) (s : Store) : Store × Except StoreError Unit :=
  match session.flush s with
  | (s, session, .error e) => (session.discard s, .error e)
  | (s, session, .ok _) =>
    match session.commit s with
    | (s, .error e) => (session.discard s, .error e)
    | (s, .ok _) => (session.release s, .ok ())

/-- End a session without its documents. A chunk that cannot be removed is the
    error, and those after it stay too. -/
def abort (session : Session) (s : Store) : Store × Except StoreError Unit :=
  let (s, result) := s.removeTrees (session.stagedPaths s.options)
  (session.release s, result)

end Session

end NestedColumns
