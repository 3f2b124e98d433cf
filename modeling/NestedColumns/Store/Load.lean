import NestedColumns.Disk.Walk
import NestedColumns.Store.Session

/-!
# Loading files

A file of documents holds either one array of them, or documents one after
another. It is loaded in a session of its own, so either all its documents are
committed or none.

## Main definitions

* `DocumentFile.documents`: The documents of a file, and what is wrong after them.
* `Store.load`: Loading the bytes of a file.
* `Store.loadFile`: Loading a file.
-/

namespace NestedColumns

namespace DocumentFile

/-- The documents of the values that were read from a file, and the error that
    comes after them. The elements of a leading array are documents, and nothing
    may follow it. -/
def ofValues : List Json × Option Json.Fault → List Json × Option StoreError
  | (.array documents :: [], none) => (documents, none)
  | (.array documents :: _, _) => (documents, some .contentAfterArray)
  | (documents, fault) => (documents, fault.map .notADocument)

/-- The documents of a file, and the error that comes after them. Bytes that are
    no text are read as a character that no document has. -/
def documents (bytes : List UInt8) : List Json × Option StoreError :=
  ofValues (Json.Reader.values Json.document (Utf8.readWith '\x00' bytes))

end DocumentFile

namespace Session

/-- Add the documents of a file, up to the first error. -/
def insertFile (session : Session) (s : Store) (bytes : List UInt8) :
    Store × Session × Except StoreError Unit :=
  let (documents, fault) := DocumentFile.documents bytes
  match session.insertAll s documents with
  | (s, session, .error e) => (s, session, .error e)
  | (s, session, .ok _) =>
    match fault with
    | some e => (s, session, .error e)
    | none => (s, session, .ok ())

end Session

namespace Store

/-- Load the bytes of a file into a table. The answer is the number of documents. -/
def load (s : Store) (database table : String) (bytes : List UInt8) :
    Store × Except StoreError Nat :=
  match s.openSession database table with
  | (s, .error e) => (s, .error e)
  | (s, .ok session) =>
    match session.insertFile s bytes with
    | (s, session, .error e) => ((session.abort s).1, .error e)
    | (s, session, .ok _) =>
      match session.close s with
      | (s, .error e) => (s, .error e)
      | (s, .ok _) => (s, .ok session.inserted)

/-- Load a file into a table. The file is read first. -/
def loadFile (s : Store) (database table : String) (route : Route) :
    Store × Except StoreError Nat :=
  match s.disk.readAlong route with
  | .error e => (s, .error (.file e))
  | .ok bytes => s.load database table bytes

end Store

end NestedColumns
