import NestedColumns.Proofs.Store.Acknowledged

/-!
# Sessions and readers side by side

Any number of sessions and readers of an engine are used side by side, each under a handle of
its own, while databases and tables come and go, and pages that were kept are forgotten. Every step
of any of them is an action, and a history is a list of actions in the order in which they took
place.

Beside the state of the program an engine knows what its callers know: for each session the
table as it was when the session was opened and the documents that were not refused, and for
each table the documents of the sessions that were closed. The disk may fail at any attempt.

## Main definitions

* `Live`: A session that is open, with what its caller knows.
* `Engine`: A store with sessions and readers.
* `Action`: What can be done with an engine.
* `Engine.step`, `Engine.run`: The engine after an action, and after many.

## Theorems

* `Engine.run_append`, `Engine.run_concat`: Actions one after another.
-/

namespace NestedColumns

/-- A session that is open. -/
structure Live where
  session : Session
  /-- The table as it was when the session was opened. -/
  base : Table
  /-- The documents that were added and not refused. -/
  taken : List Taken
  deriving Inhabited

/-- A store with sessions and readers, which are known by their handles. -/
structure Engine where
  store : Store
  sessions : IdMap Live
  readers : IdMap RecordReader
  /-- The documents of the sessions of a table that were closed. -/
  kept : TableRef → List Taken

/-- What can be done with an engine. A handle is chosen by whoever opens what it stands for. -/
inductive Action where
  | createDatabase (name : String)
  | dropDatabase (name : String)
  | createTable (database table : String)
  | dropTable (database table : String)
  | openSession (handle : Nat) (database table : String)
  | insert (handle : Nat) (document : Json)
  | insertText (handle : Nat) (bytes : List UInt8)
  | close (handle : Nat)
  | abort (handle : Nat)
  /-- A session that is left open by whoever had it. -/
  | discard (handle : Nat)
  | openReader (handle : Nat) (database table : String) (paths : List String)
  /-- The next record of a reader. -/
  | next (handle : Nat)
  /-- Pages that are kept are forgotten. A page is looked up once for each answer of a reader, so it
      does not matter when in between it goes. -/
  | forget (keys : List PageKey)

namespace Engine

/-- A store that was just opened, whose tables hold some documents. -/
def resume (s : Store) (kept : TableRef → List Taken) : Engine :=
  ⟨s, .empty, .empty, kept⟩

/-- The engine with another store. With a table its documents are gone. -/
def onStore (e : Engine) (s : Store) : Engine :=
  ⟨s, e.sessions, e.readers, fun ref => if (s.catalog.table? ref).isSome then e.kept ref else []⟩

/-- The engine after a change of its catalog was asked for. -/
def onChange (e : Engine) :
    Store × Except StoreError Unit → Engine × Except (Halt EngineError) (Option Record)
  | (s, .error error) => (e.onStore s, .error (.ofStore error))
  | (s, .ok _) => (e.onStore s, .ok none)

/-- The engine after a session was opened. -/
def onOpen (e : Engine) (handle : Nat) :
    Store × Except StoreError Session → Engine × Except (Halt EngineError) (Option Record)
  | (s, .error error) => (⟨s, e.sessions, e.readers, e.kept⟩, .error (.ofStore error))
  | (s, .ok session) =>
    let base := (s.catalog.table? session.ref).getD default
    (⟨s, e.sessions.insert handle ⟨session, base, []⟩, e.readers, e.kept⟩, .ok none)

/-- The engine after a session was given a document. Unless it was refused the session has it,
    also if it could not be written. -/
def onInsert (e : Engine) (handle : Nat) (live : Live) (document : Option Json) :
    Store × Session × Except StoreError Unit → Engine × Except (Halt EngineError) (Option Record)
  | (s, session, result) =>
    let more :=
      if Session.isRefusal result then []
      else document.toList.map fun document => ⟨session.schema, document⟩
    (⟨s, e.sessions.insert handle ⟨session, live.base, live.taken ++ more⟩, e.readers, e.kept⟩,
      (result.mapError .ofStore).map fun _ => none)

/-- The engine after a session has ended. If it was closed its documents are the table's. -/
def onEnd (e : Engine) (handle : Nat) (live : Live) (closing : Bool) :
    Store × Except StoreError Unit → Engine × Except (Halt EngineError) (Option Record)
  | (s, result) =>
    let more := if closing && result.isOk then live.taken else []
    (⟨s, e.sessions.erase handle, e.readers,
        Function.update e.kept live.session.ref (e.kept live.session.ref ++ more)⟩,
      (result.mapError .ofStore).map fun _ => none)

/-- The engine after a reader was asked for its next record. After a panic the engine goes on for
    its other callers. -/
def onNext (e : Engine) (handle : Nat) :
    Volume × Except (Halt StoreError) (Option Record) × RecordReader →
      Engine × Except (Halt EngineError) (Option Record)
  | (v, result, reader) =>
    (⟨e.store.setVolume v, e.sessions, e.readers.insert handle reader, e.kept⟩,
      result.mapError (.map .store))

/-- The engine after an action, with the answer. Only a reader answers with a record, or panics.
    Nothing is done with a handle that stands for nothing, and no session is opened under a handle
    that is in use. -/
def step (e : Engine) : Action → Engine × Except (Halt EngineError) (Option Record)
  | .createDatabase name => e.onChange (e.store.createDatabase name)
  | .dropDatabase name => e.onChange (e.store.dropDatabase name)
  | .createTable database table => e.onChange (e.store.createTable database table)
  | .dropTable database table => e.onChange (e.store.dropTable database table)
  | .openSession handle database table =>
    match e.sessions.find? handle with
    | some _ => (e, .ok none)
    | none => e.onOpen handle (e.store.openSession database table)
  | .insert handle document =>
    match e.sessions.find? handle with
    | none => (e, .ok none)
    | some live => e.onInsert handle live (some document) (live.session.insert e.store document)
  | .insertText handle bytes =>
    match e.sessions.find? handle with
    | none => (e, .ok none)
    | some live =>
      e.onInsert handle live (Json.read? (Utf8.readWith '\x00' bytes)).toOption
        (live.session.insertText e.store bytes)
  | .close handle =>
    match e.sessions.find? handle with
    | none => (e, .ok none)
    | some live => e.onEnd handle live true (live.session.close e.store)
  | .abort handle =>
    match e.sessions.find? handle with
    | none => (e, .ok none)
    | some live => e.onEnd handle live false (live.session.abort e.store)
  | .discard handle =>
    match e.sessions.find? handle with
    | none => (e, .ok none)
    | some live => e.onEnd handle live false (live.session.discard e.store, .ok ())
  | .openReader handle database table paths =>
    match e.store.reader database table paths with
    | .error error => (e, .error (.failed error))
    | .ok reader => (⟨e.store, e.sessions, e.readers.insert handle reader, e.kept⟩, .ok none)
  | .next handle =>
    match e.readers.find? handle with
    | none => (e, .ok none)
    | some reader => e.onNext handle (reader.next e.store.volume)
  | .forget keys =>
    (⟨e.store.setVolume (e.store.volume.forget keys), e.sessions, e.readers, e.kept⟩, .ok none)

/-- The engine after actions. -/
def run (e : Engine) (actions : List Action) : Engine :=
  actions.foldl (fun e a => (e.step a).1) e

theorem run_append (e : Engine) (before after : List Action) :
    e.run (before ++ after) = (e.run before).run after :=
  List.foldl_append

theorem run_concat (e : Engine) (before : List Action) (a : Action) :
    e.run (before ++ [a]) = ((e.run before).step a).1 :=
  List.foldl_concat ..

end Engine

end NestedColumns
