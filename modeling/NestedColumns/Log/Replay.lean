import NestedColumns.Log.Operation
import NestedColumns.Text.Utf8

/-!
# Replaying the log

Opening a store reads its log from the start. The operations of a transaction
count when its closing mark is reached. A mark that opens another transaction
before that drops what was read since the last one, and operations outside of
transactions are dropped too. An entry that the end of the text cuts off ends
the log: its writing was interrupted. Any other entry that cannot be read is an
error, for then the log is damaged.

What follows the last closed transaction is to be cut off, so that the next one
is written behind it.

## Main definitions

* `LogError`: Why a log cannot be replayed.
* `Replay`: The operations of the closed transactions, and the text after them.
* `Replay.ofText`, `Replay.ofBytes`: Replaying a text, and the bytes of a file.
-/

namespace NestedColumns

/-- Why a log cannot be replayed. -/
inductive LogError where
  /-- The bytes are no text. -/
  | notText
  /-- An entry is none. -/
  | badEntry
  /-- A transaction is closed that was not opened. -/
  | closingWithoutOpening
  deriving DecidableEq, Repr

/-- The operations of the closed transactions, and the length in bytes of the
    text up to the end of the last one. -/
structure Replay where
  operations : List Operation
  committed : Nat
  deriving Inhabited

namespace Replay

/-- Go on with a replay: `opened` holds the operations of the open transaction, if
    there is one, `done` those of the closed ones, and `tail` is the text after
    the last of these. Each entry takes at least one character, which bounds
    their number. -/
def run : Nat → Option (List Operation) → List Operation → List Char → List Char →
    Except LogError (List Operation × List Char)
  | 0, _, done, tail, _ => .ok (done, tail)
  | fuel + 1, opened, done, tail, cs =>
    match Json.Reader.next LogEntry.reader cs with
    | .error .malformed => .error .badEntry
    -- The text ends within an entry, as an interrupted write leaves it.
    | .error .incomplete => .ok (done, tail)
    | .ok none => .ok (done, tail)
    | .ok (some (.opening, rest)) => run fuel (some []) done tail rest
    | .ok (some (.closing, rest)) =>
      match opened with
      | none => .error .closingWithoutOpening
      | some ops => run fuel none (done ++ ops) rest rest
    | .ok (some (.operation op, rest)) =>
      run fuel (opened.map (· ++ [op])) done tail rest

/-- Replay a text. -/
def ofText (cs : List Char) : Except LogError Replay :=
  (run (cs.length + 1) none [] cs cs).map fun (ops, tail) =>
    ⟨ops, Utf8.byteLength cs - Utf8.byteLength tail⟩

/-- Replay the bytes of a file. -/
def ofBytes (bytes : List UInt8) : Except LogError Replay :=
  match Utf8.read? bytes with
  | some cs => ofText cs
  | none => .error .notText

end Replay

end NestedColumns
