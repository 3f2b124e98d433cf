import NestedColumns.Bytes
import NestedColumns.Checksum
import NestedColumns.Halt

/-!
# Page indexes

Beside every column file lies its index: where each page is, and which documents
it covers. The entries are followed by a mark, a version, their number, and a
checksum of the entries.

The size that the number of entries asks for is a 64-bit number, and the number
of the document after a page a 32-bit number. A file can make both of them leave
their widths, which is not looked for in advance: the program panics then. What
follows the last page is counted like the rest, though no page starts there.

## Main definitions

* `PageEntry`: Where a page is and what it covers.
* `PageIndex.encode`, `PageIndex.decode`: The bytes of an index.
* `IndexError`: What is wrong with an index.
-/

namespace NestedColumns

/-- Where a page is in the file of its column, and what it covers. -/
structure PageEntry where
  offset : Nat
  length : Nat
  /-- The number of the first document within the chunk. -/
  firstRecord : Nat
  recordCount : Nat
  valueCount : Nat
  deriving DecidableEq, Repr, Inhabited

/-- What is wrong with an index. -/
inductive IndexError where
  | tooSmall
  | badMark
  | version (v : Nat)
  | checksum (e : ChecksumError)
  /-- The number of entries is not that of the file. -/
  | length
  /-- A page does not start where the one before ends. -/
  | gap
  deriving DecidableEq, Repr

/-- The message of an index error. -/
def IndexError.message : IndexError → String
  | .tooSmall => undecodable "failed to decode column index: file too small"
  | .badMark => undecodable "failed to decode column index: invalid magic"
  | .version v => undecodable ("unsupported column index version " ++ toString v)
  | .checksum e => e.message
  | .length => undecodable "failed to decode column index: length mismatch"
  | .gap => undecodable "failed to decode column index: pages are not contiguous"

/-- The pages of a column in order. -/
abbrev PageIndex := List PageEntry

namespace PageIndex

/-- The mark of an index. -/
def mark : Nat := 0x4e455354

/-- The version of the format. -/
def version : Nat := 1

/-- The size of an entry. -/
def entrySize : Nat := 28

/-- The size of what follows the entries. -/
def footerSize : Nat := 28

/-- How many documents the pages cover. -/
def recordCount (index : PageIndex) : Nat :=
  (index.map (·.recordCount)).sum

/-- The bytes of an entry. -/
def encodeEntry (e : PageEntry) : List UInt8 :=
  Bytes.big 8 e.offset ++ Bytes.big 8 e.length ++ Bytes.big 4 e.firstRecord ++
    Bytes.big 4 e.recordCount ++ Bytes.big 4 e.valueCount

/-- The bytes of all entries. -/
def encodeEntries (index : PageIndex) : List UInt8 :=
  index.flatMap encodeEntry

/-- The bytes of an index. -/
def encode (checksum : ChecksumType) (index : PageIndex) : List UInt8 :=
  let entries := encodeEntries index
  entries ++ Bytes.big 4 mark ++ Bytes.big 4 version ++ Bytes.big 8 index.length ++
    Bytes.big 4 checksum.code ++ Bytes.big 8 (checksum.sum entries)

/-- The entry that bytes hold. -/
def decodeEntry (bytes : List UInt8) : PageEntry :=
  ⟨Bytes.ofBig (bytes.take 8), Bytes.ofBig ((bytes.drop 8).take 8),
    Bytes.ofBig ((bytes.drop 16).take 4), Bytes.ofBig ((bytes.drop 20).take 4),
    Bytes.ofBig ((bytes.drop 24).take 4)⟩

/-- So many entries, the first of which starts with the document `next`. -/
def decodeEntries : Nat → Nat → List UInt8 → Except (Halt IndexError) PageIndex
  | 0, _, _ => .ok []
  | n + 1, next, bytes =>
    let e := decodeEntry bytes
    if e.firstRecord ≠ next then .error (.failed .gap)
    else if 2 ^ 32 ≤ next + e.recordCount then .error .panicked
    else do
      let rest ← decodeEntries n (next + e.recordCount) (bytes.drop entrySize)
      return e :: rest

/-- The index of so many entries, which all of the bytes are for. -/
def decodeAll (count : Nat) (entries : List UInt8) : Except (Halt IndexError) PageIndex :=
  if 2 ^ 64 ≤ count * entrySize then .error .panicked
  else if entries.length ≠ count * entrySize then .error (.failed .length)
  else decodeEntries count 0 entries

/-- The number of entries that the footer of a file announces, if everything else
    in it is right. -/
def checkFooter (entries footer : List UInt8) : Except IndexError Nat := do
  if Bytes.ofBig (footer.take 4) ≠ mark then throw .badMark
  let v := Bytes.ofBig ((footer.drop 4).take 4)
  if v ≠ version then throw (.version v)
  let checksum ← (ChecksumType.ofCode (Bytes.ofBig ((footer.drop 16).take 4))).mapError .checksum
  (checksum.verify entries (Bytes.ofBig (footer.drop 20))).mapError .checksum
  return Bytes.ofBig ((footer.drop 8).take 8)

/-- The index that a file holds. -/
def decode (data : List UInt8) : Except (Halt IndexError) PageIndex :=
  if data.length < footerSize then .error (.failed .tooSmall)
  else
    let entries := data.take (data.length - footerSize)
    match checkFooter entries (data.drop (data.length - footerSize)) with
    | .error e => .error (.failed e)
    | .ok count => decodeAll count entries

end PageIndex

end NestedColumns
