/-!
# Checksums

Pages and indexes end with a checksum of what is before it: the standard CRC-32,
or none, which is written as zero and never checked.

## Main definitions

* `Crc32.ofBytes`: The CRC-32 of a byte string.
* `ChecksumType`, `ChecksumType.ofCode`: The kinds and their codes in files.
* `ChecksumType.sum`, `ChecksumType.verify`: Computing and checking.
* `ChecksumError`: A checksum of no known kind, or of other data.
-/

namespace NestedColumns

namespace Crc32

/-- One bit of the reflected remainder is divided out. -/
def shift (state : UInt32) : UInt32 :=
  if state &&& 1 = 1 then (state >>> 1) ^^^ 0xEDB88320 else state >>> 1

/-- So many bits are. -/
def shifts : Nat → UInt32 → UInt32
  | 0, state => state
  | n + 1, state => shifts n (shift state)

/-- The state after one more byte. -/
def step (state : UInt32) (b : UInt8) : UInt32 :=
  shifts 8 (state ^^^ b.toUInt32)

/-- The CRC-32 of a byte string. -/
def ofBytes (bytes : List UInt8) : UInt32 :=
  bytes.foldl step 0xFFFFFFFF ^^^ 0xFFFFFFFF

end Crc32

/-- The kinds of checksums. -/
inductive ChecksumType where
  | none
  | crc32
  deriving DecidableEq, Repr, Inhabited

/-- A checksum that does not belong to its data, or is of no known kind. -/
inductive ChecksumError where
  | unknownType (code : Nat)
  | mismatch (found expected : Nat)
  deriving DecidableEq, Repr

/-- The message about data that does not have the form it should have. -/
def undecodable (what : String) : String :=
  "Decode error: " ++ what

/-- The message of a checksum error. -/
def ChecksumError.message : ChecksumError → String
  | .unknownType code => undecodable ("unknown checksum type " ++ toString code)
  | .mismatch found expected =>
    "Invalid checksum: found " ++ toString found ++ ", expected " ++ toString expected

namespace ChecksumType

/-- The code of a kind in files. -/
def code : ChecksumType → Nat
  | .none => 0
  | .crc32 => 1

/-- The kind of a code. -/
def ofCode (code : Nat) : Except ChecksumError ChecksumType :=
  match code with
  | 0 => .ok .none
  | 1 => .ok .crc32
  | _ => .error (.unknownType code)

/-- The checksum of some data. -/
def sum : ChecksumType → List UInt8 → Nat
  | .none, _ => 0
  | .crc32, data => (Crc32.ofBytes data).toNat

/-- Check data against the checksum that was kept with it. -/
def verify (type : ChecksumType) (data : List UInt8) (expected : Nat) :
    Except ChecksumError Unit :=
  match type with
  | .none => .ok ()
  | .crc32 =>
    let found := ChecksumType.crc32.sum data
    if found = expected then .ok () else .error (.mismatch found expected)

end ChecksumType

end NestedColumns
