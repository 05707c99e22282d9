import Concord.Error

namespace Concord

/-- The number that the bytes spell, lowest byte first. -/
def littleEndian : Bytes → Nat
  | [] => 0
  | b :: rest => b.toNat + 256 * littleEndian rest

/-- A number in `count` bytes, lowest byte first. -/
def toLittleEndian : Nat → Nat → Bytes
  | 0, _ => []
  | count + 1, n => UInt8.ofNat n :: toLittleEndian count (n / 256)

def headerSize : Nat := 16

def entrySize : Nat := 8

def sizeBound : Nat := UInt32.size

structure Header where
  magic : Nat
  textBytes : Nat
  entryBytes : Nat
  deriving DecidableEq, Repr

namespace Header

def ofSizes (textBytes entryBytes : Nat) : Header :=
  ⟨magicNumber, textBytes, entryBytes⟩

/-- The last four bytes are reserved and written as zero. -/
def encode (header : Header) : Bytes :=
  toLittleEndian 4 header.magic ++ toLittleEndian 4 header.textBytes
    ++ toLittleEndian 4 header.entryBytes ++ [0, 0, 0, 0]

/-- Reads the first twelve bytes; the reserved ones may be anything. -/
def decode (bytes : Bytes) : Header where
  magic := littleEndian (bytes.take 4)
  textBytes := littleEndian ((bytes.drop 4).take 4)
  entryBytes := littleEndian ((bytes.drop 8).take 4)

end Header

/-- The codes of part of speech, number and case as they stand in a file. -/
structure Codes where
  pos : UInt8
  number : UInt8
  gramCase : UInt8
  deriving DecidableEq, Repr

/-- The value that a code stands for; zero stands for none. -/
def valueOfCode {α : Type} [DecidableEq α] [Tagset α] (kind : Attribute) (code : UInt8) :
    Except Error (Option α) :=
  if code = 0 then
    .ok none
  else
    match Tagset.ofCode? code.toNat with
    | some v => .ok (some v)
    | none => .error (.database (.codeOutOfRange kind code.toNat))

def Codes.ofFeatures (features : Features) : Codes where
  pos := UInt8.ofNat features.codes.1
  number := UInt8.ofNat features.codes.2.1
  gramCase := UInt8.ofNat features.codes.2.2

/-- The features that codes stand for; the first code out of range is reported. -/
def Codes.features (codes : Codes) : Except Error Features := do
  let pos ← valueOfCode .pos codes.pos
  let number ← valueOfCode .number codes.number
  let gramCase ← valueOfCode .gramCase codes.gramCase
  return { pos, number, gramCase }

/-- An entry as it stands in a file: where its word begins in the text, and its codes. -/
structure Record where
  offset : Nat
  codes : Codes
  deriving DecidableEq, Repr

namespace Record

def ofFeatures (offset : Nat) (features : Features) : Record :=
  ⟨offset, .ofFeatures features⟩

/-- The last byte is reserved and written as zero. -/
def encode (record : Record) : Bytes :=
  toLittleEndian 4 record.offset
    ++ [record.codes.pos, record.codes.number, record.codes.gramCase, 0]

/-- The records in a table; bytes that do not make up a whole record are left out. -/
def decodeAll : Bytes → List Record
  | b0 :: b1 :: b2 :: b3 :: pos :: number :: gramCase :: _ :: rest =>
    ⟨littleEndian [b0, b1, b2, b3], ⟨pos, number, gramCase⟩⟩ :: decodeAll rest
  | _ => []

end Record

end Concord
