import Concord.Dictionary
import Concord.Dictionary.Record
import Std.Data.HashMap

namespace Concord

/-- The words with the byte positions at which they stand, the first at `offset`. -/
def placeWords (offset : Nat) : List Text → List (Nat × Text)
  | [] => []
  | word :: words => (offset, word) :: placeWords (offset + utf8Length word + 1) words

/-- The words of a text in which each word ends with a NUL, with their positions. -/
def wordsOfText (text : Text) : List (Nat × Text) :=
  placeWords 0 (splitAll (· = '\x00') text).dropLast

/-- Whether each word is at most the next one. -/
def wordsAscend : List Entry → Bool
  | a :: b :: rest => inOrder a.word b.word && wordsAscend (b :: rest)
  | _ => true

/-- The entry that a record describes. The offset is checked before the codes. -/
def Record.entry (words : Std.HashMap Nat Text) (record : Record) : Except Error Entry :=
  match words[record.offset]? with
  | none => .error (.database (.offsetOffWord record.offset))
  | some word =>
    match record.codes.features with
    | .ok features => .ok ⟨record.offset, word, features⟩
    | .error error => .error error

namespace Dictionary

/-- The dictionary with the given text and records, if these are in order. -/
def ofParts (text : Text) (records : List Record) : Except Error Dictionary := do
  let words := Std.HashMap.ofList (wordsOfText text)
  let entries ← records.mapM (Record.entry words)
  if wordsAscend entries then
    return ⟨text, entries.toArray⟩
  else
    throw (.database .unsortedEntries)

/-- The dictionary in a file: a header, the text, and the table of entries. All that searching
relies on is checked; what follows the table is ignored. -/
def ofBytes (bytes : Bytes) : Except Error Dictionary := do
  if bytes.length < headerSize then
    throw (.truncated .header headerSize bytes.length)
  let header := Header.decode bytes
  if header.magic ≠ magicNumber then
    throw (.badMagic header.magic)
  let body := bytes.drop headerSize
  if body.length < header.textBytes then
    throw (.truncated .text header.textBytes body.length)
  let table := body.drop header.textBytes
  if table.length < header.entryBytes then
    throw (.truncated .entries header.entryBytes table.length)
  if header.entryBytes % entrySize ≠ 0 then
    throw (.database (.unevenEntries header.entryBytes))
  match decodeUtf8 (body.take header.textBytes) with
  | .error fault => throw (.notUtf8 fault)
  | .ok text =>
    if text.getLast?.any (· ≠ '\x00') then
      throw (.database .unterminatedText)
    ofParts text (Record.decodeAll (table.take header.entryBytes))

def header (dictionary : Dictionary) : Except Error Header :=
  let textBytes := utf8Length dictionary.text
  let tableBytes := dictionary.size * entrySize
  if textBytes < sizeBound && tableBytes < sizeBound then
    .ok (.ofSizes textBytes tableBytes)
  else
    .error .tooLarge

/-- What follows the header in the file of a dictionary. -/
def payload (dictionary : Dictionary) : Bytes :=
  encodeUtf8 dictionary.text
    ++ dictionary.toList.flatMap fun e => (Record.ofFeatures e.offset e.features).encode

def toBytes (dictionary : Dictionary) : Except Error Bytes := do
  let header ← dictionary.header
  return header.encode ++ dictionary.payload

end Dictionary

end Concord
