import Concord.Dictionary
import Concord.Dictionary.Record
import Concord.Repeats

namespace Concord

structure Reading where
  word : Text
  features : Features
  deriving DecidableEq, Repr

namespace Reading

/-- The reading on a line of a lexicon: a word, a tab, and tags between commas or spaces. A line
without a tab or without a word says nothing. -/
def ofLine? (line : Text) : Option Reading :=
  match splitAtFirst '\t' line with
  | none => none
  | some (word, tags) =>
    if word.isEmpty then none
    else some ⟨word, .ofTags (fields (fun c => c = ',' || c = ' ') tags)⟩

/-- Readings are ordered by word, those of one word by features. -/
def le (a b : Reading) : Bool :=
  a.word < b.word || (a.word = b.word && (a.features.compare b.features).isLE)

end Reading

/-- The different readings of a lexicon in order. -/
def lexiconReadings (lexicon : Text) : List Reading :=
  dropRepeats (((lines (normalize lexicon)).filterMap Reading.ofLine?).mergeSort Reading.le)

/-- Each word with a NUL after it. -/
def wordsText (words : List Text) : Text :=
  words.flatMap (· ++ ['\x00'])

/-- Gives readings in order their offsets, the first word standing at `offset`. Neighbours with one
word share its copy in the text. -/
def placeReadings (offset : Nat) : List Reading → List Entry
  | [] => []
  | [r] => [⟨offset, r.word, r.features⟩]
  | r :: s :: rest =>
    let next := if s.word = r.word then offset else offset + utf8Length r.word + 1
    ⟨offset, r.word, r.features⟩ :: placeReadings next (s :: rest)

/-- An entry can be described in 32 bits. -/
def Entry.fits (entry : Entry) : Bool :=
  entry.offset < sizeBound && utf8Length entry.word < sizeBound

/-- The dictionary of a lexicon. It fails if an offset or the length of a word is too large. -/
def Dictionary.ofLexicon (lexicon : Text) : Except Error Dictionary :=
  let readings := lexiconReadings lexicon
  let entries := placeReadings 0 readings
  if entries.all Entry.fits then
    .ok ⟨wordsText (dropRepeats (readings.map Reading.word)), entries.toArray⟩
  else
    .error .tooLarge

def Dictionary.ofLexiconBytes (bytes : Bytes) : Except Error Dictionary :=
  match decodeUtf8 bytes with
  | .ok lexicon => Dictionary.ofLexicon lexicon
  | .error fault => .error (.notUtf8 fault)

end Concord
