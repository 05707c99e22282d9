import Concord.Bisect
import Concord.Features

namespace Concord

/-- A reading of a word. The offset is the byte position at which the word stands in the text of the
dictionary. -/
structure Entry where
  offset : Nat
  word : Text
  features : Features
  deriving DecidableEq, Repr

/-- The text holds every word with a NUL after it; the entries are the readings, in the order of
their words. -/
structure Dictionary where
  text : Text
  entries : Array Entry
  deriving DecidableEq, Repr

/-- At most `count` entries from position `i` on, while `p` holds. -/
def takeEntries (entries : Array Entry) (p : Entry → Bool) : Nat → Nat → List Entry
  | 0, _ => []
  | count + 1, i =>
    match entries[i]? with
    | some entry => if p entry then entry :: takeEntries entries p count (i + 1) else []
    | none => []

namespace Dictionary

def empty : Dictionary := ⟨[], #[]⟩

def size (dictionary : Dictionary) : Nat :=
  dictionary.entries.size

def isEmpty (dictionary : Dictionary) : Bool :=
  dictionary.entries.isEmpty

def wordCount (dictionary : Dictionary) : Nat :=
  dictionary.text.count '\x00'

def toList (dictionary : Dictionary) : List Entry :=
  dictionary.entries.toList

/-- The first position from `start` on whose word is not less than `text`. -/
def position (dictionary : Dictionary) (start : Nat) (text : Text) : Nat :=
  bisect (fun i => dictionary.entries[i]?.any (·.word < text)) start dictionary.size

def run (dictionary : Dictionary) (p : Entry → Bool) (start : Nat) : List Entry :=
  takeEntries dictionary.entries p (dictionary.size - start) start

def readings (dictionary : Dictionary) (word : Text) : List Entry :=
  dictionary.run (·.word = word) (dictionary.position 0 word)

/-- The readings of the phrases that begin with a word and the separator. They stand after the
readings of the word itself. -/
def phrases (dictionary : Dictionary) (word separator : Text) : List Entry :=
  if separator.isEmpty then
    []
  else
    let opening := word ++ separator
    let start := dictionary.position 0 word + (dictionary.readings word).length
    dictionary.run (opening.isPrefixOf ·.word) (dictionary.position start opening)

/-- The readings of a word, then those of the phrases that begin with it. -/
def lookup (dictionary : Dictionary) (word separator : Text) : List Entry :=
  dictionary.readings word ++ dictionary.phrases word separator

end Dictionary

end Concord
