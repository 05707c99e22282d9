import Concord.Letter.Alphanumeric
import Concord.Text.Utf8

namespace Concord

/-- A text, its normalized characters, and the byte position in the text at which each character
begins; one more position is the end of the text. A run of white space is one space. -/
structure Sentence where
  raw : Text
  chars : Array Char
  bytes : Array Nat
  deriving DecidableEq, Repr

/-- The normalized characters of a text with their byte positions, the first character of the text
standing at `offset`. White space after white space is left out. -/
def normalizedFrom (offset : Nat) (afterBlank : Bool) : Text → List (Char × Nat)
  | [] => []
  | c :: rest =>
    if isBlank c then
      if afterBlank then normalizedFrom (offset + c.utf8Size) true rest
      else (' ', offset) :: normalizedFrom (offset + c.utf8Size) true rest
    else
      (lowerChar c, offset) :: normalizedFrom (offset + c.utf8Size) false rest

namespace Sentence

def ofText (raw : Text) : Sentence :=
  let placed := normalizedFrom 0 false raw
  { raw
    chars := (placed.map Prod.fst).toArray
    bytes := (placed.map Prod.snd ++ [utf8Length raw]).toArray }

def length (sentence : Sentence) : Nat :=
  sentence.chars.size

/-- The byte position in the text of a character position. -/
def byteOffset (sentence : Sentence) (pos : Nat) : Nat :=
  sentence.bytes.getD pos 0

/-- The number of word characters from `pos` on, at most `count`. -/
def wordLength (sentence : Sentence) : Nat → Nat → Nat
  | 0, _ => 0
  | count + 1, pos =>
    match sentence.chars[pos]? with
    | some c => if isWordChar c then sentence.wordLength count (pos + 1) + 1 else 0
    | none => 0

/-- Where the word characters from `pos` on end. -/
def endOfWord (sentence : Sentence) (pos : Nat) : Nat :=
  pos + sentence.wordLength (sentence.length - pos) pos

def slice (sentence : Sentence) (start stop : Nat) : Text :=
  (sentence.chars.extract start stop).toList

/-- Where a text ends that begins at `pos`, if it stands there. -/
def endOf? (sentence : Sentence) (pos : Nat) : Text → Option Nat
  | [] => some pos
  | c :: rest => if sentence.chars[pos]? = some c then sentence.endOf? (pos + 1) rest else none

def afterSpace (sentence : Sentence) (pos : Nat) : Nat :=
  if sentence.chars[pos]? = some ' ' then pos + 1 else pos

/-- Whether nothing but a space follows. -/
def onlySpaceFrom (sentence : Sentence) (pos : Nat) : Bool :=
  sentence.length ≤ sentence.afterSpace pos

end Sentence

/-- The characters of a text that begin at byte positions from `start` to before `stop`, the first
character standing at `offset`. -/
def byteSlice (start stop : Nat) (offset : Nat) : Text → Text
  | [] => []
  | c :: rest =>
    if offset < start then byteSlice start stop (offset + c.utf8Size) rest
    else if offset < stop then c :: byteSlice start stop (offset + c.utf8Size) rest
    else []

def Sentence.surface (sentence : Sentence) (start stop : Nat) : Text :=
  byteSlice (sentence.byteOffset start) (sentence.byteOffset stop) 0 sentence.raw

end Concord
