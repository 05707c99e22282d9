import Concord.Dictionary
import Concord.Grammar
import Concord.Sentence
import Concord.Tree

namespace Concord

/-- A dictionary and a grammar with the options of a search. -/
structure Parser where
  dictionary : Dictionary
  grammar : Grammar
  separator : Text := [' ']
  cap : Option Nat := none

namespace Parser

/-- Sets the separator; without one, dictionary words match single words of the sentence. -/
def withSeparator (parser : Parser) (separator : Text) : Parser :=
  { parser with separator }

/-- Sets the cap; zero is no cap. -/
def withCap (parser : Parser) (cap : Nat) : Parser :=
  { parser with cap := if cap = 0 then none else some cap }

/-- The leaf of a phrase of the dictionary. It stands at `pos` if its text does and the last word of
it is a whole word of the sentence. -/
def phraseLeaf? (sentence : Sentence) (pos : Nat) (entry : Entry) : Option Leaf :=
  match sentence.endOf? pos entry.word with
  | none => none
  | some stop =>
    if sentence.chars[stop]?.any isWordChar then none
    else some ⟨pos, stop, entry.features⟩

/-- The dictionary words that stand at a position: the readings of the word there, then the phrases
that begin with it. -/
def leavesAt (parser : Parser) (sentence : Sentence) (pos : Nat) : List Leaf :=
  let stop := sentence.endOfWord pos
  if stop = pos then
    []
  else
    let word := sentence.slice pos stop
    (parser.dictionary.readings word).map (fun entry => ⟨pos, stop, entry.features⟩)
      ++ (parser.dictionary.phrases word parser.separator).filterMap (phraseLeaf? sentence pos)

end Parser

end Concord
