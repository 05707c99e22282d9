import Concord.Letter.Blank
import Concord.Letter.Lowercase

namespace Concord

/-- A text is the list of its characters. -/
abbrev Text := List Char

/-- Dictionary words, literals and sentences are compared in lower case. -/
def normalize (text : Text) : Text :=
  text.map lowerChar

/-- Whether `a` is at most `b` in the order of code points, in which a text stands before all that
begin with it. -/
def inOrder (a b : Text) : Bool :=
  !decide (b < a)

/-- The pieces between separators, empty ones included; there is always one more piece than there
are separators. -/
def splitAll (sep : α → Bool) : List α → List (List α)
  | [] => [[]]
  | a :: rest =>
    if sep a then
      [] :: splitAll sep rest
    else
      match splitAll sep rest with
      | [] => [[a]]
      | piece :: pieces => (a :: piece) :: pieces

theorem splitAll_ne_nil (sep : α → Bool) (xs : List α) : splitAll sep xs ≠ [] := by
  induction xs with
  | nil => simp [splitAll]
  | cons a rest ih =>
    unfold splitAll
    split
    · simp
    · split <;> simp

def fields (sep : Char → Bool) (text : Text) : List Text :=
  (splitAll sep text).filter (!·.isEmpty)

def splitAtFirst (c : Char) : Text → Option (Text × Text)
  | [] => none
  | a :: rest =>
    if a = c then some ([], rest)
    else (splitAtFirst c rest).map fun (left, right) => (a :: left, right)

def splitAtArrow : Text → Option (Text × Text)
  | '-' :: '>' :: rest => some ([], rest)
  | a :: rest => (splitAtArrow rest).map fun (left, right) => (a :: left, right)
  | [] => none

def trimRight (text : Text) : Text :=
  (text.reverse.dropWhile isBlank).reverse

def trim (text : Text) : Text :=
  trimRight (text.dropWhile isBlank)

/-- Drops the last element if it is `a`. -/
def dropFinal [DecidableEq α] (a : α) (xs : List α) : List α :=
  if xs.getLast? = some a then xs.dropLast else xs

/-- The lines of a text. A line ends with a line feed, a carriage return before it is not part of
the line, and what follows the last line feed is a line unless it is empty. -/
def linesWith [DecidableEq α] (feed carriage : α) (text : List α) : List (List α) :=
  let pieces := splitAll (· = feed) text
  pieces.dropLast.map (dropFinal carriage) ++ (pieces.getLast?.filter (!·.isEmpty)).toList

def lines (text : Text) : List Text :=
  linesWith '\n' '\r' text

end Concord
