import Concord.Features

namespace Concord

/-- What a clause asks of an attribute. -/
inductive Demand where
  /-- The attribute is present. -/
  | any
  /-- The attribute has this value. -/
  | literal (value : Feature)
  /-- The attribute has the value of this variable. -/
  | variable (index : Nat)
  deriving DecidableEq, Repr

/-- A condition on one attribute of a term. The value of an exported clause becomes an attribute of
the whole alternative. -/
structure Clause where
  kind : Attribute
  value : Demand
  exported : Bool
  deriving DecidableEq, Repr

/-- A term stands for a phrase of the symbol numbered by its target, or for a dictionary word if it
has no target. -/
structure Term where
  name : Option Text
  clauses : List Clause
  target : Option Nat := none
  deriving DecidableEq, Repr

inductive Element where
  /-- A text that the sentence continues with. -/
  | literal (text : Text)
  | term (term : Term)
  deriving DecidableEq, Repr

/-- A compiled pattern. The guard is a value that an inherited attribute must not contradict; the
variables are numbered from zero. -/
structure Pattern where
  raw : Text
  guard : Option Feature
  elements : List Element
  variableCount : Nat
  deriving DecidableEq, Repr

def Element.term? : Element → Option Term
  | .literal _ => none
  | .term t => some t

def Pattern.terms (pattern : Pattern) : List Term :=
  pattern.elements.filterMap Element.term?

end Concord
