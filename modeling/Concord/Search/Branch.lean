import Concord.Parser

namespace Concord

/-- An attribute that an alternative exports: a value, or a variable whose value is looked up once
the alternative is finished. -/
inductive Export where
  | value (feature : Feature)
  | variable (kind : Attribute) (index : Nat)
  deriving DecidableEq, Repr

/-- The values of the variables so far, and the exported attributes. -/
structure Bindings where
  values : List (Option Feature)
  exports : List Export
  deriving DecidableEq, Repr

namespace Bindings

def fresh (count : Nat) : Bindings :=
  ⟨List.replicate count none, []⟩

def get (bindings : Bindings) (index : Nat) : Option Feature :=
  bindings.values.getD index none

def bind (bindings : Bindings) (index : Nat) (feature : Feature) : Bindings :=
  { bindings with values := bindings.values.set index (some feature) }

/-- Exports an attribute if the clause says so. -/
def exporting (bindings : Bindings) (clause : Clause) (exported : Export) : Bindings :=
  if clause.exported then { bindings with exports := bindings.exports ++ [exported] } else bindings

/-- A variable agrees with a value if it has that value, or gets it. -/
def agree (bindings : Bindings) (index : Nat) (feature : Feature) : Option Bindings :=
  match bindings.get index with
  | none => some (bindings.bind index feature)
  | some bound => if bound = feature then some bindings else none

end Bindings

/-- A word must have the attribute of each clause, with the value that the clause asks for. -/
def Clause.unifyWord (features : Features) (bindings : Bindings) (clause : Clause) :
    Option Bindings := do
  let actual ← features.get clause.kind
  let bindings ←
    match clause.value with
    | .any => some bindings
    | .literal value => if actual = value then some bindings else none
    | .variable index => bindings.agree index actual
  return bindings.exporting clause (.value actual)

/-- A phrase may lack the attribute of a clause that asks for a value; a literal is then exported
with the value asked for, a variable with the value that it has in the end. -/
def Clause.unifyPhrase (features : Features) (bindings : Bindings) (clause : Clause) :
    Option Bindings :=
  match clause.value, features.get clause.kind with
  | .any, none => none
  | .any, some actual => some (bindings.exporting clause (.value actual))
  | .literal value, none => some (bindings.exporting clause (.value value))
  | .literal value, some actual =>
    if actual = value then some (bindings.exporting clause (.value value)) else none
  | .variable index, none => some (bindings.exporting clause (.variable clause.kind index))
  | .variable index, some actual =>
    (bindings.agree index actual).map (·.exporting clause (.variable clause.kind index))

/-- The elements of an alternative matched so far, up to the position `pos`. -/
structure Branch where
  pos : Nat
  bindings : Bindings
  children : List Tree

namespace Branch

def start (pos : Nat) (pattern : Pattern) : Branch :=
  ⟨pos, .fresh pattern.variableCount, []⟩

def follow (branch : Branch) (bindings : Bindings) (tree : Tree) : Branch :=
  ⟨tree.stop, bindings, branch.children ++ [tree]⟩

def word? (branch : Branch) (term : Term) (leaf : Leaf) : Option Branch :=
  (term.clauses.foldlM (Clause.unifyWord leaf.features) branch.bindings).map
    (branch.follow · (.leaf leaf))

def phrase? (branch : Branch) (term : Term) (tree : Tree) : Option Branch :=
  (term.clauses.foldlM (Clause.unifyPhrase tree.features) branch.bindings).map
    (branch.follow · tree)

def literal? (branch : Branch) (sentence : Sentence) (text : Text) : Option Branch :=
  (sentence.endOf? branch.pos text).map fun pos => { branch with pos }

/-- The attribute values that a term hands down to its symbol: those of its literals and of its
variables that have a value of the right attribute. -/
def handedDown (branch : Branch) (term : Term) : Features :=
  term.clauses.foldl
    (fun features clause =>
      let value? :=
        match clause.value with
        | .any => none
        | .literal value => some value
        | .variable index => branch.bindings.get index
      match value? with
      | some value => if value.kind = clause.kind then features.set value else features
      | none => features)
    .empty

end Branch

/-- The value of an exported attribute once all elements are matched. -/
def Export.value? (bindings : Bindings) : Export → Option Feature
  | .value feature => some feature
  | .variable kind index => (bindings.get index).filter (·.kind = kind)

/-- Adds an attribute that must not contradict the ones there. -/
def Features.add? (features : Features) (feature : Feature) : Option Features :=
  match features.get feature.kind with
  | none => some (features.set feature)
  | some existing => if existing = feature then some features else none

/-- The attributes exported; there are none if a variable has no value or values contradict. -/
def Bindings.features? (bindings : Bindings) : Option Features :=
  bindings.exports.foldlM
    (fun features exported => do features.add? (← exported.value? bindings)) .empty

def Branch.finish? (branch : Branch) (name : Text) (start : Nat) : Option Tree :=
  branch.bindings.features?.map fun features =>
    .phrase name start branch.pos features branch.children

/-- A guard is met unless the inherited attribute has another value. -/
def Pattern.admits (pattern : Pattern) (inherited : Features) : Bool :=
  match pattern.guard with
  | none => true
  | some value => (inherited.get value.kind).all (· = value)

end Concord
