import Concord.Proofs.Passage

namespace Concord

/-- The values of the variables of an alternative; a variable may have none. -/
abbrev Assignment := Nat → Option Feature

/-- A term of an alternative with the part of a derivation that stands for it. -/
structure Slot where
  term : Term
  part : Derivation

namespace Clause

/-- The clause allows a value of its attribute. -/
def Allows (clause : Clause) (values : Assignment) (value : Feature) : Prop :=
  match clause.value with
  | .any => True
  | .literal expected => value = expected
  | .variable index => values index = some value

/-- A part meets a clause. A word has the attribute; a phrase may lack it if the clause asks for a
value. -/
def MetBy (clause : Clause) (values : Assignment) : Derivation → Prop
  | .word leaf =>
    ∃ value, leaf.features.get clause.kind = some value ∧ clause.Allows values value
  | .expansion _ _ _ features _ =>
    (clause.value = .any → features.get clause.kind ≠ none) ∧
      ∀ value, features.get clause.kind = some value → clause.Allows values value

/-- The clause has the variable, and the part has the attribute. -/
def binds (clause : Clause) (part : Derivation) (index : Nat) : Bool :=
  clause.value = .variable index && (part.features.get clause.kind).isSome

/-- The value that a part exports by a clause. -/
def exportOf? (clause : Clause) (values : Assignment) : Derivation → Option Feature
  | .word leaf => leaf.features.get clause.kind
  | .expansion _ _ _ features _ =>
    match clause.value with
    | .any => features.get clause.kind
    | .literal value => some value
    | .variable index => (values index).filter (·.kind = clause.kind)

/-- The value that a clause hands down. It is of the attribute of the clause. -/
def given? (clause : Clause) (values : Assignment) : Option Feature :=
  match clause.value with
  | .any => none
  | .literal value => if value.kind = clause.kind then some value else none
  | .variable index => (values index).filter (·.kind = clause.kind)

end Clause

/-- The values that a term hands down; a later clause replaces the value of an earlier one. -/
def Term.inherits (term : Term) (values : Assignment) : Features :=
  (term.clauses.filterMap (·.given? values)).foldl Features.set .empty

/-- The values of the variables that some slots fix. -/
def Assignment.after (values : Assignment) (slots : List Slot) : Assignment := fun index =>
  if slots.any fun slot => slot.term.clauses.any (·.binds slot.part index) then values index
  else none

namespace Slot

/-- The part is what the term stands for, after some other slots: a word of the dictionary, or an
expansion that inherits what the term hands down. -/
def Stands (parser : Parser) (sentence : Sentence) (values : Assignment) (slot : Slot) : Prop :=
  match slot.part with
  | .word leaf => slot.term.target = none ∧ leaf ∈ parser.leavesAt sentence leaf.start
  | .expansion _ key _ _ _ =>
    slot.term.target = some key.symbol ∧ key.inherited = slot.term.inherits values

end Slot

/-- The literals and the slots of elements follow each other in the sentence without a gap. -/
inductive Tiles (sentence : Sentence) : List Element → Nat → List Slot → Nat → Prop where
  | nil {pos : Nat} : Tiles sentence [] pos [] pos
  | literal {text : Text} {elements : List Element} {pos stop : Nat} {slots : List Slot}
      (h : sentence.slice pos (pos + text.length) = text)
      (rest : Tiles sentence elements (pos + text.length) slots stop) :
      Tiles sentence (.literal text :: elements) pos slots stop
  | term {term : Term} {part : Derivation} {elements : List Element} {pos stop : Nat}
      {slots : List Slot} (h : part.start = pos)
      (rest : Tiles sentence elements part.stop slots stop) :
      Tiles sentence (.term term :: elements) pos (⟨term, part⟩ :: slots) stop

/-- The slots are a matching of an alternative from `start` to `stop`, under an assignment. The
features are the exported ones. -/
structure Matching (parser : Parser) (sentence : Sentence) (pattern : Pattern) (start stop : Nat)
    (features : Features) (slots : List Slot) (values : Assignment) : Prop where
  tiles : Tiles sentence pattern.elements start slots stop
  stands : ∀ before slot later, slots = before ++ slot :: later →
    slot.Stands parser sentence (values.after before)
  met : ∀ slot ∈ slots, ∀ clause ∈ slot.term.clauses, clause.MetBy values slot.part
  bound : ∀ index, values index ≠ none →
    ∃ slot ∈ slots, ∃ clause ∈ slot.term.clauses, clause.binds slot.part index = true
  exported : ∀ slot ∈ slots, ∀ clause ∈ slot.term.clauses, clause.exported = true →
    ∃ value, clause.exportOf? values slot.part = some value ∧ features.get value.kind = some value
  only : ∀ value, features.get value.kind = some value →
    ∃ slot ∈ slots, ∃ clause ∈ slot.term.clauses,
      clause.exported = true ∧ clause.exportOf? values slot.part = some value

/-- A derivation is valid if each expansion is a matching of an alternative of its symbol whose
guard is met. -/
def Derivation.Valid (parser : Parser) (sentence : Sentence) : Derivation → Prop
  | .word _ => True
  | .expansion name key stop features parts =>
    name = parser.grammar.nameOf key.symbol ∧
    (∃ pattern ∈ parser.grammar.alternatives key.symbol,
      pattern.admits key.inherited = true ∧ ∃ slots values, slots.map Slot.part = parts ∧
        Matching parser sentence pattern key.start stop features slots values) ∧
    ∀ part ∈ parts, Valid parser sentence part

/-- The variables of a pattern are among those counted. -/
def Pattern.Scoped (pattern : Pattern) : Prop :=
  ∀ term ∈ pattern.terms, ∀ clause ∈ term.clauses, ∀ index,
    clause.value = .variable index → index < pattern.variableCount

/-- The variables of all alternatives are among those counted. -/
def Grammar.Scoped (grammar : Grammar) : Prop :=
  ∀ symbol ∈ grammar.symbols, ∀ pattern ∈ symbol.patterns, pattern.Scoped

end Concord
