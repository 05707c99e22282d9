import Concord.Pattern.Compile
import Concord.Repeats

namespace Concord

structure Symbol where
  name : Text
  patterns : List Pattern
  deriving DecidableEq, Repr

structure Rule where
  name : Text
  raw : Text
  deriving DecidableEq, Repr

/-- The symbols of a grammar, in the order in which the rules name them, and the names that its
terms use but that have no rules. -/
structure Grammar where
  symbols : Array Symbol
  undefined : List Text
  deriving DecidableEq, Repr

/-- The pattern of a rule, compiled; a fault is reported with the name of the rule. -/
def Rule.compile (rule : Rule) : Except Error Pattern :=
  match Pattern.read rule.raw with
  | .ok pattern => .ok pattern
  | .error fault => .error (.pattern (some rule.name) rule.raw fault)

/-- Links a term to the symbol that it names. -/
def Term.link (names : List Text) (term : Term) : Term :=
  { term with target := term.name.bind fun name => names.findIdx? (· = name) }

def Element.link (names : List Text) : Element → Element
  | .literal text => .literal text
  | .term t => .term (t.link names)

def Pattern.link (names : List Text) (pattern : Pattern) : Pattern :=
  { pattern with elements := pattern.elements.map (Element.link names) }

namespace Grammar

def ofPatterns (rules : List (Text × Pattern)) : Grammar :=
  let names := (rules.map Prod.fst).eraseDups
  let patternsOf name := (rules.filter (·.1 = name)).map (·.2.link names)
  let used := (rules.flatMap (·.2.terms)).filterMap Term.name
  { symbols := (names.map fun name => ⟨name, patternsOf name⟩).toArray
    undefined := dropRepeats ((used.filter (· ∉ names)).mergeSort inOrder) }

/-- The grammar of rules; the first rule whose pattern does not compile is reported. -/
def ofRules (rules : List Rule) : Except Error Grammar := do
  let patterns ← rules.mapM fun rule => return (rule.name, ← rule.compile)
  return ofPatterns patterns

def size (grammar : Grammar) : Nat :=
  grammar.symbols.size

def isEmpty (grammar : Grammar) : Bool :=
  grammar.symbols.isEmpty

def indexOf? (grammar : Grammar) (name : Text) : Option Nat :=
  grammar.symbols.findIdx? (·.name = name)

def symbol? (grammar : Grammar) (name : Text) : Option Symbol :=
  grammar.symbols.find? (·.name = name)

/-- The alternatives of a symbol as they are written; none if there is no such symbol. -/
def rulesOf (grammar : Grammar) (name : Text) : List Text :=
  match grammar.symbol? name with
  | some symbol => symbol.patterns.map Pattern.raw
  | none => []

def nameOf (grammar : Grammar) (symbol : Nat) : Text :=
  match grammar.symbols[symbol]? with
  | some symbol => symbol.name
  | none => []

def alternatives (grammar : Grammar) (symbol : Nat) : List Pattern :=
  match grammar.symbols[symbol]? with
  | some symbol => symbol.patterns
  | none => []

end Grammar

/-- The rule on a line of a grammar: a name, an arrow and a pattern. Empty lines and lines that
begin with `#` hold none. -/
def Rule.ofLine (number : Nat) (line : Text) : Except Error (Option Rule) :=
  match trim line with
  | [] => .ok none
  | '#' :: _ => .ok none
  | line =>
    match splitAtArrow line with
    | none => .error (.rule number .noArrow)
    | some (name, pattern) =>
      if (trim name).isEmpty then .error (.rule number .noName)
      else .ok (some ⟨trim name, trim pattern⟩)

/-- The rules on lines, the first of which has the given number. A line that is not UTF-8 is a fault
of the file that shows once the line is reached. -/
def rulesOfLines (number : Nat) : List (Except Utf8Fault Text) → Except Error (List Rule)
  | [] => .ok []
  | .error _ :: _ => .error (.file .invalidData)
  | .ok line :: rest => do
    let rule? ← Rule.ofLine number line
    let rules ← rulesOfLines (number + 1) rest
    return rule?.toList ++ rules

/-- The grammar in a file. All lines are read before a pattern is compiled. -/
def Grammar.ofBytes (bytes : Bytes) : Except Error Grammar := do
  Grammar.ofRules (← rulesOfLines 1 (byteLines bytes))

end Concord
