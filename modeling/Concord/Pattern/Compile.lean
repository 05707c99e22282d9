import Concord.Error
import Concord.Letter.Alphanumeric
import Concord.Pattern

namespace Concord

inductive Segment where
  | literal (text : Text)
  | guard (body : Text)
  | term (body : Text)
  /-- The place where the braces go wrong. -/
  | fault (fault : PatternFault)
  deriving DecidableEq, Repr

/-- The kinds of text that a reader of a pattern may be within. -/
inductive Within where
  | literal | guard | term
  deriving DecidableEq, Repr

/-- Cuts the rest of a pattern into segments; `piece` holds the characters of the current one, the
last one first. -/
def segmentsFrom : Within → Text → Text → List Segment
  | .literal, piece, [] => [.literal piece.reverse]
  | .literal, piece, c :: rest =>
    if c = '}' then [.fault .unopened]
    else if c = '{' then .literal piece.reverse :: segmentsFrom .term [] rest
    else segmentsFrom .literal (c :: piece) rest
  | .guard, _, [] => [.fault .unclosed]
  | .guard, piece, c :: rest =>
    if c = '}' then .guard piece.reverse :: segmentsFrom .literal [] rest
    else if c = '{' then [.fault .nested]
    else segmentsFrom .guard (c :: piece) rest
  | .term, _, [] => [.fault .unclosed]
  | .term, piece, c :: rest =>
    if c = '}' then .term piece.reverse :: segmentsFrom .literal [] rest
    else if c = '{' then [.fault .nested]
    else segmentsFrom .term (c :: piece) rest

/-- The segments of a pattern from left to right: literals and terms in braces, after an optional
guard, which is a term behind an `@`. A fault is the last one, so that the leftmost is reported. -/
def segments : Text → List Segment
  | '@' :: '{' :: rest => segmentsFrom .guard [] rest
  | '@' :: _ => [.fault .guardWithoutTerm]
  | raw => segmentsFrom .literal [] raw

/-- Literals are in lower case, with one space for each run of white space. -/
def foldLiteral : Text → Text
  | [] => []
  | c :: rest =>
    if isBlank c then
      match rest with
      | d :: _ => if isBlank d then foldLiteral rest else ' ' :: foldLiteral rest
      | [] => [' ']
    else
      lowerChar c :: foldLiteral rest

def decimal (digits : Text) : Nat :=
  digits.foldl (fun n d => 10 * n + (d.toNat - '0'.toNat)) 0

/-- The number of a variable as it is written: at least one and within 32 bits. -/
def variableNumber? (digits : Text) : Option Nat :=
  if digits ≠ [] ∧ digits.all Char.isDigit ∧ 0 < decimal digits ∧ decimal digits < UInt32.size then
    some (decimal digits)
  else
    none

/-- The place of a number among those seen so far, and the numbers seen with it. Numbers are placed
in the order of their first occurrence. -/
def place (seen : List Nat) (number : Nat) : Nat × List Nat :=
  if number ∈ seen then (seen.idxOf number, seen) else (seen.length, seen ++ [number])

/-- The value of a clause after its equals sign, and the variables seen with it. -/
def compileValue (seen : List Nat) (kind : Attribute) :
    Text → Except PatternFault (Demand × List Nat)
  | '@' :: digits =>
    match variableNumber? digits with
    | some number => .ok ((place seen number).map .variable id)
    | none => .error (.badVariable digits)
  | tag =>
    match Feature.ofAttributeTag? kind tag with
    | some feature => .ok (.literal feature, seen)
    | none => .error (.badValue kind tag)

/-- A clause without its exclamation mark, and the variables seen with it. -/
def compileBody (seen : List Nat) (exported : Bool) (body : Text) :
    Except PatternFault (Clause × List Nat) :=
  let (name, value?) :=
    match splitAtFirst '=' body with
    | some (name, value) => (name, some value)
    | none => (body, none)
  match Attribute.ofName? name with
  | none => .error (.unknownAttribute name)
  | some kind =>
    match value? with
    | none => .ok (⟨kind, .any, exported⟩, seen)
    | some value => (compileValue seen kind value).map fun (v, seen) => (⟨kind, v, exported⟩, seen)

def compileClause (seen : List Nat) : Text → Except PatternFault (Clause × List Nat)
  | '!' :: body => compileBody seen true body
  | body => compileBody seen false body

def compileClauses (seen : List Nat) : List Text → Except PatternFault (List Clause × List Nat)
  | [] => .ok ([], seen)
  | token :: tokens => do
    let (clause, seen) ← compileClause seen token
    let (clauses, seen) ← compileClauses seen tokens
    return (clause :: clauses, seen)

/-- The text of a guard is one clause that gives a value and is not exported. -/
def compileGuard (seen : List Nat) (body : Text) : Except PatternFault (Feature × List Nat) :=
  match fields isBlank body with
  | [token] => do
    match ← compileClause seen token with
    | (⟨_, .literal value, false⟩, seen) => return (value, seen)
    | _ => throw (.guardNotValue token)
  | _ => .error .guardNotOneClause

/-- A token that is no clause: it has no exclamation mark, no equals sign, and is no attribute. -/
def isSymbolToken (token : Text) : Bool :=
  token.head? != some '!' && !token.contains '=' && (Attribute.ofName? token).isNone

def isSymbol (token : Text) : Bool :=
  token.all fun c => isAlphanumeric c || c = '_'

/-- The text of a term: a symbol, clauses, or a symbol and clauses. -/
def compileTerm (seen : List Nat) (body : Text) : Except PatternFault (Term × List Nat) :=
  match fields isBlank body with
  | [] => .error .emptyTerm
  | first :: tokens =>
    if isSymbolToken first then
      if isSymbol first then
        (compileClauses seen tokens).map fun (clauses, seen) =>
          ({ name := some first, clauses }, seen)
      else
        .error (.badSymbol first)
    else
      (compileClauses seen (first :: tokens)).map fun (clauses, seen) =>
        ({ name := none, clauses }, seen)

/-- What has been compiled of a pattern: its guard, its elements, and the numbers of its variables
in the order of their places. -/
structure Draft where
  guard : Option Feature := none
  elements : List Element := []
  seen : List Nat := []
  deriving DecidableEq, Repr

/-- Compiles the next segment. Literals without characters are left out. -/
def Draft.add (draft : Draft) : Segment → Except PatternFault Draft
  | .literal text =>
    if text.isEmpty then .ok draft
    else .ok { draft with elements := draft.elements ++ [.literal (foldLiteral text)] }
  | .guard body => do
    let (value, seen) ← compileGuard draft.seen body
    return { draft with guard := some value, seen }
  | .term body => do
    let (term, seen) ← compileTerm draft.seen body
    return { draft with elements := draft.elements ++ [.term term], seen }
  | .fault fault => .error fault

/-- Compiles a pattern, or finds its leftmost fault. -/
def Pattern.read (raw : Text) : Except PatternFault Pattern := do
  let draft ← (segments raw).foldlM Draft.add {}
  return ⟨raw, draft.guard, draft.elements, draft.seen.length⟩

def Pattern.compile (raw : Text) : Except Error Pattern :=
  match Pattern.read raw with
  | .ok pattern => .ok pattern
  | .error fault => .error (.pattern none raw fault)

end Concord
