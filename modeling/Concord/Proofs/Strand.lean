import Concord.Proofs.Derivation
import Concord.Proofs.Outcome

namespace Concord

/-- The elements of an alternative matched so far, with a derivation for each term. -/
structure Strand where
  pos : Nat
  bindings : Bindings
  parts : List Derivation

/-- What the expansions that are called answer; none if there is no answer. -/
abbrev Answers := Key → Option (List Derivation)

namespace Strand

def branch (strand : Strand) : Branch :=
  ⟨strand.pos, strand.bindings, strand.parts.map Derivation.tree⟩

def start (pos : Nat) (pattern : Pattern) : Strand :=
  ⟨pos, .fresh pattern.variableCount, []⟩

def follow (strand : Strand) (part : Derivation) (bindings : Bindings) : Strand :=
  ⟨part.stop, bindings, strand.parts ++ [part]⟩

def literal? (strand : Strand) (sentence : Sentence) (text : Text) : Option Strand :=
  (sentence.endOf? strand.pos text).map fun pos => { strand with pos }

def word? (strand : Strand) (term : Term) (leaf : Leaf) : Option Strand :=
  (term.clauses.foldlM (Clause.unifyWord leaf.features) strand.bindings).map
    (strand.follow (.word leaf))

def phrase? (strand : Strand) (term : Term) (part : Derivation) : Option Strand :=
  (term.clauses.foldlM (Clause.unifyPhrase part.features) strand.bindings).map
    (strand.follow part)

def finish? (strand : Strand) (name : Text) (key : Key) : Option Derivation :=
  strand.bindings.features?.map fun features =>
    .expansion name key strand.pos features strand.parts

def callee (strand : Strand) (symbol : Nat) (term : Term) : Key :=
  ⟨symbol, strand.pos, strand.branch.handedDown term⟩

def advance (parser : Parser) (sentence : Sentence) (answers : Answers) (strand : Strand) :
    Element → Option (List Strand)
  | .literal text => some (strand.literal? sentence text).toList
  | .term term =>
    match term.target with
    | none => some ((parser.leavesAt sentence strand.pos).filterMap (strand.word? term))
    | some symbol => (answers (strand.callee symbol term)).map (·.filterMap (strand.phrase? term))

def advanceEach (parser : Parser) (sentence : Sentence) (answers : Answers) (element : Element) :
    List Strand → Option (List Strand)
  | [] => some []
  | strand :: strands =>
    (strand.advance parser sentence answers element).bind fun next =>
      (advanceEach parser sentence answers element strands).map (next ++ ·)

/-- The continuations of strands by elements, one element after the other. -/
def advanceAll (parser : Parser) (sentence : Sentence) (answers : Answers) :
    List Element → List Strand → Option (List Strand)
  | [], strands => some strands
  | element :: elements, strands =>
    (advanceEach parser sentence answers element strands).bind
      (advanceAll parser sentence answers elements)

end Strand

/-- As many derivations as the cap allows. -/
def Parser.limit (parser : Parser) (ds : List Derivation) : List Derivation :=
  match parser.cap with
  | none => ds
  | some cap => ds.take cap

namespace Key

/-- The derivations of a key by alternatives, one alternative after the other. -/
def tryEach (parser : Parser) (sentence : Sentence) (answers : Answers) (key : Key) :
    List Pattern → Option (List Derivation)
  | [] => some []
  | pattern :: patterns =>
    (Strand.advanceAll parser sentence answers pattern.elements
      [.start key.start pattern]).bind fun strands =>
        (tryEach parser sentence answers key patterns).map
          (strands.filterMap (·.finish? (parser.grammar.nameOf key.symbol) key) ++ ·)

/-- The derivations of a key, given the answers of the expansions that it calls. -/
def expandWith (parser : Parser) (sentence : Sentence) (answers : Answers) (key : Key) :
    Option (List Derivation) :=
  (key.tryEach parser sentence answers
    ((parser.grammar.alternatives key.symbol).filter (·.admits key.inherited))).map parser.limit

/-- The plain recursive search. It gives up, and so has no answer, where expansions call each other
more than `depth` deep; a search that meets no left recursion is answered at some depth. -/
def plain (parser : Parser) (sentence : Sentence) : Nat → Key → Option (List Derivation)
  | 0, _ => none
  | depth + 1, key => key.expandWith parser sentence (plain parser sentence depth)

end Key

namespace Strand

theorem branch_follow (strand : Strand) (part : Derivation) (bindings : Bindings) :
    (strand.follow part bindings).branch = strand.branch.follow bindings part.tree := by
  simp [follow, branch, Branch.follow]

theorem branch_literal? (strand : Strand) (sentence : Sentence) (text : Text) :
    (strand.literal? sentence text).map branch = strand.branch.literal? sentence text := by
  simp only [literal?, Branch.literal?, Option.map_map]
  rfl

theorem branch_word? (strand : Strand) (term : Term) (leaf : Leaf) :
    (strand.word? term leaf).map branch = strand.branch.word? term leaf := by
  simp only [word?, Branch.word?, Option.map_map]
  congr 1
  funext bindings
  exact (strand.branch_follow _ _).trans (by rw [Derivation.tree_word])

theorem branch_phrase? (strand : Strand) (term : Term) (part : Derivation) :
    (strand.phrase? term part).map branch = strand.branch.phrase? term part.tree := by
  simp only [phrase?, Branch.phrase?, Option.map_map, Derivation.features_tree]
  congr 1
  funext bindings
  exact strand.branch_follow _ _

theorem tree_finish? (strand : Strand) (name : Text) (key : Key) :
    (strand.finish? name key).map Derivation.tree = strand.branch.finish? name key.start := by
  simp only [finish?, Branch.finish?, Option.map_map]
  congr 1
  funext features
  exact Derivation.tree_expansion _ _ _ _ _

end Strand

theorem Strand.advanceEach_eq_gather (parser : Parser) (sentence : Sentence) (answers : Answers)
    (element : Element) (strands : List Strand) :
    advanceEach parser sentence answers element strands =
      gather (·.advance parser sentence answers element) strands := by
  induction strands with
  | nil => rfl
  | cons strand strands ih => rw [advanceEach, gather, ih]

theorem Key.tryEach_eq_gather (parser : Parser) (sentence : Sentence) (answers : Answers)
    (key : Key) (patterns : List Pattern) :
    key.tryEach parser sentence answers patterns =
      gather (fun pattern => (Strand.advanceAll parser sentence answers pattern.elements
        [.start key.start pattern]).map (·.filterMap
          (·.finish? (parser.grammar.nameOf key.symbol) key))) patterns := by
  induction patterns with
  | nil => rfl
  | cons pattern patterns ih =>
    rw [tryEach, gather, ih, Option.bind_map]
    rfl

end Concord
