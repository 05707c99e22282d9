import Concord.Search.Branch
import Std.Data.HashMap

namespace Concord

/-- What an expansion depends on: the symbol, where it begins, and the attribute values handed down
to it. -/
structure Key where
  symbol : Nat
  start : Nat
  inherited : Features
  deriving DecidableEq, Repr, Hashable

/-- The key names a symbol of the grammar and a position of the sentence, its end included. -/
def Key.InRange (parser : Parser) (sentence : Sentence) (key : Key) : Prop :=
  key.symbol < parser.grammar.size ∧ key.start ≤ sentence.length

instance (parser : Parser) (sentence : Sentence) (key : Key) :
    Decidable (key.InRange parser sentence) :=
  inferInstanceAs (Decidable (_ ∧ _))

/-- The state of an expansion: going on, at a depth of the stack, or done. -/
inductive Progress where
  | active (depth : Nat)
  | done (trees : List Tree)

abbrev Memo := Std.HashMap Key Progress

/-- An expansion that is going on. The first of the alternatives is being matched, the first of the
elements is the next one to match, and each of the pending branches is still to be continued by it.
The advanced branches have been continued, the last one first. `low` is the least depth of an
expansion that cut this one short. -/
structure Expansion where
  key : Key
  depth : Nat
  alternatives : List Pattern
  elements : List Element
  pending : List Branch
  advanced : List Branch
  results : List Tree
  low : Nat

namespace Expansion

/-- Turns to the first of some alternatives whose guard is met. -/
def toAlternative (e : Expansion) (alternatives : List Pattern) : Expansion :=
  match alternatives.dropWhile (!·.admits e.key.inherited) with
  | [] => { e with alternatives := [], elements := [], pending := [], advanced := [] }
  | pattern :: rest =>
    { e with
      alternatives := pattern :: rest
      elements := pattern.elements
      pending := [.start e.key.start pattern]
      advanced := [] }

def start (grammar : Grammar) (key : Key) (depth : Nat) : Expansion :=
  toAlternative ⟨key, depth, [], [], [], [], [], depth⟩ (grammar.alternatives key.symbol)

/-- Turns to the next element with the branches that were continued. -/
def toElement (e : Expansion) (elements : List Element) : Expansion :=
  { e with elements, pending := e.advanced.reverse, advanced := [] }

/-- Puts the continuations of a branch in place of it. -/
def continued (e : Expansion) (pending next : List Branch) : Expansion :=
  { e with pending, advanced := next.reverse ++ e.advanced }

/-- Ends the alternative: its branches become phrases. The expansion has no further alternatives
once there are as many phrases as the cap allows. -/
def finishAlternative (e : Expansion) (cap : Option Nat) (name : Text)
    (alternatives : List Pattern) : Expansion :=
  let results := e.results ++ e.pending.filterMap (·.finish? name e.key.start)
  match cap with
  | none => { e with results }.toAlternative alternatives
  | some cap =>
    if cap ≤ results.length then
      { e with results := results.take cap }.toAlternative []
    else
      { e with results }.toAlternative alternatives

/-- The branch that waits for another expansion is continued by the phrases found there. -/
def receive (e : Expansion) (trees : List Tree) (low : Nat) : Expansion :=
  let e := { e with low := min e.low low }
  match e.elements, e.pending with
  | .term term :: _, branch :: pending =>
    e.continued pending (trees.filterMap (branch.phrase? term))
  | _, _ => e

end Expansion

/-- A search on one sentence: the memo, the dictionary words found at positions so far, and the
expansions going on, the innermost first. -/
structure Search where
  memo : Memo
  words : Array (Option (List Leaf))
  stack : List Expansion

/-- What a step leads to: another step, or the derivations searched for. -/
inductive Outcome where
  | running (search : Search)
  | finished (trees : List Tree) (search : Search)

/-- The memo once an expansion has ended. Its result is kept unless an expansion further out cut it
short. -/
def Memo.settle (memo : Memo) (e : Expansion) : Memo :=
  if e.low < e.depth then memo.erase e.key else memo.insert e.key (.done e.results)

namespace Search

def depth (search : Search) : Nat :=
  match search.stack with
  | [] => 0
  | top :: _ => top.depth + 1

def enter (grammar : Grammar) (search : Search) (key : Key) : Search :=
  let depth := search.depth
  { search with
    memo := search.memo.insert key (.active depth)
    stack := .start grammar key depth :: search.stack }

/-- The dictionary words at a position, and the search that remembers them. -/
def leavesAt (parser : Parser) (sentence : Sentence) (search : Search) (pos : Nat) :
    List Leaf × Search :=
  match search.words[pos]? with
  | some (some leaves) => (leaves, search)
  | _ =>
    let leaves := parser.leavesAt sentence pos
    (leaves, { search with words := search.words.setIfInBounds pos (some leaves) })

/-- Ends the innermost expansion; the one that waits for it goes on. -/
def leave (search : Search) (top : Expansion) (rest : List Expansion) : Outcome :=
  match rest with
  | [] => .finished top.results { search with memo := search.memo.settle top, stack := [] }
  | waiting :: rest =>
    .running
      { search with
        memo := search.memo.settle top
        stack := waiting.receive top.results top.low :: rest }

/-- Continues a branch of the innermost expansion by a term. An expansion that would begin while the
same one is going on yields nothing. -/
def matchTerm (parser : Parser) (sentence : Sentence) (search : Search) (top : Expansion)
    (rest : List Expansion) (branch : Branch) (pending : List Branch) (term : Term) : Search :=
  match term.target with
  | none =>
    let (leaves, search) := search.leavesAt parser sentence branch.pos
    { search with stack := top.continued pending (leaves.filterMap (branch.word? term)) :: rest }
  | some symbol =>
    let key : Key := ⟨symbol, branch.pos, branch.handedDown term⟩
    match search.memo[key]? with
    | some (.done trees) =>
      { search with
        stack := top.continued pending (trees.filterMap (branch.phrase? term)) :: rest }
    | some (.active depth) =>
      { search with stack := { top with pending, low := min top.low depth } :: rest }
    | none =>
      if key.InRange parser sentence then search.enter parser.grammar key
      else { search with stack := { top with pending } :: rest }

def step (parser : Parser) (sentence : Sentence) (search : Search) : Outcome :=
  match search.stack with
  | [] => .finished [] search
  | top :: rest =>
    match top.alternatives, top.elements, top.pending with
    | [], _, _ => search.leave top rest
    | _ :: alternatives, [], _ =>
      let name := parser.grammar.nameOf top.key.symbol
      let top := top.finishAlternative parser.cap name alternatives
      .running { search with stack := top :: rest }
    | _ :: alternatives, _ :: elements, [] =>
      let top :=
        if top.advanced.isEmpty then top.toAlternative alternatives else top.toElement elements
      .running { search with stack := top :: rest }
    | _, .literal text :: _, branch :: pending =>
      let next := (branch.literal? sentence text).toList
      .running { search with stack := top.continued pending next :: rest }
    | _, .term term :: _, branch :: pending =>
      .running (search.matchTerm parser sentence top rest branch pending term)

end Search

end Concord
