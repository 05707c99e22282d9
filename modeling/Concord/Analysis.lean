import Concord.Search.Run

namespace Concord

/-- A parser with a sentence, what has been found in it so far, and the derivations of the last
parse. -/
structure Analysis where
  parser : Parser
  sentence : Sentence
  memo : Memo
  words : Array (Option (List Leaf))
  results : List Tree

namespace Analysis

/-- The analysis of a sentence before anything is found in it. -/
def ofSentence (parser : Parser) (sentence : Sentence) : Analysis where
  parser
  sentence
  memo := {}
  words := Array.replicate (sentence.length + 1) none
  results := []

def new (parser : Parser) : Analysis :=
  .ofSentence parser (.ofText [])

def reset (analysis : Analysis) (text : Text) : Analysis :=
  .ofSentence analysis.parser (.ofText text)

/-- The derivations of the symbol of a key, and the analysis that remembers them. -/
def treesOf : Analysis → Key → List Tree × Analysis
  | ⟨parser, sentence, memo, words, results⟩, key =>
    match h : memo[key]? with
    | some (.done trees) => (trees, ⟨parser, sentence, memo, words, results⟩)
    | some (.active _) => ([], ⟨parser, sentence, memo, words, results⟩)
    | none =>
      if hrange : key.InRange parser sentence then
        let (trees, search) :=
          Search.treesOf parser sentence memo words key hrange (Search.not_mem_of_getElem? h)
        (trees, ⟨parser, sentence, search.memo, search.words, results⟩)
      else
        ([], ⟨parser, sentence, memo, words, results⟩)

/-- The dictionary words at a position that have all given attribute values, each as a phrase with
the given name. -/
def wordTrees (analysis : Analysis) (name : Text) (pos : Nat) (inherited : Features) :
    List Tree × Analysis :=
  let ⟨parser, sentence, memo, words, results⟩ := analysis
  let (leaves, search) := Search.leavesAt parser sentence ⟨memo, words, []⟩ pos
  let fits (leaf : Leaf) : Bool :=
    inherited.toList.all fun feature => leaf.features.get feature.kind = some feature
  let trees := (leaves.filter fits).map fun leaf =>
    Tree.phrase name leaf.start leaf.stop leaf.features [.leaf leaf]
  (trees, ⟨parser, sentence, search.memo, search.words, results⟩)

/-- Finds all derivations of a start symbol at a character position, given attribute values handed
down to it. A start symbol without rules stands for a dictionary word. Whatever happens, the
derivations of the parse before are forgotten. -/
def parseGiven (analysis : Analysis) (start : Text) (offset : Nat) (inherited : Features) :
    Except Error Unit × Analysis :=
  let analysis := { analysis with results := [] }
  if analysis.sentence.length < offset then
    (.error (.offsetBeyondEnd offset analysis.sentence.length), analysis)
  else
    let (trees, analysis) :=
      match analysis.parser.grammar.indexOf? start with
      | some symbol => analysis.treesOf ⟨symbol, offset, inherited⟩
      | none => analysis.wordTrees start offset inherited
    (.ok (), { analysis with results := trees })

def parse (analysis : Analysis) (start : Text) (offset : Nat) : Except Error Unit × Analysis :=
  analysis.parseGiven start offset .empty

/-- Finds the derivations of a start symbol that cover the sentence, up to a space at either end. -/
def parseWhole (analysis : Analysis) (start : Text) : Except Error Unit × Analysis :=
  let (outcome, analysis) := analysis.parse start (analysis.sentence.afterSpace 0)
  match outcome with
  | .error error => (.error error, analysis)
  | .ok () =>
    let whole := analysis.results.filter fun tree => analysis.sentence.onlySpaceFrom tree.stop
    (.ok (), { analysis with results := whole })

end Analysis

end Concord
