import Concord.Build
import Concord.CommandLine.Arguments
import Concord.CommandLine.Reply
import Concord.Inspect

namespace Concord

/-- How derivations are printed: on one line, or as trees. -/
inductive OutputMode where
  | brief | tree
  deriving DecidableEq, Repr

structure ParseRequest where
  dictionary : Text
  grammar : Text
  start : Text
  mode : OutputMode
  allowPartial : Bool
  separator : Text
  cap : Nat
  deriving DecidableEq, Repr

def parseOptions : List OptionSpec :=
  [{ long := "db-in", short := 'i' }, { long := "grammar", short := 'g' },
    { long := "start", short := 's' }, { long := "output-mode", short := 'O' },
    { long := "allow-partial", takesValue := false }, { long := "separator", short := 'S' },
    { long := "max-derivations", short := 'M' }]

def OutputMode.ofName? (name : Text) : Option OutputMode :=
  if name = "brief".toList then some .brief
  else if name = "tree".toList then some .tree
  else none

/-- The number that digits spell after an optional plus sign, within 64 bits. -/
def numberOfText? (text : Text) : Option Nat :=
  let digits :=
    match text with
    | '+' :: digits => digits
    | digits => digits
  if digits ≠ [] ∧ digits.all Char.isDigit ∧ decimal digits < UInt64.size then
    some (decimal digits)
  else
    none

def ParseRequest.read (texts : List Text) : Option ParseRequest := do
  let arguments ← Arguments.read parseOptions texts
  let dictionary ← arguments.path? "db-in"
  let grammar ← arguments.path? "grammar"
  let start := (arguments.value? "start").getD "sentence".toList
  let mode ← OutputMode.ofName? ((arguments.value? "output-mode").getD "brief".toList)
  let separator := (arguments.value? "separator").getD [' ']
  let cap ← numberOfText? ((arguments.value? "max-derivations").getD ['0'])
  let allowPartial := arguments.has "allow-partial"
  if arguments.words.isEmpty then
    some { dictionary, grammar, start, mode, allowPartial, separator, cap }
  else
    none

/-- A derivation on one line: what it covers, where, and its attributes. -/
def Sentence.briefLine (sentence : Sentence) (tree : Tree) : Text :=
  sentence.surfaceOf tree ++ '\t' :: (rangeText tree.start tree.stop).toList
    ++ '\t' :: tree.features.text.toList

/-- A tree on a line of its own, below the trees that it is a part of. -/
def Sentence.treeLine (sentence : Sentence) (depth : Nat) (tree : Tree) : Text :=
  List.replicate (2 * depth) ' ' ++
    match tree with
    | .leaf leaf => sentence.surfaceOf tree ++ '\t' :: leaf.features.text.toList
    | .phrase name _ _ _ _ => name ++ '\t' :: sentence.briefLine tree

def Sentence.linesOf (sentence : Sentence) (mode : OutputMode) (tree : Tree) : Text :=
  match mode with
  | .brief => outputLine (sentence.briefLine tree)
  | .tree => (tree.preorder 0).flatMap fun (depth, t) => outputLine (sentence.treeLine depth t)

namespace ParseRequest

/-- The derivations of a sentence as lines, and a line that ends them. -/
def answer (request : ParseRequest) (analysis : Analysis) (line : Text) : Text × Analysis :=
  let analysis := analysis.reset line
  let (_, analysis) :=
    if request.allowPartial then analysis.parse request.start 0
    else analysis.parseWhole request.start
  let output := analysis.results.flatMap (analysis.sentence.linesOf request.mode)
  (output ++ outputLine "EOS".toList, analysis)

def loadGrammar (disk : Disk) (path : Text) : Except Error Grammar := do
  let bytes ← (disk.read path).mapError .file
  Grammar.ofBytes bytes

def undefinedNote (name : Text) : String :=
  "warning: `" ++ String.ofList name ++ "` has no rules and matches dictionary words"

def run (request : ParseRequest) (disk : Disk) (input : Bytes) : Reply :=
  match Dictionary.load disk request.dictionary, loadGrammar disk request.grammar with
  | .error error, _ => .failure error
  | _, .error error => .failure error
  | .ok dictionary, .ok grammar =>
    let parser : Parser := { dictionary, grammar }
    let analysis := Analysis.new ((parser.withSeparator request.separator).withCap request.cap)
    { answerLines request.answer analysis (byteLines input) with
      notes := grammar.undefined.map undefinedNote }

end ParseRequest

end Concord
