import Concord.Build
import Concord.CommandLine.Arguments
import Concord.CommandLine.Reply

namespace Concord

inductive CompileRequest where
  | version
  | build (lexicon dictionary : Text) (verify : Bool)
  | lookup (dictionary separator : Text) (words : List Text)
  deriving DecidableEq, Repr

def buildOptions : List OptionSpec :=
  [{ long := "lexicon-in", short := 'l' }, { long := "db-out", short := 'o' },
    { long := "verify", takesValue := false }]

def lookupOptions : List OptionSpec :=
  [{ long := "db-in", short := 'i' }, { long := "separator", short := 'S' }]

namespace CompileRequest

def readBuild (texts : List Text) : Option CompileRequest := do
  let arguments ← Arguments.read buildOptions texts
  let lexicon ← arguments.path? "lexicon-in"
  let dictionary ← arguments.path? "db-out"
  if arguments.words.isEmpty then
    some (.build lexicon dictionary (arguments.has "verify"))
  else
    none

def readLookup (texts : List Text) : Option CompileRequest := do
  let arguments ← Arguments.read lookupOptions texts
  let dictionary ← arguments.path? "db-in"
  let separator := (arguments.value? "separator").getD [' ']
  some (.lookup dictionary separator arguments.words)

def read : List Text → Option CompileRequest
  | [] => none
  | text :: rest =>
    if text = "--version".toList ∨ text.take 2 = "-V".toList then some .version
    else if text = "build".toList then readBuild rest
    else if text = "lookup".toList then readLookup rest
    else none

end CompileRequest

def readingLines (dictionary : Dictionary) (separator word : Text) : Text :=
  let entries := dictionary.lookup (normalize (trim word)) separator
  entries.flatMap (fun e => outputLine (e.word ++ '\t' :: e.features.text.toList)) ++ outputLine []

namespace CompileRequest

def runBuild (disk : Disk) (lexicon dictionary : Text) (verify : Bool) : Reply × Disk :=
  match disk.buildDictionary lexicon dictionary with
  | (.error error, disk) => (.failure error, disk)
  | (.ok (), disk) =>
    if verify then
      match Dictionary.load disk dictionary with
      | .error error => (.failure error, disk)
      | .ok d => ({ notes := [s!"{d.size} readings of {d.wordCount} words"] }, disk)
    else
      ({}, disk)

def runLookup (disk : Disk) (dictionary separator : Text) (words : List Text) (input : Bytes) :
    Reply :=
  match Dictionary.load disk dictionary with
  | .error error => .failure error
  | .ok d =>
    let lines := if words.isEmpty then byteLines input else words.map .ok
    answerLines (fun () word => (readingLines d separator word, ())) () lines

def run (disk : Disk) (input : Bytes) : CompileRequest → Reply × Disk
  | .version => ({ output := outputLine "compile 0.1.0".toList }, disk)
  | .build lexicon dictionary verify => runBuild disk lexicon dictionary verify
  | .lookup dictionary separator words => (runLookup disk dictionary separator words input, disk)

end CompileRequest

end Concord
