import Concord.CommandLine.Compile
import Concord.CommandLine.Parse

namespace Concord

inductive Command where
  | compile (request : CompileRequest)
  | parse (request : ParseRequest)
  deriving DecidableEq, Repr

namespace Command

def read : List Text → Option Command
  | [] => none
  | name :: rest =>
    if name = "compile".toList then (CompileRequest.read rest).map .compile
    else if name = "parse".toList then (ParseRequest.read rest).map .parse
    else none

def paths : Command → List Text
  | .compile .version => []
  | .compile (.build lexicon dictionary _) => [lexicon, dictionary]
  | .compile (.lookup dictionary _ _) => [dictionary]
  | .parse request => [request.dictionary, request.grammar]

def readsInput : Command → Bool
  | .compile (.lookup _ _ words) => words.isEmpty
  | .compile _ => false
  | .parse _ => true

def run (disk : Disk) (input : Bytes) : Command → Reply × Disk
  | .compile request => request.run disk input
  | .parse request => (request.run disk input, disk)

def answer (disk : Disk) (input : Bytes) (arguments : List Text) : Reply × Disk :=
  match read arguments with
  | some command => command.run disk input
  | none => (.usage, disk)

end Command

end Concord
