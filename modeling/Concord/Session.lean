import Concord.Analysis
import Concord.Build

namespace Concord

/-- A grammar, the parser while a dictionary is loaded, and the options for the next one. -/
structure Session where
  grammar : Grammar
  parser? : Option Parser
  separator : Text
  cap : Nat

namespace Session

def new (grammar : Grammar) : Session :=
  ⟨grammar, none, [' '], 0⟩

def withSeparator (session : Session) (separator : Text) : Session :=
  { session with separator }

def withCap (session : Session) (cap : Nat) : Session :=
  { session with cap }

def unload (session : Session) : Session :=
  { session with parser? := none }

def hasDictionary (session : Session) : Bool :=
  session.parser?.isSome

/-- Takes over the dictionary that loading has led to, in place of the one before. If loading has
failed, there is none afterwards. -/
def install (session : Session) (loaded : Except Error Dictionary) : Except Error Unit × Session :=
  match loaded with
  | .error error => (.error error, session.unload)
  | .ok dictionary =>
    let parser : Parser := { dictionary, grammar := session.grammar }
    let parser := (parser.withSeparator session.separator).withCap session.cap
    (.ok (), { session with parser? := some parser })

def load (session : Session) (disk : Disk) (path : Text) : Except Error Unit × Session :=
  session.install (Dictionary.load disk path)

def parser (session : Session) : Except Error Parser :=
  match session.parser? with
  | some parser => .ok parser
  | none => .error .noDictionary

/-- An analysis with the derivations of a start symbol at a character position of a text. -/
def parse (session : Session) (text start : Text) (offset : Nat) : Except Error Analysis := do
  let parser ← session.parser
  match ((Analysis.new parser).reset text).parse start offset with
  | (.ok (), analysis) => return analysis
  | (.error error, _) => throw error

end Session

end Concord
