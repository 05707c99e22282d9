import Concord.Error

namespace Concord

/-- The exit code of a command, what it prints, what it notes for its user, and the error that ended
its work. -/
structure Reply where
  exit : Nat := 0
  output : Text := []
  notes : List String := []
  error? : Option Error := none
  deriving DecidableEq, Repr

/-- The answer to arguments that make no sense. -/
def Reply.usage : Reply := { exit := 2 }

def Reply.failure (error : Error) : Reply := { exit := 1, error? := some error }

def outputLine (line : Text) : Text :=
  line ++ ['\n']

/-- Answers the lines of an input one by one. A line that is not UTF-8 ends the work with a failure;
what was answered before stands. -/
def answerLines (answer : σ → Text → Text × σ) (state : σ) :
    List (Except Utf8Fault Text) → Reply
  | [] => {}
  | .error _ :: _ => .failure (.file .invalidData)
  | .ok line :: rest =>
    let (output, state) := answer state line
    let reply := answerLines answer state rest
    { reply with output := output ++ reply.output }

end Concord
