import Concord.Text

namespace Concord

/-- An option with its names; the value of an option that takes one follows it. -/
structure OptionSpec where
  long : String
  short : Option Char := none
  takesValue : Bool := true
  deriving DecidableEq, Repr

structure Arguments where
  options : List (String × Text) := []
  words : List Text := []
  deriving DecidableEq, Repr

/-- An argument that begins with a hyphen and goes on is an option. -/
def looksLikeOption : Text → Bool
  | '-' :: _ :: _ => true
  | _ => false

inductive Argument where
  | wordsFollow
  | option (spec : OptionSpec) (value : Option Text)
  | word (text : Text)
  | unknown
  deriving DecidableEq, Repr

/-- The option that an argument with two hyphens names. -/
def longArgument (specs : List OptionSpec) (body : Text) : Argument :=
  let (name, value) :=
    match splitAtFirst '=' body with
    | some (name, value) => (name, some value)
    | none => (body, none)
  match specs.find? fun spec => spec.long.toList = name with
  | some spec => .option spec value
  | none => .unknown

/-- The option that an argument with one hyphen names; its value may be attached to it. -/
def shortArgument (specs : List OptionSpec) (name : Char) (attached : Text) : Argument :=
  match specs.find? fun spec => spec.short = some name with
  | none => .unknown
  | some spec =>
    match attached with
    | [] => .option spec none
    | '=' :: value => .option spec (some value)
    | value => .option spec (some value)

def readArgument (specs : List OptionSpec) : Text → Argument
  | ['-', '-'] => .wordsFollow
  | '-' :: '-' :: body => longArgument specs body
  | '-' :: name :: attached => shortArgument specs name attached
  | text => .word text

namespace Arguments

def addOption (arguments : Arguments) (name : String) (value : Text) : Arguments :=
  { arguments with options := (name, value) :: arguments.options }

def addWord (arguments : Arguments) (word : Text) : Arguments :=
  { arguments with words := word :: arguments.words }

/-- Reads arguments in order. There is no result if an option is unknown, lacks its value, or has
one that it does not take. -/
def readAll (specs : List OptionSpec) : List Text → Option Arguments
  | [] => some {}
  | text :: rest =>
    match readArgument specs text with
    | .wordsFollow => some { words := rest }
    | .unknown => none
    | .word word => (readAll specs rest).map (·.addWord word)
    | .option spec (some value) =>
      if spec.takesValue then (readAll specs rest).map (·.addOption spec.long value) else none
    | .option spec none =>
      if spec.takesValue then
        match rest with
        | [] => none
        | value :: rest =>
          if looksLikeOption value then none
          else (readAll specs rest).map (·.addOption spec.long value)
      else
        (readAll specs rest).map (·.addOption spec.long [])

/-- Reads arguments in which no option is given twice. -/
def read (specs : List OptionSpec) (texts : List Text) : Option Arguments := do
  let arguments ← readAll specs texts
  if (arguments.options.map Prod.fst).Nodup then some arguments else none

def value? (arguments : Arguments) (name : String) : Option Text :=
  arguments.options.lookup name

def has (arguments : Arguments) (name : String) : Bool :=
  (arguments.value? name).isSome

def path? (arguments : Arguments) (name : String) : Option Text :=
  (arguments.value? name).filter (!·.isEmpty)

end Arguments

end Concord
