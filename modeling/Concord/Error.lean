import Concord.Features
import Concord.Text.Quoted
import Concord.Text.Utf8

namespace Concord

def magicNumber : Nat := 0xFC1290C8

inductive FilePart where
  | header | text | entries
  deriving DecidableEq, Repr

def FilePart.name : FilePart → String
  | .header => "header"
  | .text => "text"
  | .entries => "entries"

/-- Why the contents of a dictionary file are refused. -/
inductive DatabaseFault where
  /-- The entry table is not a whole number of entries. -/
  | unevenEntries (bytes : Nat)
  | unterminatedText
  /-- An entry does not point at the start of a word. -/
  | offsetOffWord (offset : Nat)
  | codeOutOfRange (kind : Attribute) (code : Nat)
  | unsortedEntries
  deriving DecidableEq, Repr

/-- Why a line of a grammar is no rule. -/
inductive RuleFault where
  | noArrow | noName
  deriving DecidableEq, Repr

/-- Why a pattern is refused. -/
inductive PatternFault where
  | guardWithoutTerm
  | unopened
  | nested
  | unclosed
  | guardNotOneClause
  /-- The clause of a guard gives a value and is not exported. -/
  | guardNotValue (token : Text)
  | emptyTerm
  | badSymbol (token : Text)
  | unknownAttribute (name : Text)
  | badValue (kind : Attribute) (value : Text)
  | badVariable (digits : Text)
  deriving DecidableEq, Repr

inductive FileFault where
  | notFound | isDirectory | notDirectory | alreadyExists | nameTooLong | invalidInput | invalidData
  | busy | noDevice
  deriving DecidableEq, Repr

def FileFault.name : FileFault → String
  | .notFound => "NotFound"
  | .isDirectory => "IsADirectory"
  | .notDirectory => "NotADirectory"
  | .alreadyExists => "AlreadyExists"
  | .nameTooLong => "InvalidFilename"
  | .invalidInput => "InvalidInput"
  | .invalidData => "InvalidData"
  | .busy => "ResourceBusy"
  | .noDevice => "Uncategorized"

/-- Everything that can go wrong. -/
inductive Error where
  | offsetBeyondEnd (offset length : Nat)
  | outputNamesNoFile
  /-- The line of a grammar with this number, counted from one, is no rule. -/
  | rule (line : Nat) (fault : RuleFault)
  | database (fault : DatabaseFault)
  | noDictionary
  /-- A pattern is refused, maybe as an alternative of a symbol. -/
  | pattern (symbol : Option Text) (raw : Text) (fault : PatternFault)
  | badMagic (found : Nat)
  | truncated (part : FilePart) (declared available : Nat)
  | tooLarge
  | notUtf8 (fault : Utf8Fault)
  | file (fault : FileFault)
  /-- A finished file could not be moved to its place. -/
  | placing (fault : FileFault)
  deriving DecidableEq, Repr

/-- Eight hexadecimal digits after `0x`. -/
def hex32 (n : Nat) : String :=
  let digits := Nat.toDigits 16 n
  "0x" ++ String.ofList (List.replicate (8 - digits.length) '0' ++ digits)

def DatabaseFault.message : DatabaseFault → String
  | .unevenEntries bytes => s!"entryBytes {bytes} is not a multiple of 8"
  | .unterminatedText => "the text blob is not terminated by NUL"
  | .offsetOffWord offset => s!"textOffset {offset} does not point at a word"
  | .codeOutOfRange kind code => s!"{kind.name} index {code} is out of range"
  | .unsortedEntries => "entries are not sorted by text"

def RuleFault.message : RuleFault → String
  | .noArrow => "expected `name -> pattern`"
  | .noName => "the rule has no name"

def PatternFault.message : PatternFault → String
  | .guardWithoutTerm => "'@' must be followed by a guard term"
  | .unopened => "unbalanced '\x7d'"
  | .nested => "nested '\x7b'"
  | .unclosed => "unbalanced '\x7b'"
  | .guardNotOneClause => "a guard must contain exactly one clause"
  | .guardNotValue token => "guard clause " ++ quoted token ++ " must have the form name=value"
  | .emptyTerm => "empty term"
  | .badSymbol token => "invalid symbol name " ++ quoted token
  | .unknownAttribute name => "unknown attribute " ++ quoted name
  | .badValue kind value => quoted value ++ " is not a valid value of " ++ kind.name
  | .badVariable digits =>
    "variable @" ++ String.ofList digits ++ " must be a positive integer"

def Utf8Fault.message : Utf8Fault → String
  | .invalid index length => s!"invalid utf-8 sequence of {length} bytes from index {index}"
  | .incomplete index => s!"incomplete utf-8 byte sequence from index {index}"

def Error.message : Error → String
  | .offsetBeyondEnd offset length =>
    s!"InvalidArgumentError: offset: {offset} is beyond the end of the sentence ({length} chars)"
  | .outputNamesNoFile => "InvalidArgumentError: db_path: the output path must name a file"
  | .rule line fault => s!"InvalidFormatError: grammar: line {line}: " ++ fault.message
  | .database fault => "InvalidFormatError: db: " ++ fault.message
  | .noDictionary =>
    "InvalidStateError: no dictionary is loaded: call init() before parsing"
  | .pattern none raw fault =>
    "InvalidPatternError: " ++ quoted raw ++ ": " ++ fault.message
  | .pattern (some symbol) raw fault =>
    "InvalidPatternError: " ++ String.ofList symbol ++ ": " ++ quoted raw ++ ": " ++ fault.message
  | .badMagic found =>
    "BadMagic: expected " ++ hex32 magicNumber ++ ", found " ++ hex32 found
  | .truncated part declared available =>
    s!"Truncated: {part.name} declares {declared} bytes, but only {available} are available"
  | .tooLarge => "out of range integral type conversion attempted"
  | .notUtf8 fault => fault.message
  | .file fault => fault.name
  | .placing fault => fault.name

end Concord
