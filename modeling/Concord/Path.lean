import Concord.Text.Utf8

namespace Concord

/-- Where a file or directory is: the names of the directories that lead to it, and its own. -/
abbrev Place := List Text

/-- A path: steps with slashes between them, taken from the working directory or, after a slash,
from the root. -/
structure Path where
  text : Text
  deriving DecidableEq, Repr

namespace Path

/-- A path has at most this many bytes. -/
def sizeLimit : Nat := 4095

/-- The name of a file or directory has at most this many bytes. -/
def nameLimit : Nat := 255

def isAbsolute (path : Path) : Bool :=
  path.text.head? = some '/'

/-- Whether a path ends in a slash, which says that it names a directory. -/
def endsInSlash (path : Path) : Bool :=
  path.text.getLast? = some '/'

def steps (path : Path) : List Text :=
  fields (· = '/') path.text

def append (path : Path) (rest : Text) : Path :=
  if path.endsInSlash then ⟨path.text ++ rest⟩ else ⟨path.text ++ '/' :: rest⟩

def ofPlace (place : Place) : Path :=
  place.foldl append ⟨['/']⟩

/-- The path from the root that a path stands for when it is taken from a directory. -/
def takenFrom (home : Place) (path : Path) : Path :=
  if path.isAbsolute then path else (ofPlace home).append path.text

/-- Drops slashes, and single dots that a slash stands before, from the end of a path that is
spelled backwards: they lead nowhere. -/
def dropIdle : Text → Text
  | '/' :: rest => dropIdle rest
  | '.' :: '/' :: rest => dropIdle rest
  | text => text

/-- The path to the directory of what a path names; a path without steps names nothing. -/
def parent? (path : Path) : Option Path :=
  match dropIdle path.text.reverse with
  | [] => none
  | named =>
    match dropIdle (named.dropWhile (· ≠ '/')) with
    | [] => some ⟨if path.isAbsolute then ['/'] else []⟩
    | parent => some ⟨parent.reverse⟩

end Path

end Concord
