import Concord.Error
import Concord.Path

namespace Concord

inductive Node where
  | file (bytes : Bytes)
  | directory
  deriving DecidableEq, Repr

/-- A change that is made to a disk when a file is written. -/
inductive DiskStep where
  /-- Makes an empty file at a place where there was nothing. -/
  | create (place : Place)
  /-- Writes bytes over those of a file, from a position on. -/
  | write (place : Place) (position : Nat) (bytes : Bytes)
  /-- Waits until what was written to a file is stored. -/
  | sync (place : Place)
  /-- Moves a file to another place, where it replaces a file. -/
  | move (source : Place) (target : Text)
  deriving DecidableEq, Repr

/-- A name for an unfinished file: hidden, and ten characters long. -/
def Disk.unfinishedName (n : Nat) : Text :=
  let digits := Nat.toDigits 10 n
  ".tmp".toList ++ List.replicate (6 - digits.length) '0' ++ digits

/-- A disk with a working directory. It may refuse steps, and to read a file by some path, for
reasons of its own. The names for unfinished files are tried in their order. -/
structure Disk where
  nodes : List (Place × Node) := []
  home : Place := []
  refuses : DiskStep → Option FileFault := fun _ => none
  unreadable : Text → Option FileFault := fun _ => none
  unfinishedNames : Nat → Text := Disk.unfinishedName

/-- Refuses a path that can name nothing: with the character zero in it, or too long. -/
def Path.check (path : Path) : Except FileFault Unit :=
  if path.text.contains '\x00' then .error .invalidInput
  else if Path.sizeLimit < utf8Length path.text then .error .nameTooLong
  else .ok ()

namespace Disk

def at? (disk : Disk) : Place → Option Node
  | [] => some .directory
  | place => disk.nodes.lookup place

def put (disk : Disk) (place : Place) (node : Node) : Disk :=
  { disk with nodes := (place, node) :: disk.nodes.filter (·.1 ≠ place) }

def remove (disk : Disk) (place : Place) : Disk :=
  { disk with nodes := disk.nodes.filter (·.1 ≠ place) }

def below (disk : Disk) (directory : Place) (name : Text) : Except FileFault (Option Node) :=
  if Path.nameLimit < utf8Length name then .error .nameTooLong
  else .ok (disk.at? (directory ++ [name]))

/-- Where one step leads from a directory. -/
def follow (disk : Disk) (directory : Place) (step : Text) : Except FileFault Place :=
  if step = ['.'] then
    .ok directory
  else if step = ['.', '.'] then
    .ok directory.dropLast
  else do
    match ← disk.below directory step with
    | none => .error .notFound
    | some (.file _) => .error .notDirectory
    | some .directory => .ok (directory ++ [step])

def walk (disk : Disk) (path : Path) (steps : List Text) : Except FileFault Place :=
  steps.foldlM disk.follow (if path.isAbsolute then [] else disk.home)

def find (disk : Disk) (text : Text) : Except FileFault Node := do
  let path : Path := ⟨text⟩
  path.check
  if text.isEmpty then
    throw .notFound
  let directory ← disk.walk path path.steps.dropLast
  match path.steps.getLast? with
  | none => return .directory
  | some step =>
    if step = ['.'] ∨ step = ['.', '.'] then
      return .directory
    match ← disk.below directory step with
    | none => throw .notFound
    | some .directory => return .directory
    | some (.file bytes) => if path.endsInSlash then throw .notDirectory else return .file bytes

def read (disk : Disk) (text : Text) : Except FileFault Bytes := do
  match ← disk.find text, disk.unreadable text with
  | .directory, _ => throw .isDirectory
  | .file _, some fault => throw fault
  | .file bytes, none => return bytes

def target (disk : Disk) (text : Text) : Except FileFault Place := do
  let path : Path := ⟨text⟩
  path.check
  let directory ← disk.walk path path.steps.dropLast
  match path.steps.getLast? with
  | none => throw .busy
  | some step =>
    if step = ['.'] ∨ step = ['.', '.'] then
      throw .busy
    let node ← disk.below directory step
    if path.endsInSlash then
      throw .notDirectory
    match node with
    | some .directory => throw .isDirectory
    | _ => return directory ++ [step]

/-- A place for an unfinished file in the directory that a path names. Nothing is there yet, and the
name is none of those that are in use otherwise; more names are tried than are in use. -/
def freshPlace (disk : Disk) (path : Path) (inUse : List Text) : Except FileFault Place := do
  ((path.takenFrom disk.home).append (disk.unfinishedNames 0)).check
  let directory ← disk.walk path path.steps
  let numbers := List.range (disk.nodes.length + inUse.length + 1)
  let isFree (name : Text) : Bool :=
    (disk.at? (directory ++ [name])).isNone && !inUse.contains name
  match (numbers.map disk.unfinishedNames).find? isFree with
  | some name => return directory ++ [name]
  | none => throw .alreadyExists

/-- Bytes with others written over them from a position on. -/
def overwrite (bytes : Bytes) (position : Nat) (patch : Bytes) : Bytes :=
  bytes.take position ++ patch ++ bytes.drop (position + patch.length)

def perform (disk : Disk) (step : DiskStep) : Except FileFault Disk :=
  match disk.refuses step with
  | some fault => .error fault
  | none =>
    match step with
    | .create place => .ok (disk.put place (.file []))
    | .write place position bytes =>
      match disk.at? place with
      | some (.file old) => .ok (disk.put place (.file (overwrite old position bytes)))
      | some .directory => .error .isDirectory
      | none => .error .notFound
    | .sync _ => .ok disk
    | .move source text => do
      let place ← disk.target text
      match disk.at? source with
      | some (.file bytes) => return (disk.remove source).put place (.file bytes)
      | some .directory => throw .isDirectory
      | none => throw .notFound

end Disk

end Concord
