import Concord.CommandLine.Command

namespace Concord

def placesOver (place : Place) : List Text → List Place
  | [] => []
  | step :: steps =>
    let next :=
      if step = ['.'] then place
      else if step = ['.', '.'] then place.dropLast
      else place ++ [step]
    next :: placesOver next steps

/-- The places that a path leads over. -/
def Path.places (home : Place) (path : Path) : List Place :=
  placesOver (if path.isAbsolute then [] else home) path.steps

def pathTo (place : Place) : String :=
  String.ofList (Path.ofPlace place).text

def probe (place : Place) : IO (Option (Place × Node)) := do
  match ← (IO.FS.readBinFile (pathTo place)).toBaseIO with
  | .ok bytes => return some (place, .file bytes.toList)
  | .error (.inappropriateType _ _ _) => return some (place, .directory)
  | .error _ => return none

/-- Takes what paths lead over from the disk. -/
def snapshot (paths : List Text) : IO Disk := do
  let home := fields (· = '/') (← IO.currentDir).toString.toList
  let places := (paths.flatMap fun path => (Path.mk path).places home).eraseDups
  return { nodes := ← places.filterMapM probe, home }

def besides (place : Place) : IO Place := do
  let places := (List.range 64).map fun n => place.dropLast ++ [Disk.unfinishedName n]
  match ← places.findM? fun place => return (← probe place).isNone with
  | some place => return place
  | none => throw (IO.userError FileFault.alreadyExists.name)

/-- Puts the files on the disk that were made; each is written beside its place and then moved. -/
def store (before after : Disk) : IO Unit := do
  for (place, node) in after.nodes do
    if before.at? place ≠ some node then
      if let .file bytes := node then
        let unfinished := pathTo (← besides place)
        IO.FS.writeBinFile unfinished ⟨bytes.toArray⟩
        IO.FS.rename unfinished (pathTo place)

/-- Does what a command is asked for, and gives its exit code. -/
def perform (command : Command) : IO UInt32 := do
  let disk ← snapshot command.paths
  let input ← if command.readsInput then (← IO.getStdin).readBinToEnd else pure .empty
  let (reply, after) := command.run disk input.toList
  store disk after
  IO.print (String.ofList reply.output)
  reply.notes.forM fun note => IO.eprintln note
  if let some error := reply.error? then
    IO.eprintln ("error: " ++ error.message)
  return reply.exit.toUInt32

end Concord

/-- The program takes the name of a command and its arguments. -/
def main (arguments : List String) : IO UInt32 := do
  match Concord.Command.read (arguments.map String.toList) with
  | some command => Concord.perform command
  | none =>
    IO.eprintln "usage: concord (compile (build | lookup) | parse) OPTIONS"
    return Concord.Reply.usage.exit.toUInt32
