import Concord.Dictionary.File
import Concord.Dictionary.Lexicon
import Concord.Disk

namespace Concord

def Dictionary.load (disk : Disk) (path : Text) : Except Error Dictionary :=
  match disk.find path with
  | .error fault => .error (.file fault)
  | .ok .directory => .error (.file .noDevice)
  | .ok (.file bytes) =>
    match disk.unreadable path with
    | some fault => .error (.file fault)
    | none => Dictionary.ofBytes bytes

/-- How a dictionary file is made: the place of the unfinished file, and the changes to the disk, in
order. The file is written beside its place under a name of its own, the header last, and then moved
there. -/
structure BuildPlan where
  unfinished : Place
  steps : List DiskStep

/-- The plan to build a dictionary file from a lexicon file, if the lexicon can be read and the
output can be begun. -/
def BuildPlan.make (disk : Disk) (lexiconPath dictionaryPath : Text) : Except Error BuildPlan := do
  let bytes ← (disk.read lexiconPath).mapError .file
  let dictionary ← Dictionary.ofLexiconBytes bytes
  let header ← dictionary.header
  let path : Path := ⟨dictionaryPath⟩
  match path.parent? with
  | none => throw .outputNamesNoFile
  | some parent =>
    let unfinished ← (disk.freshPlace parent path.steps).mapError .file
    return {
      unfinished
      steps := [
        .create unfinished,
        .write unfinished 0 (List.replicate headerSize 0 ++ dictionary.payload),
        .write unfinished 0 header.encode,
        .sync unfinished,
        .move unfinished dictionaryPath] }

def DiskStep.error (step : DiskStep) (fault : FileFault) : Error :=
  match step with
  | .move _ _ => .placing fault
  | _ => .file fault

/-- Makes changes one after the other, up to the first one that is refused. -/
def Disk.performAll (disk : Disk) : List DiskStep → Except Error Unit × Disk
  | [] => (.ok (), disk)
  | step :: steps =>
    match disk.perform step with
    | .ok disk => disk.performAll steps
    | .error fault => (.error (step.error fault), disk)

def Disk.buildDictionary (disk : Disk) (lexiconPath dictionaryPath : Text) :
    Except Error Unit × Disk :=
  match BuildPlan.make disk lexiconPath dictionaryPath with
  | .error error => (.error error, disk)
  | .ok plan =>
    match disk.performAll plan.steps with
    | (.ok (), disk) => (.ok (), disk)
    | (.error error, disk) => (.error error, disk.remove plan.unfinished)

end Concord
