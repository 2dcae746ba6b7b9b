import ScratchFormat.Folder
import ScratchFormat.Format

/-! Formatting files, one or many. Many files are formatted by workers whose replies come in any
order. -/

namespace ScratchFormat

structure FileOutcome where
  path : Path
  source : List Char
  formatted : List Char
  deriving DecidableEq

namespace FileOutcome

def isChanged (o : FileOutcome) : Bool := o.source ≠ o.formatted

def writeBack (o : FileOutcome) (disk : Disk) : Except Failure (Bool × Disk) :=
  if o.isChanged then (disk.write o.path o.formatted).map fun disk => (true, disk)
  else .ok (false, disk)

end FileOutcome

structure Reply where
  result : Except Failure FileOutcome
  notes : List Note

def formatFile (disk : Disk) (style : Style) (path : Path) : Reply :=
  match disk.read path with
  | .error failure => ⟨.error failure, []⟩
  | .ok source =>
    let out := formatNoted style source
    ⟨.ok ⟨path, source, out.text⟩, out.notes⟩

namespace Batch

def missing (path : Path) : Reply :=
  ⟨.error (.access path (.other "formatter worker stopped before finishing")), []⟩

def gather (paths : List Path) (replies : List (Nat × Reply)) : List Reply :=
  let slots := replies.foldl (fun slots (i, reply) => slots.set i (some reply))
    (paths.map fun _ => (none : Option Reply))
  (slots.zip paths).map fun (slot, path) => slot.getD (missing path)

def replies (disk : Disk) (style : Style) (paths : List Path) : List (Nat × Reply) :=
  paths.zipIdx.map fun (path, i) => (i, formatFile disk style path)

def startNotes (workers : Nat) (paths : List Path) : List Note :=
  if paths.length < 2 then []
  else
    [⟨.debug, "formatting " ++ toString paths.length ++ " files on " ++
      toString workers ++ " workers"⟩]

def formatFiles (disk : Disk) (style : Style) (paths : List Path) : List Reply :=
  if paths.length < 2 then paths.map (formatFile disk style)
  else gather paths (replies disk style paths)

end Batch

end ScratchFormat
