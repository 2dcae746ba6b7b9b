import ScratchFormat.Batch
import ScratchFormat.Format.Bounded

/-! Formatting files in words of 64 bits. An overflow stops the one who formats: a worker tells it
as the failure of its file and goes on with the next, but without workers there is no result. -/

namespace ScratchFormat

def formatFileBounded (disk : Disk) (style : Style) (path : Path) : Except Overflow Reply :=
  match disk.read path with
  | .error failure => .ok ⟨.error failure, []⟩
  | .ok source =>
    (formatBounded style source).map fun out => ⟨.ok ⟨path, source, out.text⟩, out.notes⟩

namespace Batch

def overflowReply (path : Path) (overflow : Overflow) : Reply where
  result := .error (.access path (.other ("formatter panicked: " ++ overflow.message)))
  notes :=
    [⟨.warn, "formatter panicked on " ++ String.ofList path ++ ": " ++ overflow.message⟩]

def workerReply (disk : Disk) (style : Style) (path : Path) : Reply :=
  match formatFileBounded disk style path with
  | .ok reply => reply
  | .error overflow => overflowReply path overflow

def formatFilesBounded (disk : Disk) (style : Style) (paths : List Path) :
    Except Overflow (List Reply) :=
  if paths.length < 2 then paths.mapM (formatFileBounded disk style)
  else .ok (gather paths (paths.zipIdx.map fun (path, i) => (i, workerReply disk style path)))

end Batch

end ScratchFormat
