import ScratchFormat.Diff.Unified
import ScratchFormat.Batch
import ScratchFormat.Setting

/-! What a command works on: files, the environment, an input and two outputs. -/

namespace ScratchFormat

structure Machine where
  disk : Disk
  environment : Environment
  input : List UInt8
  /-- Whether messages go to a terminal. -/
  terminal : Bool
  out : List Char
  err : List Char

namespace Machine

def print (m : Machine) (text : List Char) : Machine := { m with out := m.out ++ text }

def tell (m : Machine) (message : String) : Machine :=
  { m with err := m.err ++ message.toList ++ ['\n'] }

def threshold (m : Machine) : Threshold :=
  Threshold.ofText? (m.environment.lookup "UNIFMT_LOG".toList)

def note (m : Machine) (notes : List Note) : Machine :=
  { m with err := m.err ++ (journal m.threshold notes).toList }

def noteBatch (m : Machine) (workers : Nat) (paths : List Path) (replies : List Reply) : Machine :=
  (m.note (Batch.startNotes workers paths)).note (replies.flatMap Reply.notes)

end Machine

def FileOutcome.diff (o : FileOutcome) : List Char := Diff.unified o.path o.source o.formatted

def FileOutcome.writtenNote (o : FileOutcome) : Note :=
  ⟨.info, "formatted " ++ String.ofList o.path⟩

end ScratchFormat
