import ScratchFormat.Journal
import ScratchFormat.Scan.Line

/-! A layout rule walks over the scanned lines of a text, keeps a state, and puts out lines. -/

namespace ScratchFormat

structure Output where
  lines : List (List Char)
  notes : List Note
  deriving DecidableEq

namespace Output

def nothing : Output := ⟨[], []⟩

def line (l : List Char) : Output := ⟨[l], []⟩

def append (a b : Output) : Output := ⟨a.lines ++ b.lines, a.notes ++ b.notes⟩

def withNotes (o : Output) (notes : List Note) : Output := ⟨o.lines, notes ++ o.notes⟩

end Output

structure Outcome where
  text : List Char
  notes : List Note
  deriving DecidableEq

def Output.outcome (o : Output) : Outcome := ⟨unlines o.lines, o.notes⟩

def walk {σ : Type} (rule : σ → ScannedLine → σ × Output) (s : σ) : List ScannedLine → Output
  | [] => .nothing
  | l :: ls => (rule s l).2.append (walk rule (rule s l).1 ls)

end ScratchFormat
