import ScratchFormat.Text.Basic

/-! Notes on what the formatter does, and the threshold that decides which of them are shown. -/

namespace ScratchFormat

inductive Severity
  | error
  | warn
  | info
  | debug
  | trace
  deriving DecidableEq

namespace Severity

def rank : Severity → Nat
  | error => 1
  | warn => 2
  | info => 3
  | debug => 4
  | trace => 5

def name : Severity → String
  | error => "error"
  | warn => "warn"
  | info => "info"
  | debug => "debug"
  | trace => "trace"

def all : List Severity := [error, warn, info, debug, trace]

end Severity

structure Note where
  severity : Severity
  message : String
  deriving DecidableEq

abbrev Threshold := Option Severity

/-- Reads a threshold: the name of a severity in any case, or `1` for `info`. All else shows
nothing. -/
def Threshold.ofText? (raw : Option (List Char)) : Threshold :=
  match raw with
  | none => none
  | some value =>
    let word := (trim value).map toAsciiLower
    if word = ['1'] then some .info else Severity.all.find? (·.name.toList == word)

def Note.isShown (threshold : Threshold) (note : Note) : Bool :=
  threshold.any fun least => note.severity.rank ≤ least.rank

def Note.line (note : Note) : String :=
  "[" ++ note.severity.name ++ "] " ++ note.message ++ "\n"

def journal (threshold : Threshold) (notes : List Note) : String :=
  String.join ((notes.filter (·.isShown threshold)).map Note.line)

end ScratchFormat
