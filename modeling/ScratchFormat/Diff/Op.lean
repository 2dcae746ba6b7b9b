import ScratchFormat.Text.Basic

/-! Edit scripts between two lists of lines. -/

namespace ScratchFormat

/-- The lines of a text for comparison, each with its ending: a line feed, a carriage return, or
both. The last line may lack one. -/
def endedLines : List Char → List (List Char)
  | [] => []
  | '\r' :: '\n' :: cs => ['\r', '\n'] :: endedLines cs
  | c :: cs =>
    if c = '\n' ∨ c = '\r' then [c] :: endedLines cs
    else
      match endedLines cs with
      | [] => [[c]]
      | l :: ls => (c :: l) :: ls

def commonLength {α : Type} [DecidableEq α] : List α → List α → Nat
  | a :: as, b :: bs => if a = b then commonLength as bs + 1 else 0
  | _, _ => 0

/-- A step of an edit script. Positions count lines of the old and of the new text. -/
inductive DiffOp
  | equal (old new len : Nat)
  | delete (old len new : Nat)
  | insert (old new len : Nat)
  | replace (old oldLen new newLen : Nat)
  deriving DecidableEq

namespace DiffOp

def oldStart : DiffOp → Nat
  | equal old _ _ | delete old _ _ | insert old _ _ | replace old _ _ _ => old

def newStart : DiffOp → Nat
  | equal _ new _ | delete _ _ new | insert _ new _ | replace _ _ new _ => new

def oldLen : DiffOp → Nat
  | equal _ _ len | delete _ len _ | replace _ len _ _ => len
  | insert _ _ _ => 0

def newLen : DiffOp → Nat
  | equal _ _ len | insert _ _ len | replace _ _ _ len => len
  | delete _ _ _ => 0

def oldStop (op : DiffOp) : Nat := op.oldStart + op.oldLen

def newStop (op : DiffOp) : Nat := op.newStart + op.newLen

def isEqual : DiffOp → Bool
  | equal _ _ _ => true
  | _ => false

def oldPart {α : Type} (op : DiffOp) (old : List α) : List α :=
  (old.drop op.oldStart).take op.oldLen

def newPart {α : Type} (op : DiffOp) (new : List α) : List α :=
  (new.drop op.newStart).take op.newLen

end DiffOp

end ScratchFormat
