import ScratchFormat.Layout.Walk
import ScratchFormat.Role.Basic
import ScratchFormat.Style

/-! Scopes: bindings of one scope stand in one column. A binding that drifted to the right is moved
back to its neighbours. -/

namespace ScratchFormat

abbrev ScopeColumns := List (Nat × Nat)

namespace ScopeColumns

def get? (m : ScopeColumns) (level : Nat) : Option Nat := m.lookup level

def record (m : ScopeColumns) (level cols : Nat) : ScopeColumns :=
  (level, cols) :: m.filter (·.1 != level)

end ScopeColumns

structure Scopes where
  columns : ScopeColumns
  /-- The column of the binding above in the same block. -/
  neighbour : Option Nat
  deriving DecidableEq

namespace Scopes

def initial : Scopes := ⟨[], none⟩

def target (s : Scopes) (style : Style) (cols : Nat) : Nat :=
  match s.columns.get? (style.levelOf cols) with
  | some established => established
  | none =>
    match s.neighbour with
    | some column => if column < cols then column else cols
    | none => cols

/-- The column of a line of code that stands at `cols`: only a binding that is indented is moved. -/
def column (s : Scopes) (style : Style) (binding : Bool) (cols : Nat) : Nat :=
  if binding && cols ≠ 0 then s.target style cols else cols

def after (s : Scopes) (style : Style) (binding opener : Bool) (cols column : Nat) : Scopes where
  columns :=
    if opener || (binding && cols = 0) then []
    else if binding then s.columns.record (style.levelOf cols) column
    else s.columns
  neighbour :=
    if opener || column = 0 then none else if binding then some column else s.neighbour

def rule (style : Style) (s : Scopes) (l : ScannedLine) : Scopes × Output :=
  if !l.isCodeLine then (s, .line l.raw)
  else
    let code := trim l.codeText
    let (cols, rest) := style.measure l.raw
    let binding := (bindingHead? code).isSome
    let column := s.column style binding cols
    let notes : List Note :=
      if column = cols then []
      else
        [⟨.trace, "snapping `" ++ String.ofList code ++ "` from column " ++
          toString cols ++ " to " ++ toString column⟩]
    (s.after style binding (opensBlock code) cols column,
      ⟨[if column = cols then l.raw else style.place column rest], notes⟩)

def align (style : Style) (text : List Char) : Outcome :=
  (walk (rule style) initial (scan text)).outcome

end Scopes

end ScratchFormat
