import ScratchFormat.Layout.Walk
import ScratchFormat.Role.Basic
import ScratchFormat.Style

/-! Levels: every line of code is indented by a whole number of levels, and a declaration that
strayed from column zero goes back there. -/

namespace ScratchFormat

structure Levels where
  /-- Inside a block of cases, whose arms keep their level. -/
  inCases : Bool
  /-- A block or an expression is open, so what looks like a declaration is nested. -/
  inBlock : Bool
  /-- The signature at column zero in the line above. -/
  signature : Option (List Char)
  deriving DecidableEq

namespace Levels

def initial : Levels := ⟨false, false, none⟩

/-- Whether an indented line belongs at column zero: it defines what the signature above announced,
or it is a declaration outside all blocks and not an arm of cases. -/
def belongsAtZero (s : Levels) (role : Role) (code : List Char) : Bool :=
  s.signature.any role.defines ||
    (role.isTopLevel && !s.inBlock && !(s.inCases && isArm code))

def level (s : Levels) (role : Role) (code : List Char) (nearest : Nat) : Nat :=
  if 0 < nearest && s.belongsAtZero role code then 0 else nearest

def after (s : Levels) (role : Role) (code : List Char) (level : Nat) : Levels where
  inCases :=
    if opensCases code then true
    else if level = 0 ∧ role.isDefinition then false
    else s.inCases
  inBlock := if level = 0 then opensBlock code else opensBlock code || s.inBlock
  signature :=
    match role with
    | .signature name => if level = 0 then some name else none
    | _ => none

def rule (style : Style) (s : Levels) (l : ScannedLine) : Levels × Output :=
  if !l.startsInCode || l.isCommentOnly then (s, .line l.raw)
  else if l.isBlank then (s, .line [])
  else
    let code := trim l.codeText
    let role := Role.ofCode code
    let (cols, rest) := style.measure l.raw
    let nearest := style.levelOf cols
    let level := s.level role code nearest
    let notes : List Note :=
      if level = nearest then []
      else [⟨.trace, "forcing `" ++ String.ofList code ++ "` to column 0"⟩]
    (s.after role code level, ⟨[style.place (style.colsOf level) rest], notes⟩)

def assign (style : Style) (text : List Char) : Outcome :=
  (walk (rule style) initial (scan text)).outcome

end Levels

end ScratchFormat
