import ScratchFormat.Text.Basic

/-! The style of indentation: how wide a level is and which characters it is made of. -/

namespace ScratchFormat

structure Style where
  /-- Columns per level. -/
  indentUnit : Nat
  /-- Indent with spaces; otherwise with one tab per level. -/
  useSpaces : Bool
  deriving DecidableEq

namespace Style

def minUnit : Nat := 1

def maxUnit : Nat := 8

def standard : Style := ⟨2, true⟩

def clamped (indentUnit : Nat) (useSpaces : Bool) : Style :=
  ⟨min (max indentUnit minUnit) maxUnit, useSpaces⟩

def unit (s : Style) : Nat := max s.indentUnit minUnit

/-- The width of an indentation character: a tab counts as one level. -/
def width (s : Style) (c : Char) : Nat := if c = '\t' then s.unit else 1

def columns (s : Style) (line : List Char) : Nat :=
  (line.takeWhile isIndent).foldr (fun c n => s.width c + n) 0

def measure (s : Style) (line : List Char) : Nat × List Char :=
  (s.columns line, line.dropWhile isIndent)

/-- The level nearest to a column; a column halfway between two belongs to the deeper one. -/
def levelOf (s : Style) (cols : Nat) : Nat := (cols + s.unit / 2) / s.unit

def colsOf (s : Style) (level : Nat) : Nat := level * s.unit

def render (s : Style) (cols : Nat) : List Char :=
  if s.useSpaces then List.replicate cols ' '
  else List.replicate (cols / s.unit) '\t' ++ List.replicate (cols % s.unit) ' '

def place (s : Style) (cols : Nat) (rest : List Char) : List Char := s.render cols ++ rest

end Style

end ScratchFormat
