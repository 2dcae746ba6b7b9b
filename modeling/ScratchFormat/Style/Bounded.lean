import ScratchFormat.Style

/-! The measures of a style in words of 64 bits. A sum or product that does not fit gives no result,
nor does an indentation that is too long to be written. -/

namespace ScratchFormat

def wordSize : Nat := 18446744073709551616

def fits? (n : Nat) : Option Nat := if n < wordSize then some n else none

inductive Overflow
  /-- A sum of columns does not fit in a word. -/
  | count
  /-- An indentation is too long to be written. -/
  | length
  deriving DecidableEq

def Overflow.message : Overflow → String
  | count => "attempt to add with overflow"
  | length => "capacity overflow"

def countOverflow? (n : Nat) : Option Overflow := if n < wordSize then none else some .count

namespace Style

def measure? (s : Style) (line : List Char) : Option (Nat × List Char) :=
  (fits? (s.columns line)).map fun cols => (cols, line.dropWhile isIndent)

def levelOf? (s : Style) (cols : Nat) : Option Nat :=
  (fits? (cols + s.unit / 2)).map fun _ => s.levelOf cols

def colsOf? (s : Style) (level : Nat) : Option Nat := fits? (s.colsOf level)

def longestRun (s : Style) (cols : Nat) : Nat :=
  if s.useSpaces then cols else max (cols / s.unit) (cols % s.unit)

/-- The indentation up to a column. Each run of one character is shorter than half a word. -/
def render? (s : Style) (cols : Nat) : Option (List Char) :=
  if s.longestRun cols < wordSize / 2 then some (s.render cols) else none

def place? (s : Style) (cols : Nat) (rest : List Char) : Option (List Char) :=
  (s.render? cols).map (· ++ rest)

def columnOverflow? (s : Style) (cols : Nat) : Option Overflow :=
  countOverflow? cols <|> if s.longestRun cols < wordSize / 2 then none else some .length

end Style

end ScratchFormat
