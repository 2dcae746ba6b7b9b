import ScratchFormat.Scan.Mode

/-! Scanning gives every character of a line a mark: the kind of text it belongs to, and whether a
segment begins with it. -/

namespace ScratchFormat

structure Mark where
  char : Char
  kind : Kind
  /-- A segment begins with this character. -/
  fresh : Bool
  deriving DecidableEq

structure Cursor where
  mode : Mode
  /-- How many of the next characters are taken unread. -/
  owed : Nat
  /-- Whether the segment closes with the last of them. -/
  closing : Bool
  /-- Whether the next character begins a segment. -/
  fresh : Bool
  prev : Option Char
  deriving DecidableEq

namespace Cursor

def start (mode : Mode) : Cursor := ⟨mode, 0, false, false, none⟩

def closed (c : Char) : Cursor := ⟨.code, 0, false, true, some c⟩

/-- The mark of `c`, which `rest` follows, and the scanner after it. -/
def advance (s : Cursor) (c : Char) (rest : List Char) : Mark × Cursor :=
  match s.owed with
  | n + 1 =>
    (⟨c, s.mode.kind, false⟩,
      if n = 0 ∧ s.closing then closed c else ⟨s.mode, n, s.closing, false, some c⟩)
  | 0 =>
    match step s.mode s.prev c rest with
    | .stay mode n => (⟨c, s.mode.kind, s.fresh⟩, ⟨mode, n, false, false, some c⟩)
    | .enter mode n => (⟨c, mode.kind, true⟩, ⟨mode, n, false, false, some c⟩)
    | .whole n => (⟨c, .literal, true⟩, ⟨.charQuote, n, true, false, some c⟩)
    | .leave 0 => (⟨c, s.mode.kind, s.fresh⟩, closed c)
    | .leave (n + 1) => (⟨c, s.mode.kind, s.fresh⟩, ⟨s.mode, n + 1, true, false, some c⟩)

def marks (s : Cursor) : List Char → List Mark
  | [] => []
  | c :: cs => (s.advance c cs).1 :: marks (s.advance c cs).2 cs

def final (s : Cursor) : List Char → Mode
  | [] => s.mode
  | c :: cs => final (s.advance c cs).2 cs

end Cursor

end ScratchFormat
