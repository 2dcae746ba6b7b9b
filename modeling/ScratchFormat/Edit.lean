import ScratchFormat.Diff.Script
import ScratchFormat.Format.Bounded
import ScratchFormat.Text.Slice

/-! Edits that turn a text into its formatted form, and where they move a cursor. Offsets count
bytes and fit in words of 64 bits. -/

namespace ScratchFormat

/-- Replaces the bytes from `start` up to `stop`. -/
structure Edit where
  start : Nat
  stop : Nat
  newText : List Char
  deriving DecidableEq

namespace Edit

/-- The byte offsets at which lines start, of a text that begins at `offset`. Only a line feed ends
a line here. -/
def lineStarts (offset : Nat) : List Char → List Nat
  | [] => []
  | c :: cs =>
    if c = '\n' then (offset + 1) :: lineStarts (offset + 1) cs
    else lineStarts (offset + c.utf8Size) cs

/-- The offset of a line; a line past the last starts where the text ends. -/
def lineOffset (text : List Char) (line : Nat) : Nat :=
  (0 :: lineStarts 0 text)[line]?.getD (byteLength text)

def ofStep (source : List Char) (old new : List (List Char)) (op : DiffOp) : Edit :=
  let start := lineOffset source op.oldStart
  ⟨start, start + byteLength (op.oldPart old).flatten, (op.newPart new).flatten⟩

def joinFrom (held : Edit) : List Edit → List Edit
  | [] => [held]
  | e :: es =>
    if held.stop = e.start then joinFrom ⟨held.start, e.stop, held.newText ++ e.newText⟩ es
    else held :: joinFrom e es

def joinTouching : List Edit → List Edit
  | [] => []
  | e :: es => joinFrom e es

def ofScript (source formatted : List Char) (ops : List DiffOp) : List Edit :=
  joinTouching <| (ops.filter (!·.isEqual)).map
    (ofStep source (endedLines source) (endedLines formatted))

def betweenBy (diff : List (List Char) → List (List Char) → List DiffOp)
    (source formatted : List Char) : List Edit :=
  if source = formatted then []
  else ofScript source formatted (diff (endedLines source) (endedLines formatted))

def between (source formatted : List Char) : List Edit := betweenBy Diff.script source formatted

def patchFrom? (source : List Char) (start : Nat) : List Edit → Option (List Char)
  | [] => dropBytes? start source
  | e :: es => do
    let kept ← slice? source start e.start
    let later ← patchFrom? source e.stop es
    return kept ++ e.newText ++ later

/-- Applies edits. There is no result when they overlap, are out of order or out of range, or cut a
character. -/
def patch? (source : List Char) (edits : List Edit) : Option (List Char) :=
  patchFrom? source 0 edits

def signed (n : Nat) : Int := Int.bmod n wordSize

def fitsSigned? (z : Int) : Option Int :=
  if -(wordSize / 2 : Nat) ≤ z ∧ z < (wordSize / 2 : Nat) then some z else none

def shifted (offset : Nat) (shift : Int) : Nat := min (offset + shift).toNat (wordSize - 1)

def mapFrom? (offset : Nat) (shift : Int) : List Edit → Option Nat
  | [] => some (shifted offset shift)
  | e :: es =>
    if offset < e.start then some (shifted offset shift)
    else if offset < e.stop then
      fits? (shifted e.start shift + min (offset - e.start) (byteLength e.newText))
    else if e.stop < e.start then none
    else do
      let growth ← fitsSigned? (signed (byteLength e.newText) - signed (e.stop - e.start))
      mapFrom? offset (← fitsSigned? (shift + growth)) es

/-- Where edits move an offset. Inside a replaced part it keeps its distance from the start of that
part, as far as the replacement reaches. There is no result when an edit stops before it starts or a
number does not fit. -/
def mapOffset? (edits : List Edit) (offset : Nat) : Option Nat := mapFrom? offset 0 edits

end Edit

structure Buffer where
  text : List Char
  cursor : Nat
  deriving DecidableEq

namespace Buffer

def patch? (b : Buffer) (edits : List Edit) : Option Buffer := do
  let cursor ← Edit.mapOffset? edits b.cursor
  let text ← Edit.patch? b.text edits
  return ⟨text, cursor⟩

def formatEdits (b : Buffer) (style : Style) : Except Overflow (List Edit) :=
  (formatBounded style b.text).map fun out => Edit.between b.text out.text

end Buffer

end ScratchFormat
