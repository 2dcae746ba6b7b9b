import ScratchFormat.Format
import ScratchFormat.Layout.Bounded

/-! Formatting in words of 64 bits. With up to eight columns a level, only a text about as long as
the largest word could run out of room; a style that is not clamped may ask for columns that no word
can hold, and then there is no result. -/

namespace ScratchFormat

def Stage.overflow? (style : Style) (text : List Char) : Stage → Option Overflow
  | levels => Levels.overflow? style text
  | scopes => Scopes.overflow? style text
  | chains => Chains.overflow? style text
  | margin | gaps | paragraphs | endings => none

def unlessOverflow {α : Type} (overflow : Option Overflow) (value : Unit → α) : Except Overflow α :=
  match overflow with
  | none => .ok (value ())
  | some o => .error o

def Stage.runBounded (style : Style) (text : List Char) (stage : Stage) : Except Overflow Outcome :=
  unlessOverflow (stage.overflow? style text) fun _ => stage.run style text

def stagesBounded (style : Style) (text : List Char) : List Stage → Except Overflow (List Char)
  | [] => .ok text
  | stage :: stages => do
    let next ← stage.runBounded style text
    stagesBounded style next.text stages

def passesOverflow? (style : Style) (text : List Char) : Nat → Option Overflow
  | 0 => none
  | left + 1 =>
    match stagesBounded style text Stage.all with
    | .error o => some o
    | .ok next => if next = text then none else passesOverflow? style next left

def formatOverflow? (style : Style) (text : List Char) : Option Overflow :=
  let text := joinLineEnds text
  if isBlankText text then none else passesOverflow? style text maxPasses

def formatBounded (style : Style) (text : List Char) : Except Overflow Outcome :=
  unlessOverflow (formatOverflow? style text) fun _ => formatNoted style text

end ScratchFormat
