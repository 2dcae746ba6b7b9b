import ScratchFormat.Layout.Margin
import ScratchFormat.Layout.Gaps
import ScratchFormat.Layout.Levels
import ScratchFormat.Layout.Scopes
import ScratchFormat.Layout.Chains
import ScratchFormat.Layout.Paragraphs
import ScratchFormat.Layout.Endings

/-! Formatting: seven layout stages, run until the text settles or four passes are over. -/

namespace ScratchFormat

inductive Stage
  | margin
  | gaps
  | levels
  | scopes
  | chains
  | paragraphs
  | endings
  deriving DecidableEq

namespace Stage

def all : List Stage := [margin, gaps, levels, scopes, chains, paragraphs, endings]

def run (style : Style) (text : List Char) : Stage → Outcome
  | margin => Margin.remove text
  | gaps => ⟨Gaps.set text, []⟩
  | levels => Levels.assign style text
  | scopes => Scopes.align style text
  | chains => Chains.layOut style text
  | paragraphs => ⟨Paragraphs.separate text, []⟩
  | endings => ⟨Endings.trim text, []⟩

end Stage

def runStages (style : Style) (text : List Char) : List Stage → Outcome
  | [] => ⟨text, []⟩
  | stage :: stages =>
    let first := stage.run style text
    let later := runStages style first.text stages
    ⟨later.text, first.notes ++ later.notes⟩

def pass (style : Style) (text : List Char) : Outcome := runStages style text Stage.all

def maxPasses : Nat := 4

/-- Makes up to `left` more passes over a text that `done` passes have made, and stops at the first
that changes nothing. -/
def settle (style : Style) (done : Nat) (text : List Char) : Nat → Outcome
  | 0 =>
    ⟨text, [⟨.debug, "formatting still changing after " ++ toString done ++ " passes"⟩]⟩
  | left + 1 =>
    let next := pass style text
    if next.text = text then
      ⟨text, next.notes ++
        [⟨.debug, "formatting settled after " ++ toString done ++ " passes"⟩]⟩
    else
      let later := settle style (done + 1) next.text left
      ⟨later.text, next.notes ++ later.notes⟩

/-- Replaces every carriage return and line feed by a line feed. -/
def joinLineEnds : List Char → List Char
  | [] => []
  | '\r' :: '\n' :: cs => '\n' :: joinLineEnds cs
  | c :: cs => c :: joinLineEnds cs

def formatNoted (style : Style) (text : List Char) : Outcome :=
  let text := joinLineEnds text
  if isBlankText text then ⟨[], []⟩
  else
    let first := pass style text
    let later := settle style 1 first.text (maxPasses - 1)
    ⟨later.text, first.notes ++ later.notes⟩

def format (style : Style) (text : List Char) : List Char := (formatNoted style text).text

end ScratchFormat
