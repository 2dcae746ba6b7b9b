import ScratchFormat.Layout.Levels
import ScratchFormat.Layout.Scopes
import ScratchFormat.Layout.Chains
import ScratchFormat.Style.Bounded

/-! The layout rules count columns without a bound. Here are the counts that each rule makes on its
way, and the first of them for which words of 64 bits have no room. -/

namespace ScratchFormat

def walkOverflow? {σ : Type} (rule : σ → ScannedLine → σ × Output)
    (overflow? : σ → ScannedLine → Option Overflow) (s : σ) : List ScannedLine → Option Overflow
  | [] => none
  | l :: ls => overflow? s l <|> walkOverflow? rule overflow? (rule s l).1 ls

namespace Levels

def lineOverflow? (style : Style) (s : Levels) (l : ScannedLine) : Option Overflow :=
  if l.isCodeLine then
    let code := trim l.codeText
    let cols := style.columns l.raw
    countOverflow? (cols + style.unit / 2) <|>
      style.columnOverflow? (style.colsOf (s.level (Role.ofCode code) code (style.levelOf cols)))
  else none

def overflow? (style : Style) (text : List Char) : Option Overflow :=
  walkOverflow? (rule style) (lineOverflow? style) initial (scan text)

end Levels

namespace Scopes

def lineOverflow? (style : Style) (s : Scopes) (l : ScannedLine) : Option Overflow :=
  if l.isCodeLine then
    let binding := (bindingHead? (trim l.codeText)).isSome
    let cols := style.columns l.raw
    let column := s.column style binding cols
    countOverflow? (if binding && cols ≠ 0 then cols + style.unit / 2 else cols) <|>
      if column = cols then none else style.columnOverflow? column
  else none

def overflow? (style : Style) (text : List Char) : Option Overflow :=
  walkOverflow? (rule style) (lineOverflow? style) initial (scan text)

end Scopes

namespace Chains

def breakColumns (style : Style) (l : ScannedLine) : List Nat :=
  let cols := style.columns l.raw
  let head := definition? l
  let column := startColumn style head cols
  let started := (brokenLinks? l head).any fun links => links.head?.any (·.pipe.isNone)
  (if head.isSome then [cols] else []) ++ (if started then [column] else []) ++
    [column + style.colsOf 1]

def lineColumns (style : Style) (s : Chains) (l : ScannedLine) : List Nat :=
  if l.startsWithPipe then [s.joinColumn style (style.columns l.raw)]
  else if l.pipes.length < 2 then []
  else breakColumns style l

def lineOverflow? (style : Style) (s : Chains) (l : ScannedLine) : Option Overflow :=
  if l.isCodeLine then
    countOverflow? (style.columns l.raw) <|>
      (lineColumns style s l).findSome? style.columnOverflow?
  else none

def overflow? (style : Style) (text : List Char) : Option Overflow :=
  walkOverflow? (rule style) (lineOverflow? style) initial (scan text)

end Chains

end ScratchFormat
