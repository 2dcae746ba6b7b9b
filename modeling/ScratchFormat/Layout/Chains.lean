import ScratchFormat.Layout.Walk
import ScratchFormat.Role.Basic
import ScratchFormat.Style
import ScratchFormat.Text.Slice

/-! Chains of pipes: a line with several pipes is broken into one line per link, and the lines of a
chain stand in one column. -/

namespace ScratchFormat

structure Link where
  pipe : Option Pipe
  text : List Char
  deriving DecidableEq

def Link.render (k : Link) : List Char :=
  match k.pipe with
  | none => k.text
  | some p => if k.text.isEmpty then p.text else p.text ++ ' ' :: k.text

structure Chains where
  /-- The column of its links. -/
  base : Option Nat
  /-- The column of the last line of code. -/
  previous : Option Nat
  deriving DecidableEq

namespace Chains

def initial : Chains := ⟨none, none⟩

/-- The links of `raw` from the byte `start` on, of which the first follows `pipe`, up to the byte
`stop`. The cuts are at the given pipes. An empty expression before the first pipe is no link. -/
def linksFrom? (raw : List Char) (pipe : Option Pipe) (start stop : Nat) :
    List (Nat × Pipe) → Option (List Link)
  | [] => (slice? raw start stop).map fun text => [⟨pipe, trim text⟩]
  | (offset, next) :: pipes => do
    let text := trim (← slice? raw start offset)
    let later ← linksFrom? raw (some next) (offset + next.text.length) stop pipes
    return if pipe.isSome || !text.isEmpty then ⟨pipe, text⟩ :: later else later

/-- The links of a line from the byte `start` on. A comment at the end of the line is none of them.
There is no result when `start` is not a place to cut. -/
def split? (l : ScannedLine) (start : Nat) : Option (List Link) :=
  let comment := l.trailingComment?.getD []
  linksFrom? l.raw none start (byteLength l.raw - byteLength comment)
    (l.pipes.filter fun p => start ≤ p.1)

def linkLines (style : Style) (cols : Nat) (comment : Option (List Char)) :
    List Link → List (List Char)
  | [] => []
  | [k] => [style.place cols (k.render ++ comment.elim [] (' ' :: ·))]
  | k :: ks => style.place cols k.render :: linkLines style cols comment ks

def definition? (l : ScannedLine) : Option (List Char) :=
  if (Role.ofCode l.codeText).isDefinition then
    match l.segments with
    | [] => none
    | first :: _ =>
      if first.kind = .code then
        (definitionHead? first.text).filter fun head =>
          l.pipes.head?.elim true fun p => byteLength head < p.1
      else none
  else none

/-- The column of a line that starts with a pipe and stands at `cols`: that of its chain, or else
one level more than that of the line of code before it. -/
def joinColumn (s : Chains) (style : Style) (cols : Nat) : Nat :=
  s.base.getD (s.previous.elim cols (· + style.colsOf 1))

def continueChain (style : Style) (s : Chains) (l : ScannedLine) : Chains × Output :=
  let (cols, rest) := style.measure l.raw
  let base := s.joinColumn style cols
  let whole := [style.place base rest]
  let indent := byteLength (l.raw.takeWhile isIndent)
  let out :=
    if 1 < l.pipes.length then
      (split? l indent).elim whole (linkLines style base l.trailingComment?)
    else whole
  (⟨some base, some base⟩, ⟨out, []⟩)

def brokenLinks? (l : ScannedLine) (head : Option (List Char)) : Option (List Link) :=
  split? l (head.elim (byteLength (l.raw.takeWhile isIndent)) (byteLength · + 1))

def startColumn (style : Style) (head : Option (List Char)) (cols : Nat) : Nat :=
  if head.isSome then cols + style.colsOf 1 else cols

/-- Breaks a line with several pipes. A definition keeps its head on a line of its own, and what the
chain starts from stands one level above the links. -/
def breakChain (style : Style) (l : ScannedLine) : Chains × Output :=
  let cols := style.columns l.raw
  let head := definition? l
  let column := startColumn style head cols
  let base := column + style.colsOf 1
  let state : Chains := ⟨some base, some base⟩
  match brokenLinks? l head with
  | none => (state, .line l.raw)
  | some links =>
    let headLine := head.elim [] fun h => [style.place cols (trim h ++ " =".toList)]
    let note : Note :=
      ⟨.debug, "breaking pipe chain of " ++ toString links.length ++ " stages"⟩
    let body :=
      match links with
      | ⟨none, text⟩ :: later =>
        style.place column text :: linkLines style base l.trailingComment? later
      | _ => linkLines style base l.trailingComment? links
    (state, ⟨headLine ++ body, [note]⟩)

/-- Lays out one line. A line deeper than the links belongs to the link above it. -/
def rule (style : Style) (s : Chains) (l : ScannedLine) : Chains × Output :=
  if !l.isCodeLine then (s, .line l.raw)
  else if l.startsWithPipe then continueChain style s l
  else if l.pipes.length < 2 then
    let cols := style.columns l.raw
    (⟨s.base.filter (· < cols), some cols⟩, .line l.raw)
  else breakChain style l

def layOut (style : Style) (text : List Char) : Outcome :=
  (walk (rule style) initial (scan text)).outcome

end Chains

end ScratchFormat
