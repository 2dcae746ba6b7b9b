import ScratchFormat.Scan.Mark
import ScratchFormat.Operator

/-! Scanned lines: a line cut into segments of code, literals and comments. -/

namespace ScratchFormat

structure Segment where
  kind : Kind
  text : List Char
  deriving DecidableEq

/-- Collects marked characters into segments; each mark that is fresh begins a new one. -/
def Segment.ofMarks : List Mark → List Segment
  | [] => []
  | m :: ms =>
    match ms, ofMarks ms with
    | next :: _, s :: ss =>
      if next.fresh then ⟨m.kind, [m.char]⟩ :: s :: ss else ⟨m.kind, m.char :: s.text⟩ :: ss
    | _, _ => [⟨m.kind, [m.char]⟩]

structure ScannedLine where
  raw : List Char
  startsIn : Mode
  endsIn : Mode
  segments : List Segment
  deriving DecidableEq

def scanLine (mode : Mode) (raw : List Char) : ScannedLine where
  raw := raw
  startsIn := mode
  endsIn := (Cursor.start mode).final raw
  segments := Segment.ofMarks ((Cursor.start mode).marks raw)

def scanFrom (mode : Mode) : List (List Char) → List ScannedLine
  | [] => []
  | l :: ls => scanLine mode l :: scanFrom (scanLine mode l).endsIn.carried ls

def scan (text : List Char) : List ScannedLine := scanFrom .code (lines text)

namespace ScannedLine

def startsInCode (l : ScannedLine) : Bool := l.startsIn = .code

def isBlank (l : ScannedLine) : Bool := l.segments.all fun s => isBlankText s.text

def isCommentOnly (l : ScannedLine) : Bool :=
  !l.isBlank && l.segments.all fun s => s.kind = .comment || isBlankText s.text

def isCodeLine (l : ScannedLine) : Bool := l.startsInCode && !l.isBlank && !l.isCommentOnly

/-- The text so far with the next segment joined on: a literal shows as an empty string, a comment
as a blank that separates what stands on its two sides. -/
def joinCode (sofar : List Char) (s : Segment) : List Char :=
  match s.kind with
  | .code => sofar ++ s.text
  | .literal => sofar ++ ['"', '"']
  | .comment => if sofar.isEmpty || sofar.getLast? = some ' ' then sofar else sofar ++ [' ']

def codeText (l : ScannedLine) : List Char := l.segments.foldl joinCode []

def trailingComment? (l : ScannedLine) : Option (List Char) :=
  match l.segments.getLast? with
  | some s => if s.kind = .comment ∧ 1 < l.segments.length then some s.text else none
  | none => none

def pipesInCode (offset depth : Nat) (prev : Option Char) : List Char → List (Nat × Pipe)
  | [] => []
  | c :: cs =>
    let later := pipesInCode (offset + c.utf8Size) (depthAfter depth c) (some c) cs
    match if depth = 0 then Pipe.at? prev (c :: cs) else none with
    | some p => (offset, p) :: later
    | none => later

def pipesInSegments (offset depth : Nat) : List Segment → List (Nat × Pipe)
  | [] => []
  | s :: ss =>
    if s.kind = .code then
      pipesInCode offset depth none s.text ++
        pipesInSegments (offset + byteLength s.text) (s.text.foldl depthAfter depth) ss
    else pipesInSegments (offset + byteLength s.text) depth ss

def pipes (l : ScannedLine) : List (Nat × Pipe) := pipesInSegments 0 0 l.segments

def startsWithPipe (l : ScannedLine) : Bool :=
  match l.segments, l.pipes with
  | s :: _, (offset, _) :: _ => s.kind = .code && offset = byteLength (s.text.takeWhile isSpace)
  | _, _ => false

end ScannedLine

end ScratchFormat
