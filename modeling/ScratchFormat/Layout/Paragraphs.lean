import ScratchFormat.Layout.Walk
import ScratchFormat.Role.Basic

/-! Paragraphs: one empty line between the items of a file, none between a signature and its
definition, and never two in a row. -/

namespace ScratchFormat

structure LineAbove where
  isComment : Bool
  isUse : Bool
  opensBlock : Bool
  deriving DecidableEq

structure Paragraphs where
  /-- An empty line is to come before the next line that is put out. -/
  pending : Bool
  /-- The last line put out. -/
  above : Option LineAbove
  /-- The signature at column zero that waits for its definition. -/
  signature : Option (List Char)
  deriving DecidableEq

namespace Paragraphs

def initial : Paragraphs := ⟨false, none, none⟩

/-- Whether an item of the given role is set apart from the line above it. Comments belong to what
follows them, and use clauses stay together. -/
def separates (above : Option LineAbove) (role : Role) : Bool :=
  above.any fun a => !(a.isComment || a.opensBlock) && !(a.isUse && role = .useClause)

def startsItem (raw : List Char) : Bool :=
  "--".toList.isPrefixOf raw || "\x7b\x7b".toList.isPrefixOf raw || "\x7b-".toList.isPrefixOf raw ||
    raw.head?.any fun c => isAlphabetic c || c == '_' || c == '(' || c == '>'

def rule (s : Paragraphs) (l : ScannedLine) : Paragraphs × Output :=
  if !l.startsInCode then
    (⟨s.pending, some ⟨l.startsIn ≠ .longString, false, false⟩, s.signature⟩, .line l.raw)
  else if l.isBlank then ({ s with pending := s.above.isSome }, .nothing)
  else
    let comment := l.isCommentOnly
    let role := Role.ofCode l.codeText
    let atZero := !l.raw.head?.any isIndent
    let glued := atZero && !comment && s.signature.any role.defines
    let apart := atZero && startsItem l.raw && separates s.above role
    let gap := !glued && (apart || s.pending)
    let signature :=
      if atZero && !comment then
        match role with
        | .signature name => some name
        | _ => none
      else s.signature
    let above : LineAbove :=
      ⟨comment, role = .useClause, !comment && opensBlock l.codeText⟩
    (⟨false, some above, signature⟩, ⟨if gap then [[], l.raw] else [l.raw], []⟩)

def separate (text : List Char) : List Char :=
  unlines (walk rule initial (scan text)).lines

end Paragraphs

end ScratchFormat
