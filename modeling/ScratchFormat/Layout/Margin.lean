import ScratchFormat.Layout.Walk
import ScratchFormat.Role.Pattern

/-! The margin of a pasted fragment: indentation that all of its lines share. -/

namespace ScratchFormat

namespace Margin

/-- Whether a line may be moved: the body of a long string is content, not indentation. -/
def isMovable (l : ScannedLine) : Bool := l.startsIn ≠ .longString

def commonFront : List Char → List Char → List Char
  | a :: as, b :: bs => if a = b then a :: commonFront as bs else []
  | _, _ => []

def shared : List (List Char) → List Char
  | [] => []
  | l :: ls => ls.foldl (fun front l' => commonFront front (l'.takeWhile isIndent))
      (l.takeWhile isIndent)

def ofLines (ls : List ScannedLine) : List Char :=
  shared ((ls.filter fun l => isMovable l && !isBlankText l.raw).map (·.raw))

def firstCode? (ls : List ScannedLine) : Option ScannedLine :=
  ls.find? fun l => !isBlankText l.raw && !l.isCommentOnly

/-- A line without the margin; a line that does not have it stays. -/
def strip (margin : List Char) (l : ScannedLine) : List Char :=
  if isMovable l then (dropFront? margin l.raw).getD l.raw else l.raw

def remove (text : List Char) : Outcome :=
  let ls := scan text
  let margin := ofLines ls
  if margin.isEmpty then ⟨text, []⟩
  else
    match firstCode? ls with
    | none => ⟨text, []⟩
    | some first =>
      if isTopLevelHead (trimStart first.raw) then
        ⟨unlines (ls.map (strip margin)),
          [⟨.debug, "dedent removing " ++ toString margin.length ++ " leading columns"⟩]⟩
      else ⟨text, [⟨.debug, "dedent skipped: first line is not a top-level head"⟩]⟩

end Margin

end ScratchFormat
