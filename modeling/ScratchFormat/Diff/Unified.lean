import ScratchFormat.Diff.Script

/-! Unified diffs: hunks of changes with a few equal lines around them. -/

namespace ScratchFormat

namespace Diff

def contextLines : Nat := 3

def cutFront : List DiffOp → List DiffOp
  | .equal old new len :: ops =>
    let offset := len - contextLines
    .equal (old + offset) (new + offset) (len - offset) :: ops
  | ops => ops

def cutBack : List DiffOp → List DiffOp
  | [] => []
  | [.equal old new len] => [.equal old new (min len contextLines)]
  | op :: ops => op :: cutBack ops

/-- Cuts a script into hunks at long equal steps. `held` is the hunk so far, last step first. A last
hunk that would show no change is left out. -/
def hunksFrom (held : List DiffOp) : List DiffOp → List (List DiffOp)
  | [] =>
    match held with
    | [] => []
    | [.equal _ _ _] => []
    | _ => [held.reverse]
  | .equal old new len :: ops =>
    if 2 * contextLines < len then
      let offset := len - contextLines
      (.equal old new contextLines :: held).reverse ::
        hunksFrom [.equal (old + offset) (new + offset) (len - offset)] ops
    else hunksFrom (.equal old new len :: held) ops
  | op :: ops => hunksFrom (op :: held) ops

def hunks (ops : List DiffOp) : List (List DiffOp) := hunksFrom [] (cutBack (cutFront ops))

def rangeText (start stop : Nat) : String :=
  let len := stop - start
  if len = 1 then toString (start + 1)
  else if len = 0 then toString start ++ ",0"
  else toString (start + 1) ++ "," ++ toString len

def shownLine (sign : Char) (line : List Char) : List Char :=
  let ended := line.getLast?.any fun c => c == '\n' || c == '\r'
  sign :: line ++ if ended then [] else "\n\\ No newline at end of file\n".toList

def opLines (old new : List (List Char)) (op : DiffOp) : List Char :=
  match op with
  | .equal _ _ _ => (op.oldPart old).flatMap (shownLine ' ')
  | _ => (op.oldPart old).flatMap (shownLine '-') ++ (op.newPart new).flatMap (shownLine '+')

def hunkText (old new : List (List Char)) (hunk : List DiffOp) : List Char :=
  match hunk.head?, hunk.getLast? with
  | some first, some last =>
    ("@@ -" ++ rangeText first.oldStart last.oldStop ++ " +" ++
        rangeText first.newStart last.newStop ++ " @@\n").toList ++
      hunk.flatMap (opLines old new)
  | _, _ => []

def unified (path source formatted : List Char) : List Char :=
  let old := endedLines source
  let new := endedLines formatted
  match hunks (script old new) with
  | [] => []
  | hs =>
    "--- ".toList ++ path ++ " (original)\n+++ ".toList ++ path ++ " (formatted)\n".toList ++
      hs.flatMap (hunkText old new)

end Diff

end ScratchFormat
