import ScratchFormat.Text.CodePoints

/-! Texts as lists of characters: lines, trimming, words, and lengths in bytes. -/

namespace ScratchFormat

def byteLength : List Char → Nat
  | [] => 0
  | c :: cs => c.utf8Size + byteLength cs

/-- The lines of a text, cut at every line feed. There is always at least one. -/
def lines : List Char → List (List Char)
  | [] => [[]]
  | c :: cs =>
    if c = '\n' then [] :: lines cs
    else
      match lines cs with
      | [] => [[c]]
      | l :: ls => (c :: l) :: ls

def unlines : List (List Char) → List Char
  | [] => []
  | [l] => l
  | l :: l' :: ls => l ++ '\n' :: unlines (l' :: ls)

def dropEndWhile (p : Char → Bool) (cs : List Char) : List Char :=
  (cs.reverse.dropWhile p).reverse

def trimStart (cs : List Char) : List Char := cs.dropWhile isSpace

def trim (cs : List Char) : List Char := dropEndWhile isSpace (trimStart cs)

def isBlankText (cs : List Char) : Bool := cs.all isSpace

def splitRuns (p : Char → Bool) : List Char → List (List Char)
  | [] => []
  | c :: cs =>
    if p c then splitRuns p cs
    else
      match cs with
      | [] => [[c]]
      | d :: _ =>
        if p d then [c] :: splitRuns p cs
        else
          match splitRuns p cs with
          | [] => [[c]]
          | w :: ws => (c :: w) :: ws

def words (cs : List Char) : List (List Char) := splitRuns isSpace cs

/-- The bracket depth after one character; a closing bracket at depth zero leaves it there. -/
def depthAfter (depth : Nat) (c : Char) : Nat :=
  if c = '(' ∨ c = '[' ∨ c = '\x7b' then depth + 1
  else if c = ')' ∨ c = ']' ∨ c = '\x7d' then depth - 1
  else depth

def isCloser (c : Char) : Bool := c == ')' || c == ']' || c == '\x7d'

def isOpener (c : Char) : Bool := c == '(' || c == '[' || c == '\x7b'

end ScratchFormat
