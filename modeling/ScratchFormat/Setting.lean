import ScratchFormat.Failure
import ScratchFormat.Text.Numeral
import ScratchFormat.Text.Quoted

/-! Settings given as text, in the environment or on the command line. -/

namespace ScratchFormat

abbrev Environment := List (List Char × List Char)

namespace Setting

/-- A name in the form of a variable: capitals, with an underscore for each dash and before each
hump. `last` is the character before, and `low` says whether it was a small letter or a digit. -/
def keyPart (last : Option Char) (low : Bool) : List Char → List Char
  | [] => []
  | c :: cs =>
    if c = '_' ∨ c = '-' then
      if last = some '_' then keyPart last false cs else '_' :: keyPart (some '_') false cs
    else
      let capital := toAsciiUpper c
      let isUpper := isAsciiLetter c && capital = c
      let rest := keyPart (some capital) (!isUpper && (isAsciiLetter c || isAsciiDigit c)) cs
      if isUpper && low then '_' :: capital :: rest else capital :: rest

def key (part field : List Char) : List Char :=
  "UNIFMT_".toList ++ keyPart none false part ++ '_' :: keyPart none false field

def readCount (key raw : List Char) : Except Failure Nat :=
  match readWord? (trim raw) with
  | some n => .ok n
  | none =>
    .error (.setting key ("expected a non-negative integer, got " ++ String.ofList (quoted raw)))

def onWords : List (List Char) := ["1", "true", "yes", "on"].map String.toList

def offWords : List (List Char) := ["0", "false", "no", "off"].map String.toList

def readSwitch (key raw : List Char) : Except Failure Bool :=
  let word := (trim raw).map toAsciiLower
  if onWords.contains word then .ok true
  else if offWords.contains word then .ok false
  else .error (.setting key ("expected true or false, got " ++ String.ofList (quoted raw)))

/-- Reads a variable with a reader; a variable that is not set is no mistake. -/
def lookup {α : Type} (read : List Char → List Char → Except Failure α) (env : Environment)
    (key : List Char) : Except Failure (Option α) :=
  match env.lookup key with
  | none => .ok none
  | some raw => (read key raw).map some

end Setting

end ScratchFormat
