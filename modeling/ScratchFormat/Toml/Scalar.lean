import ScratchFormat.Text.Numeral
import ScratchFormat.Toml.Node

/-! Strings, numbers and dates of TOML. A reader takes a text and gives what it has read and the
rest. -/

namespace ScratchFormat

namespace Toml

abbrev Reader (α : Type) := List Char → Option (α × List Char)

def skip? (front cs : List Char) : Option (List Char) :=
  if front.isPrefixOf cs then some (cs.drop front.length) else none

def afterNewline? : List Char → Option (List Char)
  | '\n' :: cs => some cs
  | '\r' :: '\n' :: cs => some cs
  | _ => none

def isPlainChar (c : Char) : Bool := c == '\t' || (0x20 ≤ c.toNat && c.toNat ≠ 0x7f)

def readCodePoint? (count : Nat) : Reader Char := fun cs =>
  let digits := cs.take count
  let n := positional 16 digits
  if digits.length = count ∧ digits.all (isDigitIn 16) ∧ n.isValidChar then
    some (Char.ofNat n, cs.drop count)
  else none

def readEscape? : Reader Char
  | 'b' :: cs => some ('\x08', cs)
  | 't' :: cs => some ('\t', cs)
  | 'n' :: cs => some ('\n', cs)
  | 'f' :: cs => some ('\x0c', cs)
  | 'r' :: cs => some ('\r', cs)
  | '"' :: cs => some ('"', cs)
  | '\\' :: cs => some ('\\', cs)
  | 'u' :: cs => readCodePoint? 4 cs
  | 'U' :: cs => readCodePoint? 8 cs
  | _ => none

def readBasic? : Nat → Reader (List Char)
  | 0, _ => none
  | fuel + 1, cs =>
    match cs with
    | '"' :: rest => some ([], rest)
    | '\\' :: rest => do
      let (c, rest) ← readEscape? rest
      let (text, rest) ← readBasic? fuel rest
      return (c :: text, rest)
    | c :: rest =>
      if isPlainChar c then do
        let (text, rest) ← readBasic? fuel rest
        return (c :: text, rest)
      else none
    | [] => none

def readLiteral? (cs : List Char) : Option (List Char × List Char) :=
  let text := cs.takeWhile fun c => c != '\'' && isPlainChar c
  match cs.drop text.length with
  | '\'' :: rest => some (text, rest)
  | _ => none

def dropBlankLines : List Char → List Char
  | ' ' :: cs => dropBlankLines cs
  | '\t' :: cs => dropBlankLines cs
  | '\n' :: cs => dropBlankLines cs
  | '\r' :: '\n' :: cs => dropBlankLines cs
  | cs => cs

/-- Whether a text goes on to a line end after blanks; if so, what remains after all blanks and line
ends. -/
def afterLineFold? (cs : List Char) : Option (List Char) :=
  (afterNewline? (cs.dropWhile isIndent)).map dropBlankLines

/-- The quotes that end a long string: three, with up to two more before them that belong to the
text. -/
def closingQuotes? (quote : Char) (cs : List Char) : Option (List Char × List Char) :=
  let run := cs.takeWhile (· == quote)
  if run.length < 3 then none
  else
    let extra := min (run.length - 3) 2
    some (List.replicate extra quote, cs.drop (extra + 3))

def readLongBasic? : Nat → Reader (List Char)
  | 0, _ => none
  | fuel + 1, cs =>
    match closingQuotes? '"' cs with
    | some closing => some closing
    | none =>
      match cs with
      | '\\' :: rest =>
        match afterLineFold? rest with
        | some rest => readLongBasic? fuel rest
        | none => do
          let (c, rest) ← readEscape? rest
          let (text, rest) ← readLongBasic? fuel rest
          return (c :: text, rest)
      | [] => none
      | c :: rest =>
        match afterNewline? cs with
        | some rest => do
          let (text, rest) ← readLongBasic? fuel rest
          return ('\n' :: text, rest)
        | none =>
          if isPlainChar c then do
            let (text, rest) ← readLongBasic? fuel rest
            return (c :: text, rest)
          else none

def readLongLiteral? : Nat → Reader (List Char)
  | 0, _ => none
  | fuel + 1, cs =>
    match closingQuotes? '\'' cs with
    | some closing => some closing
    | none =>
      match cs with
      | [] => none
      | c :: rest =>
        match afterNewline? cs with
        | some rest => do
          let (text, rest) ← readLongLiteral? fuel rest
          return ('\n' :: text, rest)
        | none =>
          if isPlainChar c then do
            let (text, rest) ← readLongLiteral? fuel rest
            return (c :: text, rest)
          else none

def dropFirstNewline (cs : List Char) : List Char := (afterNewline? cs).getD cs

def readShortString? (cs : List Char) : Option (List Char × List Char) :=
  match cs with
  | '"' :: rest => readBasic? (rest.length + 1) rest
  | '\'' :: rest => readLiteral? rest
  | _ => none

def readString? (cs : List Char) : Option (List Char × List Char) :=
  match skip? "\"\"\"".toList cs with
  | some rest => readLongBasic? (rest.length + 1) (dropFirstNewline rest)
  | none =>
    match skip? "'''".toList cs with
    | some rest => readLongLiteral? (rest.length + 1) (dropFirstNewline rest)
    | none => readShortString? cs

def readDigits? (isDigit : Char → Bool) (cs : List Char) : Option (List Char × List Char) :=
  let run := cs.takeWhile fun c => isDigit c || c == '_'
  let digits := run.filter (· != '_')
  let spread := splitRuns (· == '_') run
  if run.isEmpty || run.head? = some '_' || run.getLast? = some '_' then none
  else if spread.length = (run.filter (· == '_')).length + 1 then some (digits, cs.drop run.length)
  else none

def readSign (cs : List Char) : Option Bool × List Char :=
  match cs with
  | '+' :: rest => (some false, rest)
  | '-' :: rest => (some true, rest)
  | _ => (none, cs)

def fitsInteger (n : Int) : Bool := -9223372036854775808 ≤ n && n ≤ 9223372036854775807

def readBased? (base : Nat) (cs : List Char) : Option (Node × List Char) := do
  let (digits, rest) ← readDigits? (isDigitIn base) cs
  let n := (positional base digits : Int)
  if fitsInteger n then some (.integer n, rest) else none

/-- The number `digits * 10 ^ scale`, rounded. Beyond all numbers it is infinite, for which a plus
sign is refused. -/
def realOf? (negative : Bool) (digits : Nat) (scale : Int) : Option Real :=
  let size := scale + (Nat.toDigits 10 digits).length
  if digits = 0 ∨ size < -400 then some (.finite negative none)
  else
    let (num, den) := if 400 < size then (Nat.pow 10 400, 1) else Decimal.fraction digits scale
    match Binary64.nearest? num den with
    | none => if negative then some (.infinite true) else none
    | some x => some (.finite negative (if x.mantissa = 0 then none else some x))

/-- An exponent, if there is one; `none` inside when it is not well formed. -/
def readExponent? (cs : List Char) : Option (Int × List Char) :=
  match cs with
  | c :: rest =>
    if c = 'e' ∨ c = 'E' then do
      let (sign, rest) := readSign rest
      let (digits, rest) ← readDigits? isAsciiDigit rest
      let n := (positional 10 digits : Int)
      return (if sign = some true then -n else n, rest)
    else some (0, cs)
  | [] => some (0, cs)

def readDecimal? (cs : List Char) : Option (Node × List Char) := do
  let (sign, rest) := readSign cs
  let negative := sign = some true
  let (whole, rest) ← readDigits? isAsciiDigit rest
  if 1 < whole.length ∧ whole.head? = some '0' then none
  let isReal := rest.head?.any fun c => c == '.' || c == 'e' || c == 'E'
  if isReal then
    let (places, rest) ←
      match rest with
      | '.' :: rest => readDigits? isAsciiDigit rest
      | _ => some ([], rest)
    let (exponent, rest) ← readExponent? rest
    let x ← realOf? negative (positional 10 (whole ++ places)) (exponent - places.length)
    return (.real x, rest)
  else
    let n := (positional 10 whole : Int)
    let n := if negative then -n else n
    if fitsInteger n then return (.integer n, rest) else none

def readSpecial? (cs : List Char) : Option (Node × List Char) :=
  let (sign, rest) := readSign cs
  match skip? "inf".toList rest with
  | some rest => some (.real (.infinite (sign = some true)), rest)
  | none => (skip? "nan".toList rest).map fun rest => (.real .undefined, rest)

def readField? (count least most : Nat) (cs : List Char) : Option (Nat × List Char) :=
  let digits := cs.take count
  let n := positional 10 digits
  if digits.length = count ∧ digits.all isAsciiDigit ∧ least ≤ n ∧ n ≤ most then
    some (n, cs.drop count)
  else none

def daysInMonth (year month : Nat) : Nat :=
  if month = 2 then
    if year % 4 = 0 ∧ (year % 100 ≠ 0 ∨ year % 400 = 0) then 29 else 28
  else if month = 4 ∨ month = 6 ∨ month = 9 ∨ month = 11 then 30
  else 31

def afterDate? (cs : List Char) : Option (List Char) := do
  let (year, rest) ← readField? 4 0 9999 cs
  let (month, rest) ← readField? 2 1 12 (← skip? ['-'] rest)
  let (_, rest) ← readField? 2 1 (daysInMonth year month) (← skip? ['-'] rest)
  return rest

def afterTime? (cs : List Char) : Option (List Char) := do
  let (_, rest) ← readField? 2 0 23 cs
  let (_, rest) ← readField? 2 0 59 (← skip? [':'] rest)
  let (_, rest) ← readField? 2 0 60 (← skip? [':'] rest)
  match rest with
  | '.' :: rest =>
    if rest.head?.any isAsciiDigit then some (rest.dropWhile isAsciiDigit) else none
  | rest => some rest

def afterOffset? (cs : List Char) : Option (List Char) :=
  match cs with
  | 'Z' :: rest | 'z' :: rest => some rest
  | '+' :: rest | '-' :: rest => do
    let (_, rest) ← readField? 2 0 23 rest
    let (_, rest) ← readField? 2 0 59 (← skip? [':'] rest)
    return rest
  | rest => some rest

def readMoment? (cs : List Char) : Option (Node × List Char) :=
  match afterDate? cs with
  | some rest =>
    match rest with
    | c :: time =>
      if c = 'T' ∨ c = 't' then do
        return (.moment, ← afterOffset? (← afterTime? time))
      else if c = ' ' then
        match afterTime? time with
        | some rest => (afterOffset? rest).map fun rest => (.moment, rest)
        | none => some (.moment, rest)
      else some (.moment, rest)
    | [] => some (.moment, [])
  | none => (afterTime? cs).map fun rest => (.moment, rest)

def readNumber? (cs : List Char) : Option (Node × List Char) :=
  match readMoment? cs with
  | some found => some found
  | none =>
    match cs with
    | '0' :: 'x' :: rest => readBased? 16 rest
    | '0' :: 'o' :: rest => readBased? 8 rest
    | '0' :: 'b' :: rest => readBased? 2 rest
    | _ => (readSpecial? cs).or (readDecimal? cs)

end Toml

end ScratchFormat
