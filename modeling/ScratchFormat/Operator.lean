import ScratchFormat.Text.Basic

/-! Binary operators: a table, longest entries first, with the neighbours that would make an entry
part of a longer operator. -/

namespace ScratchFormat

structure Operator where
  text : List Char
  /-- The operator does not stand right after one of these. -/
  notAfter : List Char
  /-- The operator does not stand right before one of these. -/
  notBefore : List Char
  /-- Whether the operator can also be the sign of a number. -/
  sign : Bool
  deriving DecidableEq

def isOperatorChar (c : Char) : Bool :=
  "+-*/<>=!|&:^%~$".toList.contains c

namespace Operator

private def binary (text notAfter notBefore : String) : Operator :=
  ⟨text.toList, notAfter.toList, notBefore.toList, false⟩

private def signed (text notAfter notBefore : String) : Operator :=
  ⟨text.toList, notAfter.toList, notBefore.toList, true⟩

def table : List Operator :=
  [binary "<|>" "<|" ">=|",
   binary "===" "=!<>" "=",
   binary "|>" "<|" ">=|",
   binary "<|" "<" ">|",
   binary "++" "+" "+:",
   binary "+:" "+:" ":",
   binary ":+" ":+" "+",
   binary "==" "=!<>" "=>",
   binary "!=" "!" "=",
   binary "<=" "<" "=>",
   binary ">=" ">" "=",
   binary "&&" "&" "&",
   binary "||" "|<" "|>",
   binary "->" "-<" ">",
   binary ">>" ">|-" ">=",
   binary "<<" "<" "<|=",
   signed "+" "+:" "+:",
   signed "-" "-<" "->",
   binary "*" "*" "*",
   binary "/" "/" "/=",
   binary "<" "<=" "<|=>-",
   binary ">" ">-|=<" ">="]

def admits (op : Operator) (prev : Option Char) (rest : List Char) : Bool :=
  op.text.isPrefixOf rest && !prev.any op.notAfter.contains &&
    !(rest.drop op.text.length).head?.any op.notBefore.contains

/-- Whether a sign stands in the exponent of a number such as `1.5e-3`. The characters before it are
given nearest first. -/
def inExponent (before rest : List Char) : Bool :=
  match before, rest with
  | e :: d :: _, _ :: next :: _ => (e == 'e' || e == 'E') && isAsciiDigit d && isAsciiDigit next
  | _, _ => false

/-- The operator that `rest` starts with, where `before` holds the characters in front of it,
nearest first. A qualified name such as `Nat.+` and a section such as `(+)` are names and hold no
operator. -/
def at? (before rest : List Char) : Option Operator :=
  if before.head? = some '.' then none
  else
    match table.find? (·.admits before.head? rest) with
    | none => none
    | some op =>
      if before.head? = some '(' ∧ (rest.drop op.text.length).head? = some ')' then none
      else if op.sign ∧ inExponent before rest then none
      else some op

/-- Whether the operator is the sign of a number that starts with `next`, when `prev` stands before
it: nothing, white space, an opening bracket, a comma or another operator. -/
def isSignAt (op : Operator) (prev next : Option Char) : Bool :=
  op.sign && next.any isAsciiDigit &&
    prev.all (fun c => isSpace c || isOpener c || c == ',' || isOperatorChar c)

end Operator

inductive Pipe
  | alternative
  | forward
  | backward
  deriving DecidableEq

namespace Pipe

def text : Pipe → List Char
  | alternative => ['<', '|', '>']
  | forward => ['|', '>']
  | backward => ['<', '|']

def all : List Pipe := [alternative, forward, backward]

def atStart? (cs : List Char) : Option Pipe := all.find? (·.text.isPrefixOf cs)

/-- The pipe that `rest` starts with, if it is a whole run of operator characters. -/
def at? (prev : Option Char) (rest : List Char) : Option Pipe :=
  (atStart? rest).filter fun p =>
    !prev.any isOperatorChar && !(rest.drop p.text.length).head?.any isOperatorChar

end Pipe

end ScratchFormat
