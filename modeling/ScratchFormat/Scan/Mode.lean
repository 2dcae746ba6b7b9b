import ScratchFormat.Text.Basic

/-! The modes of the line scanner and the rule that reads one character in each of them. -/

namespace ScratchFormat

inductive Mode
  | code
  | charQuote
  | string
  | longString
  | lineComment
  | blockComment (depth : Nat)
  | docBlock (depth : Nat)
  deriving DecidableEq

inductive Kind
  | code
  | literal
  | comment
  deriving DecidableEq

namespace Mode

def kind : Mode → Kind
  | code => .code
  | charQuote | string | longString => .literal
  | lineComment | blockComment _ | docBlock _ => .comment

def carries : Mode → Bool
  | longString | blockComment _ | docBlock _ => true
  | _ => false

def carried (m : Mode) : Mode := if m.carries then m else .code

end Mode

/-- A character that a quote or question mark may follow without opening a literal, because the two
together are part of a name. -/
def isNameTail (c : Char) : Bool :=
  c == '_' || c == '\'' || c == '!' || isAsciiLetter c || isAsciiDigit c

/-- What one character does to the scanner. The number says how many of the characters after it are
taken together with it, unread. -/
inductive Step
  /-- The segment goes on, in the given mode. -/
  | stay (mode : Mode) (owed : Nat)
  /-- A new segment opens here. -/
  | enter (mode : Mode) (owed : Nat)
  /-- A character literal begins here and ends with the last character owed. -/
  | whole (owed : Nat)
  /-- The segment closes with the last character owed. -/
  | leave (owed : Nat)

def closesQuote : List Char → Bool
  | '\\' :: _ :: '\'' :: _ => true
  | '\\' :: _ => false
  | '\'' :: _ => false
  | _ :: '\'' :: _ => true
  | _ => false

def questionLength? : List Char → Option Nat
  | '\\' :: _ :: _ => some 2
  | '\\' :: [] => none
  | c :: _ => if isSpace c then none else some 1
  | [] => none

def stepCode (prev : Option Char) (c : Char) (rest : List Char) : Step :=
  if c = '"' then
    if ['"', '"'].isPrefixOf rest then .enter .longString 2 else .enter .string 0
  else if c = '\'' then
    if prev.any isNameTail || !closesQuote rest then .stay .code 0 else .enter .charQuote 0
  else if c = '?' then
    if prev.any isNameTail then .stay .code 0
    else
      match questionLength? rest with
      | some n => .whole n
      | none => .stay .code 0
  else if c = '-' ∧ rest.head? = some '-' then .enter .lineComment 0
  else if c = '\x7b' ∧ rest.head? = some '-' then .enter (.blockComment 1) 1
  else if c = '\x7b' ∧ rest.head? = some '\x7b' then .enter (.docBlock 1) 1
  else .stay .code 0

def stepQuoted (mode : Mode) (quote c : Char) : Step :=
  if c = '\\' then .stay mode 1 else if c = quote then .leave 0 else .stay mode 0

/-- Reads `c` inside `depth` nested pairs of two-character delimiters. -/
def stepNested (mode : Nat → Mode) (opening closing : Char × Char) (depth : Nat) (c : Char)
    (rest : List Char) : Step :=
  if c = opening.1 ∧ rest.head? = some opening.2 then .stay (mode (depth + 1)) 1
  else if c = closing.1 ∧ rest.head? = some closing.2 then
    if depth ≤ 1 then .leave 1 else .stay (mode (depth - 1)) 1
  else .stay (mode depth) 0

def step (mode : Mode) (prev : Option Char) (c : Char) (rest : List Char) : Step :=
  match mode with
  | .code => stepCode prev c rest
  | .charQuote => stepQuoted .charQuote '\'' c
  | .string => stepQuoted .string '"' c
  | .longString =>
    if c = '"' ∧ ['"', '"'].isPrefixOf rest then .leave 2 else .stay .longString 0
  | .lineComment => .stay .lineComment 0
  | .blockComment d => stepNested .blockComment ('\x7b', '-') ('-', '\x7d') d c rest
  | .docBlock d => stepNested .docBlock ('\x7b', '\x7b') ('\x7d', '\x7d') d c rest

end ScratchFormat
