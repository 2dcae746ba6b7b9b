import ScratchFormat.Role.Basic
import ScratchFormat.Scan.Line

/-! The gaps within a line: blanks around operators, after commas, around the colon of a signature
and the equals sign of a definition, and after a watch marker. Only code is changed.

Output is built last character first, so that the blanks at its end are the first to be seen. -/

namespace ScratchFormat

namespace Gaps

/-- One blank after the output so far, in place of those that are there. At the start of the output
and after an opening bracket there is none. -/
def before (out : List Char) : List Char :=
  match out.dropWhile isIndent with
  | [] => []
  | c :: cs => if isOpener c then c :: cs else ' ' :: c :: cs

def after (more : Bool) (rest out : List Char) : List Char :=
  match rest with
  | [] => if more then ' ' :: out else out
  | c :: _ => if isCloser c then out else ' ' :: out

def binary (more : Bool) (text rest out : List Char) : List Char :=
  after more (rest.dropWhile isIndent) (text.reverse ++ before out)

/-- Splits a run of operator characters into operators. Each is told from its neighbours in the text
as it stands. There is no result when a part of the run is left over. The first `owed` characters
belong to the operator before. -/
def splitRun? (front tail : List Char) (owed : Nat) : List Char → Option (List Operator)
  | [] => if owed = 0 then some [] else none
  | c :: cs =>
    match owed with
    | n + 1 => splitRun? (c :: front) tail n cs
    | 0 =>
      match Operator.at? front (c :: cs ++ tail) with
      | none => none
      | some op => (splitRun? (c :: front) tail (op.text.length - 1) cs).map (op :: ·)

/-- Puts out the operators of one run, and says how many characters of `rest` that uses up. A sign
keeps to its number; the last operator takes the blanks after it along. -/
def operators (more : Bool) (rest out : List Char) : List Operator → List Char × Nat
  | [] => (out, 0)
  | op :: ops =>
    let size := op.text.length
    let later := rest.drop size
    if op.isSignAt out.head? later.head? then
      let r := operators more later (op.text.reverse ++ out) ops
      (r.1, size + r.2)
    else if ops.isEmpty then
      (binary more op.text later out, size + (later.takeWhile isIndent).length)
    else
      let r := operators more later (' ' :: (op.text.reverse ++ before out)) ops
      (r.1, size + r.2)

/-- What one place in a stretch of code puts out, and how many characters that uses up after `c`.
`special` counts the characters before a colon or an equals sign that is set like an operator. -/
def place (more : Bool) (special : Option Nat) (front : List Char) (c : Char) (cs out : List Char) :
    List Char × Nat :=
  if special = some 0 then (binary more [c] cs out, (cs.takeWhile isIndent).length)
  else if c = ',' then
    (after more (cs.dropWhile isIndent) (',' :: out.dropWhile isIndent),
      (cs.takeWhile isIndent).length)
  else if isOperatorChar c then
    let whole := (c :: cs).takeWhile isOperatorChar
    let run := special.elim whole whole.take
    match splitRun? front ((c :: cs).drop run.length) 0 run with
    | none => (run.reverse ++ out, run.length - 1)
    | some ops =>
      let r := operators more (c :: cs) out ops
      (r.1, r.2 - 1)
  else (c :: out, 0)

/-- Sets the gaps of a stretch of code. `owed` characters are used up already, `front` holds those
read so far, nearest first, and `more` says whether another segment follows. -/
def code (more : Bool) (special : Option Nat) (owed : Nat) (front out : List Char) :
    List Char → List Char
  | [] => out
  | c :: cs =>
    let next := special.bind fun n => if n = 0 then none else some (n - 1)
    match owed with
    | n + 1 => code more next n (c :: front) out cs
    | 0 =>
      let r := place more special front c cs out
      code more next r.2 (c :: front) r.1 cs

def segments (out : List Char) : List Segment → List Char
  | [] => out
  | s :: ss =>
    if s.kind = .code then segments (code (!ss.isEmpty) none 0 [] out s.text) ss
    else segments (s.text.reverse ++ out) ss

/-- Where a line of the given role has a colon or an equals sign that is set like an operator. -/
def special? (role : Role) (head : List Char) : Option Nat :=
  match role with
  | .signature _ => (signature? head).map fun (name, gap) => name.length + gap.length
  | .definition _ | .typeDeclaration => (definitionHead? head).map List.length
  | _ => none

def codeLine (role : Role) (head : List Char) (later : List Segment) : List Char :=
  let marker := if role = .watch ∨ role = .test then (watchMarker? head).getD [] else []
  let body := if marker.isEmpty then head else trimStart (head.drop marker.length)
  let front :=
    if marker.isEmpty then []
    else if body.isEmpty && later.isEmpty then marker.reverse
    else ' ' :: marker.reverse
  (segments (code (!later.isEmpty) (special? role body) 0 [] front body) later).reverse

/-- Sets the gaps of a line. Blank lines, comments and use clauses stay. -/
def line (l : ScannedLine) : List Char :=
  if l.isBlank || l.isCommentOnly then l.raw
  else if !l.startsInCode then (segments [] l.segments).reverse
  else
    let role := Role.ofCode l.codeText
    if role = .useClause then l.raw
    else
      match l.segments with
      | [] => l.raw
      | first :: later =>
        if first.kind = .code then
          first.text.takeWhile isIndent ++ codeLine role (first.text.dropWhile isIndent) later
        else (segments [] l.segments).reverse

def set (text : List Char) : List Char := unlines ((scan text).map line)

end Gaps

end ScratchFormat
