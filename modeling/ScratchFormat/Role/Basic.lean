import ScratchFormat.Text.Numeric
import ScratchFormat.Operator
import ScratchFormat.Role.Pattern

/-! The role a line plays in a file, told from its code. -/

namespace ScratchFormat

inductive Role
  | signature (name : List Char)
  | watch
  | test
  | typeDeclaration
  | useClause
  | definition (name : Option (List Char))
  | other
  deriving DecidableEq

def testMarker : List Char := "test>".toList

def watchMarker? (code : List Char) : Option (List Char) :=
  match dropFront? testMarker code with
  | some rest =>
    if rest.head?.any (fun c => c == '>' || c == '=') then none else some testMarker
  | none =>
    match code with
    | '>' :: rest =>
      if rest.head?.any (fun c => c == '>' || c == '=' || c == '|') then none else some ['>']
    | _ => none

/-- The text before the first `=` that stands outside brackets and is not part of an operator. A
string before it makes the line no definition. -/
def beforeEquals? (depth : Nat) (prev : Option Char) : List Char → Option (List Char)
  | [] => none
  | c :: cs =>
    if c = '"' then none
    else if c = '=' ∧ depth = 0 ∧ !prev.any isOperatorChar ∧
        !cs.head?.any (fun d => d == '=' || d == '>') then some []
    else (beforeEquals? (depthAfter depth c) (some c) cs).map (c :: ·)

def definitionHead? (code : List Char) : Option (List Char) :=
  (beforeEquals? 0 none code).filter fun head => isDefinitionHead (trim head)

def bindingHead? (code : List Char) : Option (List Char) :=
  ((definitionHead? code).map trim).filter isBindingHead

namespace Role

def ofCode (code : List Char) : Role :=
  let code := trim code
  match watchMarker? code with
  | some marker => if marker = testMarker then test else watch
  | none =>
    if isUseClause code then useClause
    else if isTypeDeclaration code then typeDeclaration
    else
      match signature? code with
      | some (name, _) => signature name
      | none =>
        match definitionHead? code with
        | some head => definition (leadingName? (trim head))
        | none => other

/-- Roles that belong at column zero unless a block is open. -/
def isTopLevel : Role → Bool
  | signature _ | watch | test | typeDeclaration => true
  | _ => false

def isDefinition : Role → Bool
  | definition _ => true
  | _ => false

def name? : Role → Option (List Char)
  | signature name => some name
  | definition name => name
  | _ => none

def defines (role : Role) (name : List Char) : Bool := role = definition (some name)

end Role

def isBlockWordChar (c : Char) : Bool := isAlphanumeric c || c == '_'

def blockTailWords : List (List Char) :=
  ["do", "where", "with", "cases", "let", "then", "else", "handle", "of"].map String.toList

def blockHeadWords : List (List Char) := ["let", "cases", "match", "handle"].map String.toList

def opensBlock (code : List Char) : Bool :=
  let code := trim code
  match code.getLast? with
  | none => false
  | some last =>
    isOpener last || last == ',' || (isOperatorChar last && last != '!') ||
      blockTailWords.contains (code.reverse.takeWhile isBlockWordChar).reverse ||
      blockHeadWords.contains (code.takeWhile isBlockWordChar) ||
      (words code).contains "where".toList

def opensCases (code : List Char) : Bool :=
  opensBlock code && (words code).contains "cases".toList

def hasArrow (depth : Nat) (prev : Char) : List Char → Bool
  | [] => false
  | c :: cs => (c == '>' && depth == 0 && prev == '-') || hasArrow (depthAfter depth c) c cs

def isArm (code : List Char) : Bool := hasArrow 0 ' ' code

end ScratchFormat
