import ScratchFormat.Text.Basic
import ScratchFormat.Text.WordChar

/-! The shapes of names and declaration heads. -/

namespace ScratchFormat

def isNameStart (c : Char) : Bool := isAsciiLetter c || c == '_'

def isNameRest (c : Char) : Bool := isWordChar c || c == '.' || c == '\''

def dropFront? (front cs : List Char) : Option (List Char) :=
  if front.isPrefixOf cs then some (cs.drop front.length) else none

def leadingName? (cs : List Char) : Option (List Char) :=
  match cs with
  | [] => none
  | c :: rest =>
    if isNameStart c then
      let name := c :: rest.takeWhile isNameRest
      if (rest.dropWhile isNameRest).head? = some '!' then some (name ++ ['!']) else some name
    else none

def leadingSection? (cs : List Char) : Option (List Char) :=
  match cs with
  | '(' :: rest =>
    let inner := rest.takeWhile fun c => !(c == '(' || c == ')' || isSpace c)
    if inner.isEmpty then none
    else if (rest.drop inner.length).head? = some ')' then some ('(' :: inner ++ [')'])
    else none
  | _ => none

/-- The name that a signature gives a type to, and the white space between it and the colon. The
colon is not part of an operator. -/
def signature? (cs : List Char) : Option (List Char × List Char) :=
  match (leadingName? cs).or (leadingSection? cs) with
  | none => none
  | some name =>
    let rest := cs.drop name.length
    match rest.dropWhile isSpace with
    | ':' :: after =>
      if after.head?.any (fun c => c == ':' || c == '+') then none
      else some (name, rest.takeWhile isSpace)
    | _ => none

def dropGap? (cs : List Char) : Option (List Char) :=
  match cs with
  | [] => none
  | c :: rest => if isSpace c then some (rest.dropWhile isSpace) else none

def afterModifier? (cs : List Char) : Option (List Char) :=
  match (dropFront? "unique".toList cs).or (dropFront? "structural".toList cs) with
  | none => none
  | some ('[' :: rest) =>
    match rest.dropWhile (· != ']') with
    | _ :: after => dropGap? after
    | [] => none
  | some rest => dropGap? rest

def gapThenMore (cs : List Char) : Bool :=
  match dropGap? cs with
  | some (_ :: _) => true
  | _ => false

def isTypeDeclaration (cs : List Char) : Bool :=
  let rest := (afterModifier? cs).getD cs
  ((dropFront? "type".toList rest).or (dropFront? "ability".toList rest)).any gapThenMore

def isUseClause (cs : List Char) : Bool :=
  (dropFront? "use".toList cs).any fun rest => rest.isEmpty || gapThenMore rest

/-- Whether a text is a name or an opening bracket, followed by names, white space and the
punctuation of simple patterns. -/
def isSimpleHead (cs : List Char) : Bool :=
  match cs with
  | [] => false
  | c :: rest =>
    (isNameStart c || c == '(' || c == '[') &&
      rest.all fun d => isWordChar d || isSpace d || ".'!(),[]".toList.contains d

def isDefinitionHead (cs : List Char) : Bool :=
  isSimpleHead cs || (afterModifier? cs).any isSimpleHead

def isBindingHead (cs : List Char) : Bool :=
  match cs with
  | [] => false
  | '(' :: rest =>
    match rest.dropWhile fun c => !(c == '(' || c == ')') with
    | [')'] => true
    | _ => false
  | c :: rest => isNameStart c && rest.all isNameRest

/-- Whether a text can follow the first character of a qualified name: word characters and primes,
and dots each of which a new part follows. -/
def isNameParts : List Char → Bool
  | [] => true
  | '.' :: c :: rest => isNameStart c && isNameParts rest
  | c :: rest => (isWordChar c || c == '\'') && isNameParts rest

def isQualifiedName (cs : List Char) : Bool :=
  match cs with
  | [] => false
  | c :: rest => isNameStart c && isNameParts rest

def isPlainDefinition (cs : List Char) : Bool :=
  let before := cs.takeWhile (· != '=')
  match cs.dropWhile (· != '=') with
  | [] => false
  | _ :: after =>
    isQualifiedName (before.takeWhile (!isSpace ·)) &&
      !after.head?.any (fun c => c == '=' || c == '>')

def isTopLevelHead (cs : List Char) : Bool :=
  (signature? cs).isSome || isPlainDefinition cs || isTypeDeclaration cs ||
    (dropFront? "use".toList cs).any fun rest => rest.head?.all isSpace

end ScratchFormat
