import ScratchFormat.Toml.Scalar

/-! Reading a TOML document. -/

namespace ScratchFormat

namespace Toml

def isBareKeyChar (c : Char) : Bool := isAsciiLetter c || isAsciiDigit c || c == '_' || c == '-'

def readKeyPart? (cs : List Char) : Option (List Char × List Char) :=
  match cs with
  | '"' :: _ | '\'' :: _ => readShortString? cs
  | _ =>
    let name := cs.takeWhile isBareKeyChar
    if name.isEmpty then none else some (name, cs.drop name.length)

def nestingLimit : Nat := 79

def readKey? : Nat → Reader (List (List Char))
  | 0, _ => none
  | fuel + 1, cs => do
    let (name, rest) ← readKeyPart? (cs.dropWhile isIndent)
    match rest.dropWhile isIndent with
    | '.' :: rest =>
      let (names, rest) ← readKey? fuel rest
      return (name :: names, rest)
    | rest => return ([name], rest)

def dropComment (cs : List Char) : List Char :=
  match cs with
  | '#' :: rest => rest.dropWhile isPlainChar
  | _ => cs

def dropSpace : Nat → List Char → List Char
  | 0, cs => cs
  | fuel + 1, cs =>
    let rest := dropComment (cs.dropWhile isIndent)
    match afterNewline? rest with
    | some rest => dropSpace fuel rest
    | none => rest

def afterLine? (cs : List Char) : Option (List Char) :=
  match dropComment (cs.dropWhile isIndent) with
  | [] => some []
  | rest => afterNewline? rest

mutual

def readValue? (depth : Nat) : Nat → Reader Node
  | 0, _ => none
  | fuel + 1, cs =>
    match cs with
    | [] => none
    | '[' :: rest =>
      match depth with
      | 0 => none
      | depth + 1 => do
        let (items, rest) ← readItems? depth fuel (dropSpace rest.length rest)
        return (.array items, rest)
    | '\x7b' :: rest =>
      match depth with
      | 0 => none
      | depth + 1 => do
        let (entries, rest) ← readPairs? depth [] fuel rest
        return (.inlineTable entries, rest)
    | c :: _ =>
      if c = '"' ∨ c = '\'' then (readString? cs).map fun (text, rest) => (.string text, rest)
      else
        match skip? "true".toList cs with
        | some rest => some (.boolean true, rest)
        | none =>
          match skip? "false".toList cs with
          | some rest => some (.boolean false, rest)
          | none => readNumber? cs

def readItems? (depth : Nat) : Nat → Reader (List Node)
  | 0, _ => none
  | fuel + 1, cs =>
    match cs with
    | ']' :: rest => some ([], rest)
    | _ => do
      let (item, rest) ← readValue? depth fuel cs
      match dropSpace rest.length rest with
      | ']' :: rest => return ([item], rest)
      | ',' :: rest =>
        let (items, rest) ← readItems? depth fuel (dropSpace rest.length rest)
        return (item :: items, rest)
      | _ => none

def readPairs? (depth : Nat) (entries : Entries) : Nat → Reader Entries
  | 0, _ => none
  | fuel + 1, cs =>
    match entries.isEmpty, cs.dropWhile isIndent with
    | true, '\x7d' :: rest => some ([], rest)
    | _, cs => do
      let (names, rest) ← readKey? nestingLimit cs
      let rest ← skip? ['='] rest
      let (node, rest) ← readValue? depth fuel (rest.dropWhile isIndent)
      let key ← names.getLast?
      let entries ← entries.insert? names.dropLast key node
      match rest.dropWhile isIndent with
      | '\x7d' :: rest => return (entries, rest)
      | ',' :: rest => readPairs? depth entries fuel rest
      | _ => none

end

def readHeader? (draft : Draft) (cs : List Char) : Option (Draft × List Char) := do
  let root ← draft.finish?
  match cs with
  | '[' :: rest =>
    let (path, rest) ← readKey? nestingLimit rest
    let rest ← skip? [']', ']'] rest
    return (← Draft.startElement? root path, rest)
  | _ =>
    let (path, rest) ← readKey? nestingLimit cs
    let rest ← skip? [']'] rest
    return (← Draft.startTable? root path, rest)

def readPair? (draft : Draft) (cs : List Char) : Option (Draft × List Char) := do
  let (names, rest) ← readKey? nestingLimit cs
  let rest ← skip? ['='] rest
  let (node, rest) ← readValue? nestingLimit (2 * rest.length + 2) (rest.dropWhile isIndent)
  let key ← names.getLast?
  let current ← draft.current.insert? names.dropLast key node
  return ({ draft with current := current }, rest)

def readLines? (draft : Draft) : Nat → List Char → Option Entries
  | 0, _ => none
  | fuel + 1, cs =>
    match dropSpace cs.length cs with
    | [] => draft.finish?
    | '[' :: rest => do
      let (draft, rest) ← readHeader? draft rest
      readLines? draft fuel (← afterLine? rest)
    | cs => do
      let (draft, rest) ← readPair? draft cs
      readLines? draft fuel (← afterLine? rest)

def read? (text : List Char) : Option Entries :=
  let text := if text.head? = some '\ufeff' then text.drop 1 else text
  readLines? .empty (text.length + 1) text

end Toml

end ScratchFormat
