import ScratchFormat.Failure
import ScratchFormat.Text.Quoted
import ScratchFormat.Toml.Document

/-! The manifest of a project: how its files are formatted and which files there are. -/

namespace ScratchFormat

structure FormatSection where
  indentUnit : Option Nat
  useSpaces : Option Bool
  deriving DecidableEq

structure FilesSection where
  included : List (List Char)
  excluded : List (List Char)
  extensions : List (List Char)
  deriving DecidableEq

structure Manifest where
  format : FormatSection
  files : FilesSection
  deriving DecidableEq

def FormatSection.empty : FormatSection := ⟨none, none⟩

def FilesSection.empty : FilesSection := ⟨[], [], []⟩

def Manifest.empty : Manifest := ⟨.empty, .empty⟩

inductive ManifestFault
  | malformed
  | unknownField (name : List Char) (expected : List String)
  | wrongType (found : Toml.Node) (expected : String)
  | negative (n : Int) (expected : String)

namespace ManifestFault

def realText : Toml.Real → List Char
  | .finite minus size =>
    let digits :=
      match size with
      | none => ['0', '.', '0']
      | some x => let (digits, scale) := Decimal.shortest x; Decimal.positionalText digits scale
    if minus then '-' :: digits else digits
  | .infinite minus => (if minus then "-inf" else "inf").toList
  | .undefined => "NaN".toList

def nodeText : Toml.Node → String
  | .string text => "string " ++ String.ofList (quoted text)
  | .integer n => "integer `" ++ toString n ++ "`"
  | .real x => "floating point `" ++ String.ofList (realText x) ++ "`"
  | .boolean b => if b then "boolean `true`" else "boolean `false`"
  | .array _ | .tables _ => "sequence"
  | .moment | .inlineTable _ | .table _ _ _ => "map"

def namesText : List String → String
  | [a, b] => "`" ++ a ++ "` or `" ++ b ++ "`"
  | names => "one of " ++ ", ".intercalate (names.map fun name => "`" ++ name ++ "`")

def message : ManifestFault → String
  | malformed => "not a well-formed document"
  | unknownField name expected =>
    "unknown field `" ++ String.ofList name ++ "`, expected " ++ namesText expected
  | wrongType found expected => "invalid type: " ++ nodeText found ++ ", expected " ++ expected
  | negative n expected => "invalid value: integer `" ++ toString n ++ "`, expected " ++ expected

end ManifestFault

namespace Manifest

open Toml (Node Entries)

abbrev Decoded (α : Type) := Except ManifestFault α

def asCount : Node → Decoded Nat
  | .integer n => if n < 0 then .error (.negative n "usize") else .ok n.toNat
  | node => .error (.wrongType node "usize")

def asSwitch : Node → Decoded Bool
  | .boolean b => .ok b
  | node => .error (.wrongType node "a boolean")

def asText : Node → Decoded (List Char)
  | .string text => .ok text
  | node => .error (.wrongType node "a string")

def items? : Node → Option (List Node)
  | .array items => some items
  | .tables items => some (items.map (.table false false))
  | _ => none

/-- The entries of a value that is a table. A date counts as a table with one private entry. -/
def entries? : Node → Option Entries
  | .inlineTable es | .table _ _ es => some es
  | .moment => some [("$__toml_private_datetime".toList, .moment)]
  | _ => none

def asTexts (node : Node) : Decoded (List (List Char)) :=
  match items? node with
  | some items => items.mapM asText
  | none => .error (.wrongType node "a sequence")

/-- Reads a section. It is a table whose fields are read in their order, or an array of fields. -/
def asSection {α : Type} (name : String) (initial : α)
    (field : α → List Char → Node → Decoded α) (ofItems : List Node → Decoded α) (node : Node) :
    Decoded α :=
  match entries? node with
  | some es => es.foldlM (fun part (key, value) => field part key value) initial
  | none =>
    match items? node with
    | some items => ofItems items
    | none => .error (.wrongType node ("struct " ++ name))

def formatField (part : FormatSection) (key : List Char) (value : Node) : Decoded FormatSection :=
  if key = "indent_unit".toList then
    (asCount value).map fun n => { part with indentUnit := some n }
  else if key = "use_spaces".toList then
    (asSwitch value).map fun b => { part with useSpaces := some b }
  else .error (.unknownField key ["indent_unit", "use_spaces"])

def formatItems : List Node → Decoded FormatSection
  | [] => .error .malformed
  | unit :: rest => do
    let n ← asCount unit
    match rest with
    | [] => .error .malformed
    | spaces :: _ => return ⟨some n, some (← asSwitch spaces)⟩

def filesField (part : FilesSection) (key : List Char) (value : Node) : Decoded FilesSection :=
  if key = "include".toList then
    (asTexts value).map fun names => { part with included := names }
  else if key = "exclude".toList then
    (asTexts value).map fun names => { part with excluded := names }
  else if key = "extensions".toList then
    (asTexts value).map fun names => { part with extensions := names }
  else .error (.unknownField key ["include", "exclude", "extensions"])

/-- The files section as an array may leave out its last fields. -/
def filesItems (items : List Node) : Decoded FilesSection := do
  let part (i : Nat) : Decoded (List (List Char)) :=
    match items[i]? with
    | some node => asTexts node
    | none => .ok []
  return ⟨← part 0, ← part 1, ← part 2⟩

def field (m : Manifest) (key : List Char) (value : Node) : Decoded Manifest :=
  if key = "format".toList then
    (asSection "FormatConfig" .empty formatField formatItems value).map fun part =>
      { m with format := part }
  else if key = "files".toList then
    (asSection "FilesConfig" .empty filesField filesItems value).map fun part =>
      { m with files := part }
  else .error (.unknownField key ["format", "files"])

def decode (text : List Char) : Decoded Manifest :=
  match Toml.read? text with
  | none => .error .malformed
  | some es => es.foldlM (fun m (key, value) => m.field key value) .empty

def read (text : List Char) : Except String Manifest := (decode text).mapError ManifestFault.message

def parseBy (reader : List Char → Except String Manifest) (path : Path) (text : List Char) :
    Except Failure Manifest :=
  (reader text).mapError (.manifest path)

def parse (path : Path) (text : List Char) : Except Failure Manifest := parseBy read path text

end Manifest

end ScratchFormat
