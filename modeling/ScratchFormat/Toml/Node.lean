import ScratchFormat.Decimal.Shortest
import ScratchFormat.Text.Basic

/-! The values of a TOML document, and the rules by which tables grow. -/

namespace ScratchFormat

namespace Toml

inductive Real
  | finite (negative : Bool) (size : Option Binary64)
  | infinite (negative : Bool)
  | undefined
  deriving DecidableEq

inductive Node
  | string (text : List Char)
  | integer (n : Int)
  | real (x : Real)
  | boolean (b : Bool)
  | moment
  | array (items : List Node)
  | inlineTable (entries : List (List Char × Node))
  | table (implicit dotted : Bool) (entries : List (List Char × Node))
  | tables (items : List (List (List Char × Node)))

abbrev Entries := List (List Char × Node)

namespace Entries

def get? (es : Entries) (key : List Char) : Option Node := es.lookup key

def put (es : Entries) (key : List Char) (node : Node) : Entries :=
  if (es.get? key).isSome then es.map fun e => if e.1 = key then (key, node) else e
  else es ++ [(key, node)]

def remove (es : Entries) (key : List Char) : Entries := es.filter fun e => e.1 ≠ key

/-- Changes the table at the end of a path with `f`, which is told whether that table is dotted.
Tables on the way are made as needed; in an array of tables the way goes through the last one. A
dotted key cannot pass through a table that has its own header. -/
def alter? (byKey : Bool) (f : Bool → Entries → Option Entries) (dotted : Bool) (es : Entries) :
    List (List Char) → Option Entries
  | [] => f dotted es
  | key :: path =>
    match es.get? key with
    | none => (alter? byKey f byKey [] path).map fun sub => es.put key (.table true byKey sub)
    | some (.table implicit inner sub) =>
      if byKey && !implicit then none
      else (alter? byKey f inner sub path).map fun sub => es.put key (.table implicit inner sub)
    | some (.tables items) =>
      match items.reverse with
      | [] => none
      | last :: before =>
        (alter? byKey f false last path).map fun last =>
          es.put key (.tables (before.reverse ++ [last]))
    | some _ => none

/-- The entries of the table at the end of the path of a header; a table that is still to be made
has none. -/
def reach? (es : Entries) : List (List Char) → Option Entries
  | [] => some es
  | key :: path =>
    match es.get? key with
    | none => some []
    | some (.table _ _ sub) => reach? sub path
    | some (.tables items) => items.getLast?.bind fun last => reach? last path
    | some _ => none

/-- Adds a value under a dotted key. A key is given one value only, and a table with a header takes
no dotted keys from elsewhere. -/
def insert? (es : Entries) (path : List (List Char)) (key : List Char) (node : Node) :
    Option Entries :=
  alter? true (fun dotted sub =>
    if dotted = path.isEmpty || (sub.get? key).isSome then none else some (sub.put key node))
    false es path

end Entries

structure Draft where
  root : Entries
  current : Entries
  path : List (List Char)
  isArray : Bool

namespace Draft

def empty : Draft := ⟨[], [], [], false⟩

def finish? (d : Draft) : Option Entries :=
  match d.path.reverse with
  | [] => some d.current
  | key :: front =>
    Entries.alter? false (fun _ es =>
      if d.isArray then
        match es.get? key with
        | none => some (es.put key (.tables [d.current]))
        | some (.tables items) => some (es.put key (.tables (items ++ [d.current])))
        | some _ => none
      else
        match es.get? key with
        | none | some (.table true _ _) => some (es.put key (.table false false d.current))
        | some _ => none)
      false d.root front.reverse

/-- Starts the table of a header. One that is there already must be implicit and not dotted; it is
taken up. -/
def startTable? (root : Entries) (path : List (List Char)) : Option Draft :=
  match path.reverse with
  | [] => none
  | key :: front => do
    let parent ← root.reach? front.reverse
    let held ←
      match parent.get? key with
      | none => some []
      | some (.table true false sub) => some sub
      | some _ => none
    let rest ← Entries.alter? false (fun _ es => some (es.remove key)) false root front.reverse
    return ⟨rest, held, path, false⟩

def startElement? (root : Entries) (path : List (List Char)) : Option Draft :=
  match path.reverse with
  | [] => none
  | key :: front => do
    let grown ← Entries.alter? false (fun _ es =>
      match es.get? key with
      | none => some (es.put key (.tables []))
      | some (.tables _) => some es
      | some _ => none) false root front.reverse
    return ⟨grown, [], path, true⟩

end Draft

end Toml

end ScratchFormat
