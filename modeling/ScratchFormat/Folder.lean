import ScratchFormat.Failure

/-! Files and folders as values, and what reading and writing a path does to them. -/

namespace ScratchFormat

inductive Folder
  | empty
  | file (name : FileName) (content : List UInt8) (rest : Folder)
  | folder (name : FileName) (inner rest : Folder)
  deriving DecidableEq

inductive Entry
  | file (content : List UInt8)
  | folder (inner : Folder)
  deriving DecidableEq

namespace Folder

def find? (name : FileName) : Folder → Option Entry
  | empty => none
  | file n content rest => if n = name then some (.file content) else find? name rest
  | folder n inner rest => if n = name then some (.folder inner) else find? name rest

def get? (d : Folder) : List FileName → Option Entry
  | [] => some (.folder d)
  | name :: names =>
    match d.find? name with
    | some (.folder inner) => get? inner names
    | some (.file content) => if names.isEmpty then some (.file content) else none
    | none => none

def put (name : FileName) (entry : Entry) : Folder → Folder
  | empty =>
    match entry with
    | .file content => file name content empty
    | .folder inner => folder name inner empty
  | file n content rest =>
    if n = name then
      match entry with
      | .file new => file name new rest
      | .folder inner => folder name inner rest
    else file n content (put name entry rest)
  | folder n inner rest =>
    if n = name then
      match entry with
      | .file new => file name new rest
      | .folder new => folder name new rest
    else folder n inner (put name entry rest)

def remove (name : FileName) : Folder → Folder
  | empty => empty
  | file n content rest => if n = name then rest else file n content (remove name rest)
  | folder n inner rest => if n = name then rest else folder n inner (remove name rest)

def inner (d : Folder) (name : FileName) : Folder :=
  match d.find? name with
  | some (.folder inner) => inner
  | _ => empty

def store (d : Folder) (content : List UInt8) : List FileName → Folder
  | [] => d
  | [name] => d.put name (.file content)
  | name :: names => d.put name (.folder (store (d.inner name) content names))

def make (d : Folder) : List FileName → Folder
  | [] => d
  | name :: names => d.put name (.folder (make (d.inner name) names))

def erase (d : Folder) : List FileName → Folder
  | [] => d
  | [name] => d.remove name
  | name :: names =>
    match d.find? name with
    | some (.folder inner) => d.put name (.folder (erase inner names))
    | _ => d

def files : Folder → List (List FileName × List UInt8)
  | empty => []
  | file name content rest => ([name], content) :: files rest
  | folder name inner rest => (files inner).map (fun (names, c) => (name :: names, c)) ++ files rest

end Folder

structure Disk where
  root : Folder
  working : List FileName
  deriving DecidableEq

namespace Disk

/-- Follows pieces of a path from a place, given by the names that lead to it. Each piece needs a
folder to start from; two dots lead back. -/
def follow (root : Folder) (place : List FileName) :
    List FileName → Except FileFault (List FileName)
  | [] => .ok place
  | piece :: pieces =>
    match root.get? place with
    | some (.folder d) =>
      if piece = [] ∨ piece = [Path.point] then follow root place pieces
      else if piece = [Path.point, Path.point] then follow root place.dropLast pieces
      else if (d.find? piece).isSome then follow root (place ++ [piece]) pieces
      else .error .notFound
    | some (.file _) => .error .notFolder
    | none => .error .notFound

def start (disk : Disk) (p : Path) : List FileName :=
  if p.isAbsolute then [] else disk.working

def entry (disk : Disk) (p : Path) : Except FileFault Entry :=
  if p.isEmpty then .error .notFound
  else do
    let place ← follow disk.root (disk.start p) (Path.pieces p)
    match disk.root.get? place with
    | some e => return e
    | none => throw .notFound

def isThere (disk : Disk) (p : Path) : Bool := (disk.entry p).toOption.isSome

def folder? (disk : Disk) (p : Path) : Option Folder :=
  match disk.entry p with
  | .ok (.folder d) => some d
  | _ => none

def read (disk : Disk) (p : Path) : Except Failure (List Char) :=
  match disk.entry p with
  | .error fault => .error (.access p fault)
  | .ok (.folder _) => .error (.access p .isFolder)
  | .ok (.file content) =>
    match Utf8.decode? content with
    | some text => .ok text
    | none => .error (.access p .notText)

/-- The place that writing to a path makes a file at. A path that ends in a slash or in dots names a
folder. -/
def target (disk : Disk) (p : Path) : Except FileFault (List FileName) :=
  if p.isEmpty then .error .notFound
  else
    match (Path.pieces p).reverse with
    | [] => .error .notFound
    | last :: front => do
      let pieces := front.reverse
      if last = [] then
        match front.dropWhile List.isEmpty with
        | name :: before =>
          let before :=
            if name = [Path.point] ∨ name = [Path.point, Path.point] then name :: before
            else before
          let _ ← follow disk.root (disk.start p) (before.reverse ++ [[]])
          throw .isFolder
        | [] => throw .isFolder
      else if last = [Path.point] ∨ last = [Path.point, Path.point] then
        let _ ← follow disk.root (disk.start p) (Path.pieces p)
        throw .isFolder
      else
        let place ← follow disk.root (disk.start p) (pieces ++ [[]])
        match disk.root.get? (place ++ [last]) with
        | some (.folder _) => throw .isFolder
        | _ => return place ++ [last]

def write (disk : Disk) (p : Path) (text : List Char) : Except Failure Disk :=
  match disk.target p with
  | .error fault => .error (.access p fault)
  | .ok place => .ok { disk with root := disk.root.store (Utf8.encode text) place }

def workingPath (disk : Disk) : Path := Path.slash :: Path.ofPieces disk.working

end Disk

end ScratchFormat
