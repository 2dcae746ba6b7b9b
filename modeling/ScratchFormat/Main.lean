import ScratchFormat.Project.Run

/-! The command line. It takes a picture of the files that a command can reach, runs the command on
it, and carries out what the command has written. -/

namespace ScratchFormat

namespace CommandLine

def namesOf (working : List FileName) (p : Path) : List FileName :=
  (Path.pieces p).foldl (fun place piece =>
    if piece = [] ∨ piece = [Path.point] then place
    else if piece = [Path.point, Path.point] then place.dropLast
    else place ++ [piece]) (if p.isAbsolute then [] else working)

def textOf (names : List FileName) : String :=
  String.ofList (Path.shown (Path.slash :: Path.ofPieces names))

def bytesOf? (text : String) : IO (Option (List UInt8)) := do
  try
    return some (← IO.FS.readBinFile text).toList
  catch _ => return none

/-- Adds what is at a place to a picture: a file with its bytes, or a folder without its entries. -/
def addEntry (root : Folder) (names : List FileName) : IO Folder := do
  -- an absolute path stays as it is behind another one
  let place := (← IO.appPath) / textOf names
  if ← place.isDir then return root.make names
  match ← bytesOf? (textOf names) with
  | some bytes => return root.store bytes names
  | none => return root

def addPath (working : List FileName) (root : Folder) (p : Path) : IO Folder := do
  let pieces := Path.pieces p
  let mut root ← addEntry root (if p.isAbsolute then [] else working)
  for n in List.range pieces.length do
    let front := Path.ofPieces (pieces.take (n + 1))
    root ← addEntry root (namesOf working front)
  return root

def faultOf : IO.Error → FileFault
  | .noFileOrDirectory .. => .notFound
  | .permissionDenied .. => .other "Permission denied (os error 13)"
  | error => .other (toString error)

structure Picture where
  root : Folder
  /-- The folders that could not be listed. -/
  refused : List (List FileName × FileFault)

def addBelow : Nat → Picture → List FileName → IO Picture
  | 0, picture, _ => return picture
  | depth + 1, picture, names => do
    let place := (← IO.appPath) / textOf names
    if !(← place.isDir) then return picture
    let mut picture := picture
    try
      for entry in ← place.readDir do
        let inner := names ++ [Path.ofText entry.fileName.toList]
        picture := { picture with root := ← addEntry picture.root inner }
        if !Project.skippedFolders.contains entry.fileName.toList then
          picture ← addBelow depth picture inner
    catch error =>
      picture := { picture with refused := (names, faultOf error) :: picture.refused }
    return picture

def maxDepth : Nat := 256

def knownVariables : List String :=
  ["UNIFMT_LOG", "NO_COLOR", "UNIFMT_COLOR_FORCE_TTY", "UNIFMT_FORMAT_INDENT_UNIT",
   "UNIFMT_FORMAT_USE_SPACES"]

def environment : IO Environment := do
  let found ← knownVariables.mapM fun name => do
    return (← IO.getEnv name).map fun value => (name.toList, value.toList)
  return found.filterMap id

def pictureSingle (working : List FileName) (args : List (List Char)) : IO Folder := do
  match Single.parse args with
  | .ok a => (a.paths.map Path.ofText).foldlM (addPath working) (← addEntry .empty working)
  | .error _ => addEntry .empty working

/-- A picture for a command on a project: the manifests above the working folder, then all that the
targets hold. -/
def pictureProject (working : List FileName) (args : List (List Char)) : IO Picture := do
  let mut root ← addEntry .empty working
  for n in List.range (working.length + 1) do
    root ← addEntry root (working.take n ++ [Path.ofText Project.manifestName])
  match Project.parse .check (args.drop 1) with
  | .error _ => return ⟨root, []⟩
  | .ok a =>
    if let some text := a.manifestPath then
      let path := Path.ofText text
      root ← addPath working root path
      root ← addPath working root (path.join Project.manifestName)
    let disk : Disk := ⟨root, working⟩
    let (files, base) :=
      match Project.load disk a.manifestPath with
      | .ok loaded =>
        ((loaded.manifest.getD .empty).files, loaded.folder.getD disk.workingPath)
      | .error _ => (.empty, disk.workingPath)
    let mut picture : Picture := ⟨root, []⟩
    for target in Project.targets (a.paths.map Path.ofText) files base do
      picture := { picture with root := ← addPath working picture.root target }
      picture ← addBelow maxDepth picture (namesOf working target)
    return picture

def carryOut (before after : Folder) : IO Unit :=
  after.files.forM fun (names, content) => do
    if before.get? names ≠ some (.file content) then
      IO.FS.writeBinFile (textOf names) ⟨content.toArray⟩

def workingNames : IO (Except FileFault (List FileName)) := do
  try
    let path := Path.ofText (← IO.currentDir).toString.toList
    return .ok ((Path.pieces path).filter (!·.isEmpty))
  catch error => return .error (faultOf error)

def hostOf (working : Except FileFault (List FileName)) (picture : Picture) : Project.Host :=
  { Project.Host.plain with
    workingFault? :=
      match working with
      | .error fault => some fault
      | .ok _ => none
    listing :=
      .refusing fun path => picture.refused.lookup (namesOf (working.toOption.getD []) path) }

/-- Runs one of the two tools, told apart by the name that the program is called by. -/
def run (single : Bool) (args : List (List Char)) : IO UInt32 := do
  let found ← workingNames
  let working := found.toOption.getD []
  let picture ←
    if single then pure ⟨← pictureSingle working args, []⟩ else pictureProject working args
  let wantsInput := single && (Single.parse args).toOption.any (·.stdin)
  let input ← if wantsInput then (← IO.getStdin).readBinToEnd else pure .empty
  let m : Machine :=
    ⟨⟨picture.root, working⟩, ← environment, input.toList, ← (← IO.getStderr).isTty, [], []⟩
  let (m, code) := if single then Single.run m args else Project.run m args (hostOf found picture)
  carryOut picture.root m.disk.root
  IO.print (String.ofList m.out)
  IO.eprint (String.ofList m.err)
  return UInt32.ofNat code

end CommandLine

end ScratchFormat

def main (args : List String) : IO UInt32 := do
  let name := (← IO.appPath).fileName.getD ""
  ScratchFormat.CommandLine.run (name == "unifmtc") (args.map String.toList)
