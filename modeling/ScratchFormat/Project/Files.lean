import ScratchFormat.Journal
import ScratchFormat.Project.Host

/-! The manifest of a project on disk, and the files that the project is made of. -/

namespace ScratchFormat

namespace Project

def manifestName : List Char := "unifmt.toml".toList

def findAbove? (disk : Disk) : List FileName → Option Path
  | [] =>
    let candidate := Path.slash :: Path.ofText manifestName
    if disk.isThere candidate then some candidate else none
  | name :: above =>
    let candidate := Path.join (Path.slash :: Path.ofPieces (name :: above).reverse) manifestName
    if disk.isThere candidate then some candidate else findAbove? disk above

def findManifest? (disk : Disk) : Option Path := findAbove? disk disk.working.reverse

structure Loaded where
  manifest : Option Manifest
  /-- The folder that its relative paths start from. -/
  folder : Option Path
  notes : List Note

/-- Loads the manifest at a path, or in the folder at that path; without a path, the nearest one.
There may be none. -/
def load (disk : Disk) (given : Option (List Char)) (host : Host := .plain) :
    Except Failure Loaded := do
  let place : Option (Path × Option Path) ←
    match given with
    | some text =>
      let path := Path.ofText text
      if (disk.folder? path).isSome then pure (some (path.join manifestName, some path))
      else pure (some (path, path.parent?))
    | none =>
      (host.workingPath disk).map fun _ =>
        (findManifest? disk).map fun path => (path, path.parent?)
  match place with
  | none => return ⟨none, none, []⟩
  | some (path, folder) =>
    let text ← disk.read path
    let manifest ← Manifest.parseBy host.readManifest path text
    return ⟨some manifest, folder, [⟨.debug, "loaded manifest " ++ String.ofList path⟩]⟩

def targets (paths : List Path) (files : FilesSection) (base : Path) : List Path :=
  if !paths.isEmpty then paths
  else if files.included.isEmpty then [base]
  else files.included.map fun text => base.join (Path.ofText text)

def skippedFolders : List (List Char) := [".git", "target", ".unison"].map String.toList

def wantedExtensions (files : FilesSection) : List (List Char) :=
  if files.extensions.isEmpty then [['u']] else files.extensions.map (·.dropWhile (· == '.'))

/-- Whether the name of a file has one of the extensions, in any case. An extension that is no text
counts as the empty one, and so does one that is not there. -/
def hasExtension (extensions : List (List Char)) (name : FileName) : Bool :=
  let own := ((Path.extension? name).elim [] Path.textOf).map toAsciiLower
  extensions.any fun ext => ext.map toAsciiLower = own

end Project

end ScratchFormat
