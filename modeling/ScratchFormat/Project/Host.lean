import ScratchFormat.Folder
import ScratchFormat.Manifest

/-! What the commands on a project find outside of themselves: a reader of manifests, the system
that lists folders and names the working folder, the workers of a batch, and the build. -/

namespace ScratchFormat

def Folder.entries : Folder → List (FileName × Entry)
  | empty => []
  | file name content rest => (name, .file content) :: entries rest
  | folder name inner rest => (name, .folder inner) :: entries rest

namespace Project

/-- How a system lists the entries of folders. A folder can be refused, and the order may be another
one each time that it is read. -/
structure Listing where
  list : Nat → Path → Folder → Except FileFault (List (FileName × Entry))
  /-- A folder that is listed shows every entry once. -/
  perm : ∀ {reading path d entries}, list reading path d = .ok entries → entries.Perm d.entries

def Listing.refusing (fault? : Path → Option FileFault) : Listing where
  list _ path d :=
    match fault? path with
    | some fault => .error fault
    | none => .ok d.entries
  perm h := by
    split at h
    · cases h
    · rw [Except.ok.inj h]

structure Host where
  /-- The machine that the program is built for. -/
  target : String
  /-- How many workers a batch has. -/
  workers : Nat
  readManifest : List Char → Except String Manifest
  /-- Why the working folder has no name, if it has none. -/
  workingFault? : Option FileFault
  listing : Listing

/-- A host that refuses nothing and leaves all work to the program itself. -/
def Host.plain : Host where
  target := "x86_64-unknown-linux-gnu"
  workers := 0
  readManifest := Manifest.read
  workingFault? := none
  listing := .refusing fun _ => none

def Host.workingPath (host : Host) (disk : Disk) : Except Failure Path :=
  match host.workingFault? with
  | some fault => .error (.access ".".toList fault)
  | none => .ok disk.workingPath

end Project

end ScratchFormat
