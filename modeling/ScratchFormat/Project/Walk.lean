import ScratchFormat.Project.Files

/-! How the files below a folder are found. Folders wait in a queue; the one that has waited longest
is read, its folders join the queue, and its wanted files are put into order with those found
before. In which order the disk lists the entries of a folder is left open. -/

namespace ScratchFormat

namespace Folder

def extent : Folder → Nat
  | empty => 1
  | file _ _ rest => extent rest
  | folder _ inner rest => extent inner + extent rest

end Folder

def Entry.extent : Entry → Nat
  | .file _ => 0
  | .folder inner => inner.extent

def weigh {α : Type} (weight : α → Nat) : List α → Nat
  | [] => 0
  | a :: as => weight a + weigh weight as

theorem weigh_append {α : Type} (weight : α → Nat) (as bs : List α) :
    weigh weight (as ++ bs) = weigh weight as + weigh weight bs := by
  induction as with
  | nil => rw [List.nil_append, weigh, Nat.zero_add]
  | cons a as ih => rw [List.cons_append, weigh, weigh, ih, Nat.add_assoc]

theorem weigh_of_perm {α : Type} (weight : α → Nat) {as bs : List α} (h : as.Perm bs) :
    weigh weight as = weigh weight bs := by
  induction h with
  | nil => rfl
  | cons a _ ih => rw [weigh, weigh, ih]
  | swap a b as =>
    simp only [weigh]
    omega
  | trans _ _ ih₁ ih₂ => rw [ih₁, ih₂]

theorem Folder.extent_eq (d : Folder) :
    d.extent = 1 + weigh (fun entry => entry.2.extent) d.entries := by
  induction d with
  | empty => rfl
  | file name content rest ih => rw [extent, entries, weigh, ih, Entry.extent, Nat.zero_add]
  | folder name inner rest _ ih =>
    rw [extent, entries, weigh, ih, Entry.extent]
    omega

namespace Project

structure Walk where
  /-- The files found so far, in order. -/
  found : List Path
  /-- The folders that are still to be read, with their paths. -/
  waiting : List (Path × Folder)
  /-- How many folders have been read, or refused. -/
  readings : Nat
  notes : List Note

namespace Walk

def start : Walk := ⟨[], [], 0, []⟩

def visit (extensions excluded : List (List Char)) (path : Path) (walk : Walk)
    (entry : FileName × Entry) : Walk :=
  if excluded.contains (Path.textOf entry.1) then walk
  else
    match entry.2 with
    | .folder inner =>
      if skippedFolders.contains (Path.textOf entry.1) then walk
      else { walk with waiting := walk.waiting ++ [(path.join entry.1, inner)] }
    | .file _ =>
      if hasExtension extensions entry.1 then
        { walk with found := Path.insertOrdered (path.join entry.1) walk.found }
      else walk

def skippedNote (path : Path) (fault : FileFault) : Note :=
  ⟨.warn, "skipping " ++ String.ofList path ++ ": " ++ fault.message⟩

/-- Reads the folder that has waited longest, or goes on without it. -/
def step? (listing : Listing) (extensions excluded : List (List Char)) (walk : Walk) :
    Option Walk :=
  match walk.waiting with
  | [] => none
  | (path, d) :: waiting =>
    match listing.list walk.readings path d with
    | .ok entries =>
      some (entries.foldl (visit extensions excluded path)
        { walk with waiting, readings := walk.readings + 1 })
    | .error fault =>
      some { walk with
        waiting, readings := walk.readings + 1, notes := walk.notes ++ [skippedNote path fault] }

def left (walk : Walk) : Nat := weigh (fun folder => folder.2.extent) walk.waiting

variable {listing : Listing} {extensions excluded : List (List Char)} {walk next : Walk}

/-- An entry that is looked at adds no more folders than it stands for. -/
theorem left_visit_le (path : Path) (entry : FileName × Entry) :
    (walk.visit extensions excluded path entry).left ≤ walk.left + entry.2.extent := by
  unfold visit
  split
  · omega
  split
  · rename_i inner hentry
    rw [hentry]
    split
    · omega
    · simp only [left, weigh_append, weigh, Entry.extent]
      omega
  · split
    · simp only [left]
      omega
    · omega

theorem left_foldl_visit_le (path : Path) (entries : List (FileName × Entry)) :
    (entries.foldl (visit extensions excluded path) walk).left ≤
      walk.left + weigh (fun entry => entry.2.extent) entries := by
  induction entries generalizing walk with
  | nil => exact Nat.le_refl _
  | cons entry entries ih =>
    have hfirst : (walk.visit extensions excluded path entry).left ≤ walk.left + entry.2.extent :=
      left_visit_le path entry
    have hrest := @ih (walk.visit extensions excluded path entry)
    rw [List.foldl_cons, weigh]
    omega

/-- A folder that is read is no longer counted; those below it may join the queue. -/
theorem left_step?_lt (h : walk.step? listing extensions excluded = some next) :
    next.left < walk.left := by
  rw [step?] at h
  split at h
  · cases h
  · rename_i path d waiting hwaiting
    have hleft : walk.left = d.extent + weigh (fun folder => folder.2.extent) waiting := by
      rw [left, hwaiting, weigh]
    have hextent := Folder.extent_eq d
    split at h
    · rename_i entries hlist
      cases h
      apply Nat.lt_of_le_of_lt (left_foldl_visit_le path _)
      rw [weigh_of_perm _ (listing.perm hlist), hleft]
      simp only [left]
      omega
    · cases h
      rw [hleft]
      simp only [left]
      omega

def run (listing : Listing) (extensions excluded : List (List Char)) (walk : Walk) : Walk :=
  match _h : walk.step? listing extensions excluded with
  | none => walk
  | some next => run listing extensions excluded next
termination_by walk.left
decreasing_by exact left_step?_lt _h

def addTarget (listing : Listing) (disk : Disk) (files : FilesSection) (walk : Walk)
    (target : Path) : Walk :=
  match disk.folder? target with
  | some d =>
    run listing (wantedExtensions files) files.excluded { walk with waiting := [(target, d)] }
  | none => { walk with found := Path.insertOrdered target walk.found }

end Walk

def search (listing : Listing) (disk : Disk) (files : FilesSection) (targets : List Path) : Walk :=
  targets.foldl (Walk.addTarget listing disk files) .start

def collectBy (listing : Listing) (disk : Disk) (files : FilesSection)
    (targets : List Path) : List Path :=
  (search listing disk files targets).found

def collect (disk : Disk) (files : FilesSection) (targets : List Path) : List Path :=
  collectBy Host.plain.listing disk files targets

end Project

end ScratchFormat
