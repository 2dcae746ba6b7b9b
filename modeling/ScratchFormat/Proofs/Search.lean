import ScratchFormat.Project.Walk
import ScratchFormat.Proofs.Paths

/-! The search for files, step by step. What has been found, what the waiting folders still hold and
what is lost in folders that are refused are together the same files after every step, so a search
that ends has found all that it set out to find, whatever order folders are listed in, unless one is
refused. -/

namespace ScratchFormat

namespace Project

def filesBelow (extensions excluded : List (List Char)) (base : Path) : Folder → List Path
  | .empty => []
  | .file name _ rest =>
    let later := filesBelow extensions excluded base rest
    if !excluded.contains (Path.textOf name) && hasExtension extensions name then
      base.join name :: later
    else later
  | .folder name inner rest =>
    let later := filesBelow extensions excluded base rest
    if excluded.contains (Path.textOf name) || skippedFolders.contains (Path.textOf name) then later
    else filesBelow extensions excluded (base.join name) inner ++ later

def filesOfEntry (extensions excluded : List (List Char)) (base : Path) (entry : FileName × Entry) :
    List Path :=
  if excluded.contains (Path.textOf entry.1) then []
  else
    match entry.2 with
    | .folder inner =>
      if skippedFolders.contains (Path.textOf entry.1) then []
      else filesBelow extensions excluded (base.join entry.1) inner
    | .file _ => if hasExtension extensions entry.1 then [base.join entry.1] else []

/-- The files below a folder are those of its entries. -/
theorem filesBelow_eq (extensions excluded : List (List Char)) (base : Path) (d : Folder) :
    filesBelow extensions excluded base d =
      d.entries.flatMap (filesOfEntry extensions excluded base) := by
  induction d with
  | empty => rfl
  | file name content rest ih =>
    rw [filesBelow, Folder.entries, List.flatMap_cons, ← ih, filesOfEntry]
    cases excluded.contains (Path.textOf name) <;> cases hasExtension extensions name <;> rfl
  | folder name inner rest _ ih =>
    rw [filesBelow, Folder.entries, List.flatMap_cons, ← ih, filesOfEntry]
    cases excluded.contains (Path.textOf name) <;> cases skippedFolders.contains
      (Path.textOf name) <;> rfl

/-- No folder is refused. -/
def Listing.Readable (listing : Listing) : Prop :=
  ∀ reading path d, ∃ entries, listing.list reading path d = .ok entries

namespace Walk

def pending (extensions excluded : List (List Char)) (walk : Walk) : List Path :=
  walk.waiting.flatMap fun folder => filesBelow extensions excluded folder.1 folder.2

variable {listing : Listing} {extensions excluded : List (List Char)} {walk next last : Walk}
  {more later lost lost' : List Path}

/-- From one state of a search to another, `more` files come up. Those and the files that were
pending before are put into the list of what has been found, or are pending now, or are `lost`. -/
def BringsUp (extensions excluded : List (List Char)) (walk next : Walk)
    (more lost : List Path) : Prop :=
  ∃ new, next.found = Path.insertAll walk.found new ∧
    (new ++ (lost ++ next.pending extensions excluded)).Perm
    (walk.pending extensions excluded ++ more)

theorem BringsUp.refl (walk : Walk) : BringsUp extensions excluded walk walk [] [] :=
  ⟨[], rfl, by rw [List.nil_append, List.nil_append, List.append_nil]⟩

/-- What two searches bring up one after the other. -/
theorem BringsUp.trans (h : BringsUp extensions excluded walk next more lost)
    (h' : BringsUp extensions excluded next last later lost') :
    BringsUp extensions excluded walk last (more ++ later) (lost ++ lost') := by
  obtain ⟨new, hfound, hperm⟩ := h
  obtain ⟨new', hfound', hperm'⟩ := h'
  refine ⟨new ++ new', ?_, ?_⟩
  · rw [hfound', hfound, Path.insertAll, Path.insertAll, Path.insertAll, List.foldl_append]
  -- the files of both steps are counted, one file at a time
  · apply List.perm_iff_count.mpr
    intro p
    have hcount := hperm.count_eq p
    have hcount' := hperm'.count_eq p
    simp only [List.count_append] at hcount hcount' ⊢
    omega

/-- Looking at an entry brings up its files: a file is found, the files below a folder are
pending. -/
theorem bringsUp_visit (walk : Walk) (base : Path) (entry : FileName × Entry) :
    BringsUp extensions excluded walk (walk.visit extensions excluded base entry)
      (filesOfEntry extensions excluded base entry) [] := by
  obtain ⟨name, what⟩ := entry
  unfold visit filesOfEntry
  split
  · exact .refl walk
  cases what with
  | folder inner =>
    dsimp only
    split
    · exact .refl walk
    · refine ⟨[], rfl, ?_⟩
      simp only [pending, List.flatMap_append, List.flatMap_cons, List.flatMap_nil, List.append_nil,
        List.nil_append]
      exact .refl _
  | file content =>
    dsimp only
    split
    · exact ⟨[base.join name], rfl, List.perm_append_comm⟩
    · exact .refl walk

theorem bringsUp_foldl_visit (walk : Walk) (base : Path) (entries : List (FileName × Entry)) :
    BringsUp extensions excluded walk (entries.foldl (visit extensions excluded base) walk)
      (entries.flatMap (filesOfEntry extensions excluded base)) [] := by
  induction entries generalizing walk with
  | nil => exact .refl walk
  | cons entry entries ih =>
    rw [List.foldl_cons, List.flatMap_cons]
    exact (bringsUp_visit walk base entry).trans (ih _)

/-- Reading a folder brings up nothing: its files were pending. If it is refused they are lost. -/
theorem bringsUp_step? (h : walk.step? listing extensions excluded = some next) :
    ∃ lost, BringsUp extensions excluded walk next [] lost ∧ (listing.Readable → lost = []) := by
  rw [step?] at h
  split at h
  · cases h
  rename_i base d waiting hwaiting
  have hpending : walk.pending extensions excluded =
      filesBelow extensions excluded base d ++
        waiting.flatMap fun folder => filesBelow extensions excluded folder.1 folder.2 := by
    rw [pending, hwaiting, List.flatMap_cons]
  split at h
  · rename_i entries hlist
    cases h
    have hvisits :
        BringsUp extensions excluded { walk with waiting, readings := walk.readings + 1 } _ _ [] :=
      bringsUp_foldl_visit _ base entries
    obtain ⟨new, hfound, hperm⟩ := hvisits
    refine ⟨[], ⟨new, hfound, hperm.trans ?_⟩, fun _ => rfl⟩
    have hread : (entries.flatMap (filesOfEntry extensions excluded base)).Perm
        (filesBelow extensions excluded base d) := by
      rw [filesBelow_eq]
      exact (listing.perm hlist).flatMap_right _
    rw [List.append_nil, hpending]
    exact List.perm_append_comm.trans (hread.append_right _)
  · rename_i fault hlist
    cases h
    refine ⟨filesBelow extensions excluded base d, ⟨[], rfl, ?_⟩, ?_⟩
    · rw [List.nil_append, List.append_nil, hpending]
      exact .refl _
    · intro hreadable
      obtain ⟨entries, hlist'⟩ := hreadable walk.readings base d
      rw [hlist] at hlist'
      cases hlist'

/-- A search brings up all that was pending, but for what is in folders that are refused. -/
theorem bringsUp_run (walk : Walk) :
    ∃ lost, BringsUp extensions excluded walk (walk.run listing extensions excluded) [] lost ∧
      (listing.Readable → lost = []) := by
  induction walk using run.induct listing extensions excluded with
  | case1 walk hstep =>
    rw [run, hstep]
    exact ⟨[], .refl walk, fun _ => rfl⟩
  | case2 walk next hstep ih =>
    rw [run, hstep]
    obtain ⟨lost, hnext, hlost⟩ := bringsUp_step? hstep
    obtain ⟨lost', hlast, hlost'⟩ := ih
    refine ⟨lost ++ lost', hnext.trans hlast, ?_⟩
    intro hreadable
    rw [hlost hreadable, hlost' hreadable, List.append_nil]

/-- A search ends when no folder waits. -/
theorem waiting_run (walk : Walk) : (walk.run listing extensions excluded).waiting = [] := by
  induction walk using run.induct listing extensions excluded with
  | case1 walk hstep =>
    rw [run, hstep]
    -- there is no step to take only if nothing waits
    rw [step?] at hstep
    split at hstep
    · assumption
    · split at hstep <;> cases hstep
  | case2 walk next hstep ih =>
    rw [run, hstep]
    exact ih

/-- A search ends with the files found that were pending, except for those in folders that are
refused. -/
theorem exists_found_run (walk : Walk) :
    ∃ new lost, (walk.run listing extensions excluded).found = Path.insertAll walk.found new ∧
      (new ++ lost).Perm (walk.pending extensions excluded) ∧ (listing.Readable → lost = []) := by
  obtain ⟨lost, ⟨new, hfound, hperm⟩, hlost⟩ := @bringsUp_run listing extensions excluded walk
  have hnone : (walk.run listing extensions excluded).pending extensions excluded = [] := by
    rw [pending, waiting_run, List.flatMap_nil]
  rw [hnone, List.append_nil, List.append_nil] at hperm
  exact ⟨new, lost, hfound, hperm, hlost⟩

end Walk

end Project

end ScratchFormat
