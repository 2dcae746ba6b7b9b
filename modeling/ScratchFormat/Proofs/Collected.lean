import ScratchFormat.Proofs.Disk
import ScratchFormat.Proofs.Search

/-! Which files a search finds. They are told apart by the names that lead to them: the files below
a target of which no name is excluded, with no folder on the way that is never entered, and with an
extension that is wanted. On a disk no two ways lead to one of them, so neither the order in which
the disk lists entries nor the way of the search shows in what is collected.

Names are bytes, and what a manifest excludes and looks for are texts. A name that is no text, and
an extension that is none or that is not there, count as the empty text. So the files that are
collected are the wanted ones just where the manifest does not name the empty text. -/

namespace ScratchFormat

namespace Folder

/-- A folder as a disk can have it: names are names of entries, and no folder has two entries of one
name. -/
def Proper : Folder → Prop
  | empty => True
  | file name _ rest => Path.IsName name ∧ rest.find? name = none ∧ rest.Proper
  | folder name inner rest => Path.IsName name ∧ rest.find? name = none ∧ inner.Proper ∧ rest.Proper

instance decidableProper : (d : Folder) → Decidable d.Proper
  | empty => .isTrue trivial
  | file name _ rest =>
    have := decidableProper rest
    inferInstanceAs (Decidable (Path.IsName name ∧ rest.find? name = none ∧ rest.Proper))
  | folder name inner rest =>
    have := decidableProper inner
    have := decidableProper rest
    inferInstanceAs
      (Decidable (Path.IsName name ∧ rest.find? name = none ∧ inner.Proper ∧ rest.Proper))

/-- What holds of a folder if it holds of the folders in it holds of every folder. -/
theorem induction_inner {motive : Folder → Prop}
    (h : ∀ d, (∀ name inner, (name, Entry.folder inner) ∈ d.entries → motive inner) → motive d)
    (d : Folder) : motive d := by
  suffices hinner : ∀ name inner, (name, Entry.folder inner) ∈ d.entries →
      motive inner from h d hinner
  induction d with
  | empty => exact fun name inner hmem => absurd hmem List.not_mem_nil
  | file m content rest ih =>
    intro name inner hmem
    rcases List.mem_cons.mp hmem with heq | hmem
    · cases heq
    · exact ih name inner hmem
  | folder m inner' rest ihinner ihrest =>
    intro name inner hmem
    rcases List.mem_cons.mp hmem with heq | hmem
    · cases heq
      exact h inner' ihinner
    · exact ihrest name inner hmem

/-- Folders entry by entry, files and folders alike: what the first entry is, what it is found by,
and what is asked of it. -/
theorem induction_entries {motive : Folder → Prop} (hempty : motive empty)
    (hentry : ∀ d name entry rest, d.entries = (name, entry) :: rest.entries →
      (∀ n, d.find? n = if name = n then some entry else rest.find? n) →
      (d.Proper → Path.IsName name ∧ rest.find? name = none ∧
        (∀ inner, entry = .folder inner → inner.Proper) ∧ rest.Proper) →
      motive rest → motive d) (d : Folder) : motive d := by
  induction d with
  | empty => exact hempty
  | file name content rest ih =>
    apply hentry _ name (.file content) rest rfl (fun _ => rfl) _ ih
    rintro ⟨hname, hfresh, hrest⟩
    exact ⟨hname, hfresh, (fun inner heq => nomatch heq), hrest⟩
  | folder name inner rest _ ih =>
    apply hentry _ name (.folder inner) rest rfl (fun _ => rfl) _ ih
    rintro ⟨hname, hfresh, hinner, hrest⟩
    exact ⟨hname, hfresh, fun inner' heq => Entry.folder.inj heq ▸ hinner, hrest⟩

variable {d inner : Folder} {name : FileName} {entry : Entry} {names : List FileName}

theorem mem_entries_of_find? (h : d.find? name = some entry) : (name, entry) ∈ d.entries := by
  induction d using induction_entries with
  | hempty => cases h
  | hentry d first entry' rest hentries hfind _ ih =>
    rw [hfind] at h
    rw [hentries]
    split at h
    · rename_i hname
      cases h
      rw [hname]
      exact List.mem_cons_self
    · exact List.mem_cons_of_mem _ (ih h)

theorem get?_cons (d : Folder) (name : FileName) (names : List FileName) :
    d.get? (name :: names) = (d.find? name).bind fun entry =>
      match entry with
      | .folder inner => inner.get? names
      | .file content => if names.isEmpty then some (.file content) else none := by
  rw [get?]
  cases d.find? name with
  | none => rfl
  | some entry => cases entry <;> rfl

namespace Proper

/-- What is asked of a folder is asked of the entries in it, one by one; each is found by its
name. -/
theorem of_mem (h : d.Proper) (hmem : (name, entry) ∈ d.entries) :
    Path.IsName name ∧ d.find? name = some entry ∧ ∀ inner, entry = .folder inner →
      inner.Proper := by
  induction d using induction_entries with
  | hempty => exact absurd hmem List.not_mem_nil
  | hentry d first entry' rest hentries hfind hproper ih =>
    obtain ⟨hname, hfresh, hinner, hrest⟩ := hproper h
    rw [hentries] at hmem
    rw [hfind]
    rcases List.mem_cons.mp hmem with heq | hmem
    · cases heq
      exact ⟨hname, if_pos rfl, hinner⟩
    · obtain ⟨hname', hlater, hinner'⟩ := ih hrest hmem
      -- a later entry has another name, or that name would not be new
      have hne : first ≠ name := by
        rintro rfl
        rw [hfresh] at hlater
        cases hlater
      exact ⟨hname', by rw [if_neg hne, hlater], hinner'⟩

/-- Names that lead somewhere are names of entries, and a folder that they lead to is one as a disk
can have it. -/
theorem get? (h : d.Proper) (hget : d.get? names = some entry) :
    (∀ name ∈ names, Path.IsName name) ∧ ∀ inner, entry = .folder inner → inner.Proper := by
  induction names generalizing d with
  | nil =>
    cases hget
    refine ⟨fun name hmem => absurd hmem List.not_mem_nil, ?_⟩
    rintro inner heq
    cases heq
    exact h
  | cons name names ih =>
    rw [get?_cons] at hget
    obtain ⟨first, hfind, hget⟩ := Option.bind_eq_some_iff.mp hget
    obtain ⟨hname, -, hinner⟩ := h.of_mem (mem_entries_of_find? hfind)
    cases first with
    | folder inner =>
      obtain ⟨hnames, hentry⟩ := ih (hinner inner rfl) hget
      exact ⟨List.forall_mem_cons.mpr ⟨hname, hnames⟩, hentry⟩
    | file content =>
      simp only [List.isEmpty_iff] at hget
      split at hget
      · rename_i hnil
        cases hget
        subst hnil
        exact ⟨List.forall_mem_singleton.mpr hname, fun inner heq => nomatch heq⟩
      · cases hget

end Proper

end Folder

/-- A folder that a path leads to on a proper disk is proper. -/
theorem Disk.proper_of_folder? {disk : Disk} {p : Path} {d : Folder} (h : disk.root.Proper)
    (hfolder : disk.folder? p = some d) : p ≠ [] ∧ d.Proper := by
  have hentry : disk.entry p = .ok (.folder d) := by
    rw [folder?] at hfolder
    split at hfolder
    · rename_i inner hentry
      rw [hentry, Option.some.inj hfolder]
    · cases hfolder
  obtain ⟨place, hplace⟩ := exists_leadsTo hentry
  have hne : p ≠ [] := by
    rintro rfl
    cases hplace.1
  rw [entry_eq hplace] at hentry
  split at hentry
  · rename_i entry hget
    exact ⟨hne, (h.get? hget).2 d (Except.ok.inj hentry)⟩
  · cases hentry

namespace Project

def IsText (name : FileName) : Prop := ∃ text, name = Path.ofText text

def IsExcluded (files : FilesSection) (name : FileName) : Prop :=
  ∃ text ∈ files.excluded, name = Path.ofText text

def IsSkipped (name : FileName) : Prop := ∃ text ∈ skippedFolders, name = Path.ofText text

/-- The extension of a name is what stands after its last point, if something stands before that
point. Other names have none. -/
def IsExtension (name ext : FileName) : Prop :=
  ∃ stem, stem ≠ [] ∧ Path.point ∉ ext ∧ name = stem ++ Path.point :: ext

/-- An extension is looked for if it is one of those in the manifest, points before it left out; if
there are none, `u` is. -/
def IsConfigured (files : FilesSection) (ext : List Char) : Prop :=
  (files.extensions = [] ∧ ext = ['u']) ∨
    ∃ points, (∀ c ∈ points, c = '.') ∧ ext.head? ≠ some '.' ∧ points ++ ext ∈ files.extensions

/-- Whether a file of this name has an extension that is looked for; capitals and small letters of
ASCII are alike. -/
def HasWantedExtension (files : FilesSection) (name : FileName) : Prop :=
  ∃ own ext, IsExtension name (Path.ofText own) ∧ IsConfigured files ext ∧
    own.map toAsciiLower = ext.map toAsciiLower

/-- A search takes a name for an excluded one also if the empty text is excluded and the name is no
text. -/
def CountsAsExcluded (files : FilesSection) (name : FileName) : Prop :=
  IsExcluded files name ∨ [] ∈ files.excluded ∧ ¬ IsText name

/-- A search takes a file for a wanted one also if the empty extension is looked for and the file
has no extension that is a text. -/
def CountsAsWanted (files : FilesSection) (name : FileName) : Prop :=
  HasWantedExtension files name ∨
    IsConfigured files [] ∧ ∀ own, ¬ IsExtension name (Path.ofText own)

section Names

variable {files : FilesSection} {name ext : FileName} {text : List Char}

theorem decode?_eq_some_iff_ofText : Utf8.decode? name = some text ↔ name = Path.ofText text :=
  Utf8.decode?_eq_some_iff

theorem isText_iff : IsText name ↔ ∃ text, Utf8.decode? name = some text := by
  simp only [IsText, decode?_eq_some_iff_ofText]

/-- A name is compared as its text, or as the empty text if it has none. -/
theorem textOf_eq_iff : Path.textOf name = text ↔ name = Path.ofText text ∨
    text = [] ∧ ¬ IsText name := by
  rw [Path.textOf, isText_iff, ← decode?_eq_some_iff_ofText]
  cases Utf8.decode? name <;> simp [eq_comm]

/-- A name counts as one of some texts if it is that of one of them, or if it is no text and the
empty one is among them. -/
theorem textOf_mem_iff {texts : List (List Char)} : Path.textOf name ∈ texts ↔
    (∃ text ∈ texts, name = Path.ofText text) ∨ [] ∈ texts ∧ ¬ IsText name := by
  constructor
  · intro hmem
    rcases textOf_eq_iff.mp (Eq.refl (Path.textOf name)) with hname | ⟨hnil, hname⟩
    · exact .inl ⟨_, hmem, hname⟩
    · exact .inr ⟨hnil ▸ hmem, hname⟩
  · rintro (⟨text, hmem, hname⟩ | ⟨hmem, hname⟩)
    · rwa [textOf_eq_iff.mpr (.inl hname)]
    · rwa [textOf_eq_iff.mpr (.inr ⟨rfl, hname⟩)]

theorem countsAsExcluded_iff : Path.textOf name ∈ files.excluded ↔ CountsAsExcluded files name :=
  textOf_mem_iff

/-- The folders that are never entered have names that are not empty, so no other name counts as one
of them. -/
theorem isSkipped_iff : Path.textOf name ∈ skippedFolders ↔ IsSkipped name := by
  have hnil : [] ∉ skippedFolders := by decide
  rw [textOf_mem_iff, IsSkipped]
  simp only [hnil, false_and, or_false]

theorem exists_last_point (h : Path.point ∈ name) :
    ∃ stem ext, Path.point ∉ ext ∧ name = stem ++ Path.point :: ext := by
  obtain ⟨back, front, hname, hback⟩ := List.eq_append_cons_of_mem (List.mem_reverse.mpr h)
  refine ⟨front.reverse, back.reverse, fun hmem => hback (List.mem_reverse.mp hmem), ?_⟩
  calc name = name.reverse.reverse := (List.reverse_reverse name).symm
    _ = (back ++ Path.point :: front).reverse := by rw [hname]
    _ = front.reverse ++ Path.point :: back.reverse := by
      rw [List.reverse_append, List.reverse_cons, List.append_assoc, List.singleton_append]

/-- The extension is what stands behind the last point that is not the first character. -/
theorem isExtension_iff : IsExtension name ext ↔ Path.extension? name = some ext := by
  constructor
  · rintro ⟨stem, hstem, hext, rfl⟩
    rw [Path.extension?_append hext, if_neg hstem]
  · intro h
    by_cases hpoint : Path.point ∈ name
    · obtain ⟨stem, rest, hrest, rfl⟩ := exists_last_point hpoint
      rw [Path.extension?_append hrest] at h
      split at h
      · cases h
      · rename_i hstem
        cases h
        exact ⟨stem, hstem, hrest, rfl⟩
    · rw [Path.extension?_of_not_mem hpoint] at h
      cases h

/-- The extensions that are looked for are those of the manifest without the points in front, or
else `u`. -/
theorem mem_wantedExtensions_iff {ext : List Char} :
    ext ∈ wantedExtensions files ↔ IsConfigured files ext := by
  rw [wantedExtensions, IsConfigured]
  split
  · rename_i hnone
    rw [List.isEmpty_iff.mp hnone]
    simp
  · rename_i hsome
    have hnone : files.extensions ≠ [] := fun hnil => hsome (List.isEmpty_iff.mpr hnil)
    simp only [hnone, false_and, false_or, List.mem_map]
    constructor
    · rintro ⟨given, hgiven, rfl⟩
      refine ⟨given.takeWhile (· == '.'), ?_, ?_, ?_⟩
      · intro c hc
        exact beq_iff_eq.mp (List.all_eq_true.mp List.all_takeWhile c hc)
      · have hhead := List.head?_dropWhile_not (· == '.') given
        intro heq
        rw [heq] at hhead
        cases hhead
      · rwa [List.takeWhile_append_dropWhile]
    · rintro ⟨points, hpoints, hhead, hmem⟩
      refine ⟨points ++ ext, hmem, ?_⟩
      rw [List.dropWhile_append_of_pos fun c hc => beq_iff_eq.mpr (hpoints c hc)]
      cases ext with
      | nil => rfl
      | cons c cs =>
        apply List.dropWhile_cons_of_neg
        simpa using hhead

theorem hasExtension_wantedExtensions_iff : hasExtension (wantedExtensions files) name = true ↔
    ∃ ext, IsConfigured files ext ∧
      ext.map toAsciiLower = ((Path.extension? name).elim [] Path.textOf).map toAsciiLower := by
  simp only [hasExtension, List.any_eq_true, decide_eq_true_eq, mem_wantedExtensions_iff]

theorem hasWantedExtension_iff : HasWantedExtension files name ↔
    ∃ own ext, Path.extension? name = some (Path.ofText own) ∧ IsConfigured files ext ∧
      own.map toAsciiLower = ext.map toAsciiLower := by
  simp only [HasWantedExtension, isExtension_iff]

/-- An extension is compared as its text, or as the empty text if it has none or is not there. -/
theorem hasExtension_iff : hasExtension (wantedExtensions files) name = true ↔
    CountsAsWanted files name := by
  have hempty : (∃ ext, IsConfigured files ext ∧ ext.map toAsciiLower = [].map toAsciiLower) ↔
      IsConfigured files [] := by
    simp [List.map_eq_nil_iff]
  rw [hasExtension_wantedExtensions_iff, CountsAsWanted, hasWantedExtension_iff]
  simp only [isExtension_iff]
  cases hext : Path.extension? name with
  | none => simp
  | some ext =>
    rw [Option.elim_some]
    by_cases htext : IsText ext
    · obtain ⟨own, rfl⟩ := htext
      rw [textOf_eq_iff.mpr (.inl rfl)]
      constructor
      · rintro ⟨ext, hconfigured, heq⟩
        exact .inl ⟨own, ext, rfl, hconfigured, heq.symm⟩
      · rintro (⟨own', ext, hown, hconfigured, heq⟩ | ⟨-, hnone⟩)
        · obtain rfl := Utf8.encode_injective (Option.some.inj hown)
          exact ⟨ext, hconfigured, heq.symm⟩
        · exact absurd rfl (hnone own)
    · rw [textOf_eq_iff.mpr (.inr ⟨rfl, htext⟩), hempty]
      constructor
      · intro hconfigured
        exact .inr ⟨hconfigured, fun own hown => htext ⟨own, Option.some.inj hown⟩⟩
      · rintro (⟨own, ext', hown, -, -⟩ | ⟨hconfigured, -⟩)
        · exact absurd ⟨own, Option.some.inj hown⟩ htext
        · exact hconfigured

end Names

/-- Names that lead from a folder to a file: none is excluded, no folder on the way is one of those
that are never entered, and the last one is wanted. -/
structure Selects (excluded wanted : FileName → Prop) (d : Folder)
    (names : List FileName) : Prop where
  isFile : ∃ content, d.get? names = some (.file content)
  included : ∀ name ∈ names, ¬ excluded name
  entered : ∀ name ∈ names.dropLast, ¬ IsSkipped name
  named : ∀ name ∈ names.getLast?, wanted name

section Selects

variable {files : FilesSection} {excluded wanted : FileName → Prop} {d inner : Folder}
    {name : FileName}
  {names : List FileName} {content : List UInt8} {base p : Path}

theorem not_selects_nil : ¬ Selects excluded wanted d [] := by
  rintro ⟨⟨content, hget⟩, -, -, -⟩
  cases hget

/-- A file is selected by its own name. -/
theorem selects_file_iff (hfind : d.find? name = some (.file content)) :
    Selects excluded wanted d (name :: names) ↔ names = [] ∧ ¬ excluded name ∧ wanted name := by
  constructor
  · rintro ⟨⟨content', hget⟩, hincluded, -, hnamed⟩
    rw [Folder.get?_cons, hfind, Option.bind_some] at hget
    cases names with
    | nil => exact ⟨rfl, hincluded name List.mem_cons_self, hnamed name rfl⟩
    | cons name' names => cases hget
  · rintro ⟨rfl, hincluded, hnamed⟩
    refine ⟨⟨content, ?_⟩, List.forall_mem_singleton.mpr hincluded,
      fun name' hmem => absurd hmem List.not_mem_nil, fun name' hmem => ?_⟩
    · rw [Folder.get?_cons, hfind]
      rfl
    · cases hmem
      exact hnamed

/-- What is selected below a folder is selected from above if the folder is entered. -/
theorem selects_folder_iff (hfind : d.find? name = some (.folder inner)) :
    Selects excluded wanted d (name :: names) ↔
      ¬ excluded name ∧ ¬ IsSkipped name ∧ Selects excluded wanted inner names := by
  have hget : d.get? (name :: names) = inner.get? names := by
    rw [Folder.get?_cons, hfind, Option.bind_some]
  have hnil : names = [] → ¬ ∃ content, inner.get? names = some (.file content) := by
    rintro rfl ⟨content, hget⟩
    cases hget
  constructor
  · rintro ⟨hfile, hincluded, hentered, hnamed⟩
    rw [hget] at hfile
    obtain ⟨next, rest, rfl⟩ := List.exists_cons_of_ne_nil fun h => hnil h hfile
    rw [List.dropLast_cons_of_ne_nil (List.cons_ne_nil next rest)] at hentered
    obtain ⟨hname, hnames⟩ := List.forall_mem_cons.mp hincluded
    obtain ⟨hskipped, hentered⟩ := List.forall_mem_cons.mp hentered
    exact ⟨hname, hskipped, hfile, hnames, hentered, hnamed⟩
  · rintro ⟨hname, hskipped, hfile, hnames, hentered, hnamed⟩
    obtain ⟨next, rest, rfl⟩ := List.exists_cons_of_ne_nil fun h => hnil h hfile
    refine ⟨by rwa [hget], List.forall_mem_cons.mpr ⟨hname, hnames⟩, ?_, hnamed⟩
    rw [List.dropLast_cons_of_ne_nil (List.cons_ne_nil next rest)]
    exact List.forall_mem_cons.mpr ⟨hskipped, hentered⟩

/-- The files of an entry are those that names select which begin with its own, if this holds below
it. -/
theorem mem_filesOfEntry_iff {entry : Entry} (hfind : d.find? name = some entry)
    (hinner : ∀ inner, entry = .folder inner → ∀ base,
      (p ∈ filesBelow (wantedExtensions files) files.excluded base inner ↔
        ∃ names, Selects (CountsAsExcluded files) (CountsAsWanted files) inner names ∧
          p = names.foldl Path.join base)) :
    p ∈ filesOfEntry (wantedExtensions files) files.excluded base (name, entry) ↔
      ∃ names, Selects (CountsAsExcluded files) (CountsAsWanted files) d (name :: names) ∧
        p = names.foldl Path.join (base.join name) := by
  cases entry with
  | file content =>
    simp only [selects_file_iff hfind, ← hasExtension_iff, ← countsAsExcluded_iff, filesOfEntry,
      List.contains_iff_mem]
    by_cases hexcluded : Path.textOf name ∈ files.excluded
    · simp [hexcluded]
    · by_cases hext : hasExtension (wantedExtensions files) name = true <;> simp [hexcluded, hext]
  | folder inner =>
    simp only [selects_folder_iff hfind, ← countsAsExcluded_iff, ← isSkipped_iff, filesOfEntry,
      List.contains_iff_mem]
    by_cases hexcluded : Path.textOf name ∈ files.excluded
    · simp [hexcluded]
    · by_cases hskipped : Path.textOf name ∈ skippedFolders <;>
        simp [hexcluded, hskipped, hinner inner rfl]

/-- The files below a folder are those that some names select. -/
theorem mem_filesBelow_iff (h : d.Proper) :
    p ∈ filesBelow (wantedExtensions files) files.excluded base d ↔
      ∃ names, Selects (CountsAsExcluded files)
      (CountsAsWanted files) d names ∧ p = names.foldl Path.join base := by
  induction d using Folder.induction_inner generalizing base with
  | h d ih =>
    have hentry : ∀ {name entry}, d.find? name = some entry →
        (p ∈ filesOfEntry (wantedExtensions files) files.excluded base (name, entry) ↔
          ∃ names, Selects (CountsAsExcluded files) (CountsAsWanted files) d (name :: names) ∧
            p = names.foldl Path.join (base.join name)) := by
      intro name entry hfind
      apply mem_filesOfEntry_iff hfind
      rintro inner rfl base
      have hmem := Folder.mem_entries_of_find? hfind
      exact ih name inner hmem ((h.of_mem hmem).2.2 inner rfl)
    rw [filesBelow_eq, List.mem_flatMap]
    constructor
    · rintro ⟨⟨name, entry⟩, hmem, hp⟩
      obtain ⟨names, hselects, hp⟩ := (hentry (h.of_mem hmem).2.1).mp hp
      exact ⟨name :: names, hselects, hp⟩
    · rintro ⟨names, hselects, hp⟩
      cases names with
      | nil => exact absurd hselects not_selects_nil
      | cons name names =>
        obtain ⟨content, hget⟩ := hselects.isFile
        rw [Folder.get?_cons] at hget
        obtain ⟨entry, hfind, -⟩ := Option.bind_eq_some_iff.mp hget
        have hmem := Folder.mem_entries_of_find? hfind
        exact ⟨(name, entry), hmem, (hentry hfind).mpr ⟨names, hselects, hp⟩⟩

end Selects

/-- A path that targets lead to: a target that is no folder, or a selected file below a target that
is one. -/
def Reaches (excluded wanted : FileName → Prop) (disk : Disk) (targets : List Path)
    (p : Path) : Prop :=
  (p ∈ targets ∧ disk.folder? p = none) ∨
    ∃ target ∈ targets, ∃ d names, disk.folder? target = some d ∧ Selects excluded wanted d names ∧
      p = names.foldl Path.join target

/-- A path that is to be collected. -/
abbrev IsWanted (disk : Disk) (files : FilesSection) (targets : List Path) (p : Path) : Prop :=
  Reaches (IsExcluded files) (HasWantedExtension files) disk targets p

/-- A path that a search takes for one that is to be collected. -/
abbrev CountsAsFound (disk : Disk) (files : FilesSection) (targets : List Path) (p : Path) : Prop :=
  Reaches (CountsAsExcluded files) (CountsAsWanted files) disk targets p

/-- A list ascends in the order of paths, and it has the paths of a set, each in one spelling. -/
structure Collects (wanted : Path → Prop) (paths : List Path) : Prop where
  ascending : Path.Ascending paths
  sound : ∀ p ∈ paths, wanted p
  complete : ∀ p, wanted p → ∃ q ∈ paths, q.components = p.components

def filesOfTarget (disk : Disk) (files : FilesSection) (target : Path) : List Path :=
  match disk.folder? target with
  | some d => filesBelow (wantedExtensions files) files.excluded target d
  | none => [target]

theorem readable_plain : Host.plain.listing.Readable := fun _ _ d => ⟨d.entries, rfl⟩

section Targets

variable {disk : Disk} {files : FilesSection} {targets : List Path} {target p : Path}

theorem filesOfTarget_folder {d : Folder} (h : disk.folder? target = some d) :
    filesOfTarget disk files target = filesBelow (wantedExtensions files) files.excluded
      target d := by
  rw [filesOfTarget, h]

theorem filesOfTarget_other (h : disk.folder? target = none) :
    filesOfTarget disk files target = [target] := by
  rw [filesOfTarget, h]

/-- The files of the targets are those that count as found. -/
theorem mem_filesOfTargets_iff (hdisk : disk.root.Proper) :
    p ∈ targets.flatMap (filesOfTarget disk files) ↔ CountsAsFound disk files targets p := by
  rw [List.mem_flatMap]
  constructor
  · rintro ⟨target, htarget, hp⟩
    cases hfolder : disk.folder? target with
    | none =>
      rw [filesOfTarget_other hfolder] at hp
      cases List.mem_singleton.mp hp
      exact .inl ⟨htarget, hfolder⟩
    | some d =>
      rw [filesOfTarget_folder hfolder] at hp
      obtain ⟨-, hd⟩ := Disk.proper_of_folder? hdisk hfolder
      obtain ⟨names, hselects, hp⟩ := (mem_filesBelow_iff hd).mp hp
      exact .inr ⟨target, htarget, d, names, hfolder, hselects, hp⟩
  · rintro (⟨htarget, hfolder⟩ | ⟨target, htarget, d, names, hfolder, hselects, hp⟩)
    · refine ⟨p, htarget, ?_⟩
      rw [filesOfTarget_other hfolder]
      exact List.mem_singleton_self p
    · refine ⟨target, htarget, ?_⟩
      obtain ⟨-, hd⟩ := Disk.proper_of_folder? hdisk hfolder
      rw [filesOfTarget_folder hfolder]
      exact (mem_filesBelow_iff hd).mpr ⟨names, hselects, hp⟩

/-- The files of one target differ in their steps. -/
theorem spelledOnce_filesOfTarget (hdisk : disk.root.Proper) (files : FilesSection)
    (target : Path) : Path.SpelledOnce (filesOfTarget disk files target) := by
  intro p hp q hq hsteps
  cases hfolder : disk.folder? target with
  | none =>
    rw [filesOfTarget_other hfolder, List.mem_singleton] at hp hq
    rw [hp, hq]
  | some d =>
    rw [filesOfTarget_folder hfolder] at hp hq
    obtain ⟨htarget, hd⟩ := Disk.proper_of_folder? hdisk hfolder
    obtain ⟨names, ⟨⟨content, hget⟩, -, -, -⟩, rfl⟩ := (mem_filesBelow_iff hd).mp hp
    obtain ⟨names', ⟨⟨content', hget'⟩, -, -, -⟩, rfl⟩ := (mem_filesBelow_iff hd).mp hq
    rw [Path.components_foldl_join htarget (hd.get? hget).1,
      Path.components_foldl_join htarget (hd.get? hget').1] at hsteps
    have hnames : names.map Path.Component.normal = names'.map Path.Component.normal :=
      List.append_cancel_left hsteps
    rw [List.map_inj_right fun _ _ => Path.Component.normal.inj] at hnames
    rw [hnames]

/-- A target adds some of its files, and all of them if no folder is refused. -/
theorem exists_found_addTarget (listing : Listing) (disk : Disk)
    (files : FilesSection) (walk : Walk) (target : Path) :
    ∃ new lost, (walk.addTarget listing disk files target).found =
      Path.insertAll walk.found new ∧ (new ++ lost).Perm (filesOfTarget disk files target) ∧
        (listing.Readable → lost = []) := by
  rw [Walk.addTarget]
  split
  · rename_i d hfolder
    obtain ⟨new, lost, hfound, hperm, hlost⟩ :=
      @Walk.exists_found_run listing (wantedExtensions files)
      files.excluded { walk with waiting := [(target, d)] }
    refine ⟨new, lost, hfound, ?_, hlost⟩
    rw [filesOfTarget_folder hfolder]
    simpa only [Walk.pending, List.flatMap_cons, List.flatMap_nil, List.append_nil] using hperm
  · rename_i hfolder
    refine ⟨[target], [], rfl, ?_, fun _ => rfl⟩
    rw [filesOfTarget_other hfolder, List.append_nil]

/-- Whatever is refused, a search finds files of its targets only. -/
theorem exists_found_search (listing : Listing) (disk : Disk) (files : FilesSection)
    (targets : List Path) (walk : Walk) :
    ∃ new, (targets.foldl (Walk.addTarget listing disk files) walk).found =
      Path.insertAll walk.found new ∧ new ⊆ targets.flatMap (filesOfTarget disk files) := by
  induction targets generalizing walk with
  | nil => exact ⟨[], rfl, List.nil_subset _⟩
  | cons target targets ih =>
    obtain ⟨first, lost, hfirst, hperm, -⟩ := exists_found_addTarget listing disk files walk target
    obtain ⟨later, hlater, hsub⟩ := ih (walk.addTarget listing disk files target)
    refine ⟨first ++ later, ?_, ?_⟩
    · rw [List.foldl_cons, hlater, hfirst]
      exact List.foldl_append.symm
    · rw [List.flatMap_cons]
      rintro path hpath
      rcases List.mem_append.mp hpath with hpath | hpath
      · exact List.mem_append_left _ (hperm.subset (List.mem_append_left lost hpath))
      · exact List.mem_append_right _ (hsub hpath)

/-- Where no folder is refused, the files are found that are found folder by folder. -/
theorem found_search (listing : Listing) (hreadable : listing.Readable) (hdisk : disk.root.Proper)
    (files : FilesSection) (targets : List Path) :
    collectBy listing disk files targets =
      Path.ordered (targets.flatMap (filesOfTarget disk files)) := by
  have hfold : ∀ walk : Walk, (targets.foldl (Walk.addTarget listing disk files) walk).found =
      Path.insertAll walk.found (targets.flatMap (filesOfTarget disk files)) := by
    induction targets with
    | nil => exact fun walk => rfl
    | cons target targets ih =>
      intro walk
      obtain ⟨new, lost, hfirst, hperm, hlost⟩ :=
        exists_found_addTarget listing disk files walk target
      rw [hlost hreadable, List.append_nil] at hperm
      rw [List.foldl_cons, ih, hfirst, List.flatMap_cons,
        ← Path.insertAll_of_perm hperm.symm (spelledOnce_filesOfTarget hdisk files target)]
      exact List.foldl_append.symm
  exact hfold .start

/-- The same targets in another order, or some of them twice, lead to the same steps. -/
theorem collect_targets {targets' : List Path} (hdisk : disk.root.Proper)
    (h : ∀ target, target ∈ targets ↔ target ∈ targets') :
    (collect disk files targets).map Path.components =
      (collect disk files targets').map Path.components := by
  rw [collect, collect, found_search _ readable_plain hdisk, found_search _ readable_plain hdisk]
  apply Path.Orders.map_components_eq (Path.orders_ordered _) (Path.orders_ordered _)
  intro p
  simp only [List.mem_flatMap, h]

end Targets

def IsPossible (ext : List Char) : Prop := '.' ∉ ext ∧ '/' ∉ ext ∧ Char.ofNat 0 ∉ ext

/-- A manifest tells files apart if it does not look for the empty extension, and if it does not
exclude the empty text; this may be excluded if no file can have an extension that is looked for. -/
structure TellsApart (files : FilesSection) : Prop where
  named : ¬ IsConfigured files []
  spared : [] ∈ files.excluded → ∀ ext, IsConfigured files ext → ¬ IsPossible ext

section

variable {disk : Disk} {files : FilesSection} {targets : List Path} {d : Folder} {name : FileName}
  {names : List FileName} {p : Path}

theorem eq_of_toAsciiLower_eq {c d : Char} (hc : c.toNat < 'A'.toNat)
    (h : toAsciiLower d = c) : d = c := by
  unfold toAsciiLower at h
  split at h
  · rename_i hcapital
    simp only [Bool.and_eq_true, decide_eq_true_eq] at hcapital
    have hz : 'Z'.toNat = 90 := rfl
    have ha : 'A'.toNat = 65 := rfl
    have hsmall := congrArg Char.toNat h
    rw [Utf8.toNat_ofNat_of_valid (.inl (by omega))] at hsmall
    omega
  · exact h

/-- Texts that are alike but for capitals have the same signs. -/
theorem mem_of_map_toAsciiLower_eq {own ext : List Char}
    (h : own.map toAsciiLower = ext.map toAsciiLower) {c : Char} (hc : c.toNat < 'A'.toNat)
    (hmem : c ∈ ext) : c ∈ own := by
  have hself : toAsciiLower c = c := by
    rw [toAsciiLower, if_neg]
    simp only [Bool.and_eq_true, decide_eq_true_eq]
    omega
  have hlower : c ∈ own.map toAsciiLower := by
    rw [h]
    exact List.mem_map.mpr ⟨c, hmem, hself⟩
  obtain ⟨d, hd, heq⟩ := List.mem_map.mp hlower
  exact eq_of_toAsciiLower_eq hc heq ▸ hd

/-- The extension of a file is a possible one. -/
theorem HasWantedExtension.exists_possible (h : HasWantedExtension files name)
    (hname : Path.IsName name) : ∃ ext, IsConfigured files ext ∧ IsPossible ext := by
  obtain ⟨own, ext, ⟨stem, -, hpoint, rfl⟩, hconfigured, heq⟩ := h
  obtain ⟨-, -, -, hslash, hzero⟩ := hname
  -- a sign of the extension would be a byte of the name
  have hsign : ∀ c, isAscii c = true → c.toNat < 'A'.toNat → c ∈ ext →
      UInt8.ofNat c.toNat ∈ Path.ofText own := fun c hascii hc hmem =>
    (Utf8.mem_encode_iff hascii).mpr (mem_of_map_toAsciiLower_eq heq hc hmem)
  have hbehind : ∀ b ∈ Path.ofText own, b ∈ stem ++ Path.point :: Path.ofText own := fun b hb =>
    List.mem_append_right stem (List.mem_cons_of_mem _ hb)
  refine ⟨ext, hconfigured, fun hmem => hpoint (hsign '.' rfl (by decide) hmem), ?_, ?_⟩
  · intro hmem
    exact hslash (hbehind _ (hsign '/' rfl (by decide) hmem))
  · intro hmem
    exact hzero (hbehind _ (hsign (Char.ofNat 0) rfl (by decide) hmem))

/-- Names that are selected end in the name of a file that is wanted. -/
theorem Selects.exists_last {excluded wanted : FileName → Prop}
    (h : Selects excluded wanted d names) (hd : d.Proper) :
    ∃ name ∈ names, Path.IsName name ∧ wanted name := by
  obtain ⟨content, hget⟩ := h.isFile
  obtain ⟨name, hlast⟩ : ∃ name, names.getLast? = some name := by
    cases hnames : names.getLast? with
    | some name => exact ⟨name, rfl⟩
    | none =>
      rw [List.getLast?_eq_none_iff.mp hnames] at hget
      cases hget
  have hmem := List.mem_of_getLast? hlast
  exact ⟨name, hmem, (hd.get? hget).1 name hmem, h.named name hlast⟩

/-- Where a manifest tells files apart, a search takes the files for what they are. -/
theorem TellsApart.selects_iff (h : TellsApart files) (hd : d.Proper) :
    Selects (CountsAsExcluded files) (CountsAsWanted files) d names ↔
      Selects (IsExcluded files) (HasWantedExtension files) d names := by
  have hwanted : CountsAsWanted files = HasWantedExtension files := by
    funext name
    simp [CountsAsWanted, h.named]
  rw [hwanted]
  by_cases hnil : [] ∈ files.excluded
  · have hnone : ∀ {excluded : FileName → Prop},
        ¬ Selects excluded (HasWantedExtension files) d names := by
      intro excluded hselects
      obtain ⟨name, -, hname, hext⟩ := hselects.exists_last hd
      obtain ⟨ext, hconfigured, hpossible⟩ := hext.exists_possible hname
      exact h.spared hnil ext hconfigured hpossible
    exact iff_of_false hnone hnone
  · have hexcluded : CountsAsExcluded files = IsExcluded files := by
      funext name
      simp [CountsAsExcluded, hnil]
    rw [hexcluded]

/-- If a manifest tells files apart, those that count as found are those that are wanted. -/
theorem TellsApart.countsAsFound_iff (h : TellsApart files) (hdisk : disk.root.Proper) :
    CountsAsFound disk files targets p ↔ IsWanted disk files targets p := by
  apply or_congr_right
  apply exists_congr
  intro target
  apply and_congr_right
  intro _
  apply exists_congr
  intro d
  apply exists_congr
  intro names
  apply and_congr_right
  intro hfolder
  rw [h.selects_iff (Disk.proper_of_folder? hdisk hfolder).2]

/-- A disk with one folder, and one file in it. -/
def loneFile (name : FileName) : Disk := ⟨.folder "d".toList (.file name [] .empty) .empty, []⟩

/-- The path of that folder. -/
def loneFolder : Path := "d".toList

theorem proper_loneFile (h : Path.IsName name) : (loneFile name).root.Proper :=
  ⟨by decide, rfl, ⟨h, rfl, trivial⟩, trivial⟩

/-- The file is found in its folder if it is wanted. -/
theorem reaches_loneFile_iff {excluded wanted : FileName → Prop} :
    Reaches excluded wanted (loneFile name) [loneFolder] p ↔
      p = loneFolder.join name ∧ ¬ excluded name ∧ wanted name := by
  have hfolder : (loneFile name).folder? loneFolder = some (.file name [] .empty) := rfl
  have hfind : (Folder.file name [] .empty).find? name = some (.file []) := by
    simp only [Folder.find?, if_true]
  have hselects : ∀ {names}, Selects excluded wanted (.file name [] .empty) names ↔
      names = [name] ∧ ¬ excluded name ∧ wanted name := by
    intro names
    cases names with
    | nil => exact iff_of_false not_selects_nil (fun h => List.cons_ne_nil _ _ h.1.symm)
    | cons first names =>
      by_cases hfirst : first = name
      · rw [hfirst, selects_file_iff hfind, List.cons.injEq]
        simp
      · apply iff_of_false
        · rintro ⟨⟨content, hget⟩, -, -, -⟩
          have hother : (Folder.file name [] .empty).find? first = none := by
            simp only [Folder.find?, if_neg (Ne.symm hfirst)]
          rw [Folder.get?_cons, hother] at hget
          cases hget
        · rintro ⟨heq, -⟩
          exact hfirst (List.cons.inj heq).1
  constructor
  · rintro (⟨htarget, hnone⟩ | ⟨target, htarget, d, names, hsome, hnames, rfl⟩)
    · rw [List.mem_singleton.mp htarget, hfolder] at hnone
      cases hnone
    · obtain rfl := List.mem_singleton.mp htarget
      rw [hfolder] at hsome
      cases hsome
      obtain ⟨rfl, hname⟩ := hselects.mp hnames
      exact ⟨rfl, hname⟩
  · rintro ⟨rfl, hname⟩
    exact .inr ⟨_, List.mem_singleton_self _, _, [name], hfolder, hselects.mpr ⟨rfl, hname⟩, rfl⟩

/-- Beside any texts there is a name without a point that is none of them. -/
theorem exists_fresh_name (texts : List (List Char)) :
    ∃ text, text ∉ texts ∧ Path.IsName (Path.ofText text) ∧ Path.point ∉ Path.ofText text := by
  obtain ⟨n, hn⟩ : ∃ n, ∀ text ∈ texts, text.length ≤ n := by
    induction texts with
    | nil => exact ⟨0, fun text hmem => absurd hmem List.not_mem_nil⟩
    | cons text texts ih =>
      obtain ⟨n, hn⟩ := ih
      refine ⟨max text.length n, ?_⟩
      intro text' hmem
      rcases List.mem_cons.mp hmem with rfl | hmem
      · exact Nat.le_max_left _ _
      · exact Nat.le_trans (hn text' hmem) (Nat.le_max_right _ _)
  have hother : ∀ c, isAscii c = true → c ≠ 'a' →
      UInt8.ofNat c.toNat ∉ Path.ofText (List.replicate (n + 1) 'a') := by
    intro c hascii hne hmem
    exact hne (List.eq_of_mem_replicate ((Utf8.mem_encode_iff hascii).mp hmem))
  have hpoint : Path.point ∉ Path.ofText (List.replicate (n + 1) 'a') := hother '.' rfl (by decide)
  refine ⟨List.replicate (n + 1) 'a', ?_, ⟨?_, ?_, ?_, ?_, ?_⟩, hpoint⟩
  · intro hmem
    have hlen := hn _ hmem
    rw [List.length_replicate] at hlen
    omega
  · rw [List.replicate_succ, Path.ofText, Utf8.encode_cons]
    exact List.append_ne_nil_of_left_ne_nil (List.cons_ne_nil _ _) _
  · intro heq
    exact hpoint (heq ▸ List.mem_singleton_self _)
  · intro heq
    exact hpoint (heq ▸ List.mem_cons_self)
  · exact hother '/' rfl (by decide)
  · exact hother (Char.ofNat 0) rfl (by decide)

/-- A byte that starts no character. -/
def strayByte : UInt8 := 0xff

theorem not_isText_strayByte (bytes : List UInt8) : ¬ IsText (strayByte :: bytes) := by
  rintro ⟨text, heq⟩
  rw [← decode?_eq_some_iff_ofText, Utf8.decode?, Utf8.decodeFrom?.eq_def] at heq
  cases heq

/-- The file `\xff.ext`. -/
theorem isName_strayByte {ext : List Char} (h : IsPossible ext) :
    Path.IsName (strayByte :: Path.point :: Path.ofText ext) := by
  obtain ⟨-, hslash, hzero⟩ := h
  refine ⟨List.cons_ne_nil _ _, by simp, by simp [strayByte, Path.point], ?_, ?_⟩
  · intro hmem
    have hext : Path.slash ∈ Path.ofText ext := by
      simpa [strayByte, Path.point, Path.slash] using hmem
    exact hslash ((Utf8.mem_encode_iff (c := '/') rfl).mp hext)
  · intro hmem
    have hext : 0 ∈ Path.ofText ext := by simpa [strayByte, Path.point] using hmem
    exact hzero ((Utf8.mem_encode_iff (c := Char.ofNat 0) rfl).mp hext)

theorem hasWantedExtension_strayByte {ext : List Char} (hconfigured : IsConfigured files ext)
    (h : IsPossible ext) :
    HasWantedExtension files (strayByte :: Path.point :: Path.ofText ext) := by
  have hpoint : Path.point ∉ Path.ofText ext := fun hmem =>
    h.1 ((Utf8.mem_encode_iff (c := '.') rfl).mp hmem)
  exact ⟨ext, ext, ⟨[strayByte], List.cons_ne_nil _ _, hpoint, rfl⟩, hconfigured, rfl⟩

end

/-- What is collected is what the search takes for wanted files. -/
theorem collects_countsAsFound {listing : Listing} (hreadable : listing.Readable) {disk : Disk}
    (hdisk : disk.root.Proper) (files : FilesSection) (targets : List Path) :
    Collects (CountsAsFound disk files targets) (collectBy listing disk files targets) := by
  have horders := Path.orders_ordered (targets.flatMap (filesOfTarget disk files))
  rw [found_search listing hreadable hdisk]
  refine ⟨horders.ascending, ?_, ?_⟩
  · intro p hp
    exact (mem_filesOfTargets_iff hdisk).mp (horders.sound hp)
  · intro p hp
    exact horders.complete p ((mem_filesOfTargets_iff hdisk).mpr hp)

/-- A manifest for which only wanted files are collected, and all of them, tells files apart: it
would be misled by a file without a point in its name, or by one whose name starts with a stray
byte. -/
theorem tellsApart_of_collects {files : FilesSection}
    (h : ∀ disk targets, disk.root.Proper →
      Collects (IsWanted disk files targets) (collect disk files targets)) :
    TellsApart files := by
  have hfound : ∀ {disk : Disk}, disk.root.Proper → Collects (CountsAsFound disk files [loneFolder])
      (collect disk files [loneFolder]) := fun hdisk =>
    collects_countsAsFound readable_plain hdisk files [loneFolder]
  constructor
  · intro hempty
    obtain ⟨text, hfresh, hname, hpoint⟩ := exists_fresh_name files.excluded
    have hdisk := proper_loneFile hname
    have hnone : ∀ ext, ¬ IsExtension (Path.ofText text) ext := by
      rintro ext ⟨stem, -, -, heq⟩
      exact hpoint (heq ▸ List.mem_append_right stem List.mem_cons_self)
    have hexcluded : ¬ CountsAsExcluded files (Path.ofText text) := by
      rintro (⟨text', hmem, heq⟩ | ⟨-, hno⟩)
      · exact hfresh (Utf8.encode_injective heq ▸ hmem)
      · exact hno ⟨text, rfl⟩
    have hcounts : CountsAsFound (loneFile (Path.ofText text)) files [loneFolder] _ :=
      reaches_loneFile_iff.mpr ⟨rfl, hexcluded, .inr ⟨hempty, fun own => hnone _⟩⟩
    obtain ⟨q, hq, -⟩ := (hfound hdisk).complete _ hcounts
    obtain ⟨-, -, own, ext, hext, -⟩ := reaches_loneFile_iff.mp ((h _ _ hdisk).sound q hq)
    exact hnone _ hext
  · intro hnil ext hconfigured hpossible
    have hdisk := proper_loneFile (isName_strayByte hpossible)
    have hexcluded : ¬ IsExcluded files (strayByte :: Path.point :: Path.ofText ext) := by
      rintro ⟨text, -, heq⟩
      exact not_isText_strayByte _ ⟨text, heq⟩
    have hwanted : IsWanted (loneFile (strayByte :: Path.point :: Path.ofText ext)) files
        [loneFolder] _ :=
      reaches_loneFile_iff.mpr ⟨rfl, hexcluded, hasWantedExtension_strayByte hconfigured hpossible⟩
    obtain ⟨q, hq, -⟩ := (h _ _ hdisk).complete _ hwanted
    obtain ⟨-, hno, -⟩ := reaches_loneFile_iff.mp ((hfound hdisk).sound q hq)
    exact hno (.inr ⟨hnil, not_isText_strayByte _⟩)

/-- Whatever order entries are listed in, and whichever folders are refused, the files that are
collected ascend in the order of paths, and each counts as found. If no folder is refused, every
path that does is among them in one spelling, so they are the same in every order. They are the
wanted files on every disk just where the manifest tells files apart. -/
theorem collectBy_exact (files : FilesSection) :
    (∀ (listing : Listing) (disk : Disk) (targets : List Path), disk.root.Proper →
      Path.Ascending (collectBy listing disk files targets) ∧
      (∀ p ∈ collectBy listing disk files targets, CountsAsFound disk files targets p) ∧
      (listing.Readable →
        Collects (CountsAsFound disk files targets) (collectBy listing disk files targets) ∧
        collectBy listing disk files targets = collect disk files targets)) ∧
    ((∀ (listing : Listing) (disk : Disk) (targets : List Path),
      listing.Readable → disk.root.Proper →
        Collects (IsWanted disk files targets) (collectBy listing disk files targets)) ↔
      TellsApart files) := by
  refine ⟨?_, ?_, ?_⟩
  · intro listing disk targets hdisk
    obtain ⟨new, hfound, hsub⟩ := exists_found_search listing disk files targets .start
    have horders : Path.Orders (Path.insertAll [] new) ([] ++ new) :=
      .insertAll ⟨.nil, List.nil_subset _, fun _ hp => absurd hp List.not_mem_nil⟩ new
    rw [collectBy, search, hfound]
    refine ⟨horders.ascending, ?_, ?_⟩
    · intro p hp
      exact (mem_filesOfTargets_iff hdisk).mp (hsub (horders.sound hp))
    · intro hreadable
      rw [← hfound]
      refine ⟨collects_countsAsFound hreadable hdisk files targets, ?_⟩
      exact (found_search listing hreadable hdisk files targets).trans
        (found_search _ readable_plain hdisk files targets).symm
  · intro h
    apply tellsApart_of_collects
    intro disk targets hdisk
    exact h _ disk targets readable_plain hdisk
  · intro h listing disk targets hreadable hdisk
    have hcollects := collects_countsAsFound hreadable hdisk files targets
    refine ⟨hcollects.ascending, ?_, ?_⟩
    · intro p hp
      exact (h.countsAsFound_iff hdisk).mp (hcollects.sound p hp)
    · intro p hp
      exact hcollects.complete p ((h.countsAsFound_iff hdisk).mpr hp)

/-- Every other folder is listed backwards. -/
def Listing.turning : Listing where
  list reading _ d := .ok (if reading % 2 = 0 then d.entries else d.entries.reverse)
  perm h := by
    rw [← Except.ok.inj h]
    split
    · exact .refl _
    · exact List.reverse_perm _

/-- A folder `p` with files in it, in `lib`, in `src` and in `target`. The name of one of them is no
text. -/
def nestedDisk : Disk where
  root := .folder "p".toList
    (.file "notes.txt".toList [] (.file "a.u".toList []
      (.folder "lib".toList (.file "c.u".toList [] .empty)
        (.folder "target".toList (.file "d.u".toList [] .empty)
          (.folder "src".toList
            (.file "b.U".toList [] (.file (strayByte :: Path.ofText ".u".toList) []
              (.file "lib".toList [] (.file ".u".toList [] .empty))))
            .empty))))) .empty
  working := ["p".toList]

def nestedFiles : FilesSection := ⟨[], ["lib".toList], [".u".toList]⟩

/-- Two targets overlap, one is spelled in two ways, one is a folder that is not entered from above,
and one is not there. -/
def overlapping : List Path :=
  ["src//".toList, ".".toList, "src".toList, "./src".toList, "target".toList, "gone.txt".toList]

theorem collectBy_exact_overlapping :
    nestedDisk.root.Proper ∧ TellsApart nestedFiles ∧
      collectBy Listing.turning nestedDisk nestedFiles overlapping =
        (["./a.u".toList, "./src/b.U".toList,
          Path.ofText "./src/".toList ++ strayByte :: Path.ofText ".u".toList, "gone.txt".toList,
          "src//b.U".toList, Path.ofText "src//".toList ++ strayByte :: Path.ofText ".u".toList,
          "target/d.u".toList] : List Path) ∧
      Collects (IsWanted nestedDisk nestedFiles overlapping)
        (collectBy Listing.turning nestedDisk nestedFiles overlapping) := by
  have hreadable : Listing.turning.Readable := fun reading path d => ⟨_, rfl⟩
  have hdisk : nestedDisk.root.Proper := by decide
  have htells : TellsApart nestedFiles := by
    refine ⟨fun hempty => ?_, fun hnil => absurd hnil (by decide)⟩
    exact absurd (mem_wantedExtensions_iff.mpr hempty) (by decide)
  have hlist := found_search Listing.turning hreadable hdisk nestedFiles overlapping
  refine ⟨hdisk, htells, hlist.trans rfl, ?_⟩
  exact (collectBy_exact nestedFiles).2.mpr htells Listing.turning nestedDisk overlapping
    hreadable hdisk

/-- Looking for the extension `.` finds a file without one and a file whose extension is no text;
excluding the empty text keeps a file whose name is no text from being found. -/
theorem collect_misled :
    (collect (loneFile "noext".toList) ⟨[], [], [".".toList]⟩ [loneFolder] =
        [Path.ofText "d/noext".toList] ∧
      ¬ IsWanted (loneFile "noext".toList) ⟨[], [], [".".toList]⟩ [loneFolder]
        "d/noext".toList) ∧
    (collect (loneFile (Path.ofText "a.".toList ++ [strayByte])) ⟨[], [], [".".toList]⟩
          [loneFolder] =
        [Path.ofText "d/a.".toList ++ [strayByte]] ∧
      ¬ IsWanted (loneFile (Path.ofText "a.".toList ++ [strayByte])) ⟨[], [], [".".toList]⟩
        [loneFolder] (Path.ofText "d/a.".toList ++ [strayByte])) ∧
    (collect (loneFile (strayByte :: Path.ofText ".u".toList)) ⟨[], [[]], []⟩ [loneFolder] = [] ∧
      IsWanted (loneFile (strayByte :: Path.ofText ".u".toList)) ⟨[], [[]], []⟩ [loneFolder]
        (Path.ofText "d/".toList ++ strayByte :: Path.ofText ".u".toList)) := by
  have hcollect : ∀ {name : FileName} (files : FilesSection), Path.IsName name →
      collect (loneFile name) files [loneFolder] =
        Path.ordered ([loneFolder].flatMap (filesOfTarget (loneFile name) files)) := by
    intro name files hname
    exact found_search _ readable_plain (proper_loneFile hname) files [loneFolder]
  refine ⟨⟨(hcollect _ (by decide)).trans rfl, ?_⟩, ⟨(hcollect _ (by decide)).trans rfl, ?_⟩,
    (hcollect _ (by decide)).trans rfl, ?_⟩
  · intro h
    obtain ⟨-, -, own, ext, hext, -⟩ := reaches_loneFile_iff.mp h
    rw [isExtension_iff] at hext
    cases hext
  · intro h
    obtain ⟨-, -, own, ext, hext, -⟩ := reaches_loneFile_iff.mp h
    rw [isExtension_iff] at hext
    exact not_isText_strayByte [] ⟨own, Option.some.inj hext⟩
  · apply reaches_loneFile_iff.mpr
    refine ⟨rfl, ?_, hasWantedExtension_strayByte (.inl ⟨rfl, rfl⟩)
      ⟨by decide, by decide, by decide⟩⟩
    rintro ⟨text, -, heq⟩
    exact not_isText_strayByte _ ⟨text, heq⟩

end Project

end ScratchFormat
