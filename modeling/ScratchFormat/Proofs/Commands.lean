import ScratchFormat.Project.Run
import ScratchFormat.Proofs.Collected
import ScratchFormat.Proofs.Schedule

/-! The two commands on a project agree. Both settle on the same plan, or fail alike before any file
is touched; one lists the files that the other writes. All files are read before the first is
written, and a file that could be read can be written over, so a path that is listed under two
spellings does no harm. -/

namespace ScratchFormat

namespace Machine

@[simp] theorem tell_disk (m : Machine) (message : String) : (m.tell message).disk = m.disk := rfl

@[simp] theorem tell_out (m : Machine) (message : String) : (m.tell message).out = m.out := rfl

@[simp] theorem note_disk (m : Machine) (notes : List Note) : (m.note notes).disk = m.disk := rfl

@[simp] theorem note_out (m : Machine) (notes : List Note) : (m.note notes).out = m.out := rfl

@[simp] theorem noteBatch_disk (m : Machine) (workers : Nat) (paths : List Path)
    (replies : List Reply) :
    (m.noteBatch workers paths replies).disk = m.disk := rfl

@[simp] theorem noteBatch_out (m : Machine) (workers : Nat) (paths : List Path)
    (replies : List Reply) :
    (m.noteBatch workers paths replies).out = m.out := rfl

end Machine

namespace Project

/-- What one command takes the other takes, and reads it alike. -/
theorem parseFrom_check {a b : Arguments} {args : List (List Char)}
    (h : parseFrom .fmt a args = .ok b) : parseFrom .check a args = .ok b ∧ b.diff = a.diff := by
  fun_induction parseFrom .fmt a args
  case case1 =>
    obtain rfl := Except.ok.inj h
    exact ⟨rfl, rfl⟩
  case case3 ih | case6 ih | case7 ih | case12 ih | case14 ih | case16 ih =>
    obtain ⟨hcheck, hdiff⟩ := ih h
    refine ⟨?_, hdiff⟩
    rw [parseFrom.eq_def]
    simp only [*, if_true, if_false, Bool.false_eq_true]
  case case8 hcommand _ _ _ _ => cases hcommand
  -- all else is a mistake
  all_goals cases h

/-- The files that formatting would change. -/
def unformatted (disk : Disk) (style : Style) (files : List Path) : List Path :=
  files.filter fun path =>
    match disk.read path with
    | .ok text => format style text ≠ text
    | .error _ => false

/-- The files that cannot be read as texts. -/
def unreadable (disk : Disk) (files : List Path) : List Path :=
  files.filter fun path =>
    match disk.read path with
    | .ok _ => false
    | .error _ => true

section

variable {disk : Disk} {style : Style} {path : Path} {files : List Path} {text : List Char}
    {failure : Failure}

theorem mem_unformatted : path ∈ unformatted disk style files ↔
    path ∈ files ∧ ∃ text, disk.read path = .ok text ∧ format style text ≠ text := by
  rw [unformatted, List.mem_filter]
  apply and_congr_right
  intro _
  cases disk.read path <;> simp

theorem unformatted_error (h : disk.read path = .error failure) :
    unformatted disk style (path :: files) = unformatted disk style files := by
  rw [unformatted, List.filter_cons_of_neg (by simp [h])]
  rfl

theorem unformatted_same (h : disk.read path = .ok text) (hsame : format style text = text) :
    unformatted disk style (path :: files) = unformatted disk style files := by
  rw [unformatted, List.filter_cons_of_neg (by simp [h, hsame])]
  rfl

theorem unformatted_changed (h : disk.read path = .ok text) (hchanged : format style text ≠ text) :
    unformatted disk style (path :: files) = path :: unformatted disk style files := by
  rw [unformatted, List.filter_cons_of_pos (by simp [h, hchanged])]
  rfl

theorem unreadable_error (h : disk.read path = .error failure) :
    unreadable disk (path :: files) = path :: unreadable disk files := by
  rw [unreadable, List.filter_cons_of_pos (by simp [h])]
  rfl

theorem unreadable_ok (h : disk.read path = .ok text) :
    unreadable disk (path :: files) = unreadable disk files := by
  rw [unreadable, List.filter_cons_of_neg (by simp [h])]
  rfl

theorem result_formatFile (h : disk.read path = .ok text) :
    (formatFile disk style path).result = .ok ⟨path, text, format style text⟩ := by
  rw [formatFile, h]
  rfl

theorem handle_error (h : disk.read path = .error failure) (colored : Bool)
    (command : Command) (diff : Bool) (p : Progress) :
    handle colored command diff p (formatFile disk style path) =
      ⟨p.machine.tell (errorText colored failure.message), true, p.changed⟩ := by
  rw [formatFile, h]
  rfl

theorem handle_same (h : disk.read path = .ok text) (hsame : format style text = text)
    (colored : Bool) (command : Command) (diff : Bool) (p : Progress) :
    handle colored command diff p (formatFile disk style path) = p := by
  simp [handle, result_formatFile h, FileOutcome.isChanged, hsame]

theorem handle_check (h : disk.read path = .ok text) (hchanged : format style text ≠ text)
    (colored : Bool) (p : Progress) : handle colored .check false p (formatFile disk style path) =
      ⟨p.machine.print (path.shown ++ ['\n']), true, p.changed + 1⟩ := by
  simp [handle, result_formatFile h, FileOutcome.isChanged, hchanged.symm, reportText]

/-- A file that is written over. -/
theorem handle_fmt (h : disk.read path = .ok text) (hchanged : format style text ≠ text)
    (colored diff : Bool) {p : Progress} {disk' : Disk}
    (hwrite : p.machine.disk.write path (format style text) = .ok disk') :
    ∃ notes, handle colored .fmt diff p (formatFile disk style path) =
      ⟨{ p.machine with disk := disk' }.note notes, p.failed, p.changed + 1⟩ := by
  refine ⟨[FileOutcome.writtenNote ⟨path, text, format style text⟩], ?_⟩
  simp [handle, result_formatFile h, FileOutcome.isChanged, hchanged.symm, writeFormatted,
    FileOutcome.writeBack, hwrite, Except.map]

end

/-- Checking reports the files that are not formatted, in order, and touches none. -/
theorem foldl_check (colored : Bool) (disk : Disk) (style : Style) (files : List Path)
    (p q : Progress)
    (hq : (files.map (formatFile disk style)).foldl (handle colored .check false) p = q) :
    q.machine.disk = p.machine.disk ∧
      q.machine.out = p.machine.out ++ (unformatted disk style files).flatMap (·.shown ++ ['\n']) ∧
      (q.failed = true ↔ p.failed = true ∨ unformatted disk style files ≠ [] ∨
        unreadable disk files ≠ []) := by
  induction files generalizing p with
  | nil =>
    obtain rfl := hq
    simp [unformatted, unreadable]
  | cons path files ih =>
    rw [List.map_cons, List.foldl_cons] at hq
    obtain ⟨hdisk, hout, hfailed⟩ := ih _ hq
    rw [hdisk, hout, hfailed]
    cases hread : disk.read path with
    | error failure =>
      rw [handle_error hread, unformatted_error hread, unreadable_error hread]
      simp
    | ok text =>
      by_cases hsame : format style text = text
      · rw [handle_same hread hsame, unformatted_same hread hsame, unreadable_ok hread]
        simp
      · rw [handle_check hread hsame, unformatted_changed hread hsame, unreadable_ok hread]
        simp [Machine.print]

/-- What is seen on a disk after files have been written over: at the place of each file that was
not formatted its formatted text, and elsewhere what was there before. -/
structure Written (disk : Disk) (style : Style) (files : List Path) (disk' : Disk) : Prop where
  working : disk'.working = disk.working
  shape : disk'.root.SameShape disk.root
  changed : ∀ path ∈ files, ∀ place text, disk.LeadsTo path place → disk.read path = .ok text →
    format style text ≠ text →
    disk'.root.sight? place = some (.file (Utf8.encode (format style text)))
  kept : ∀ place, (∀ path ∈ unformatted disk style files, ¬ disk.LeadsTo path place) →
    disk'.root.sight? place = disk.root.sight? place

namespace Written

variable {disk disk' : Disk} {style : Style} {files : List Path} {path : Path} {text : List Char}

theorem leadsTo (h : Written disk style files disk') {place : List FileName} :
    disk'.LeadsTo path place ↔ disk.LeadsTo path place := by
  rw [Disk.LeadsTo, Disk.LeadsTo, Disk.follow_congr h.shape, Disk.start, Disk.start, h.working]

/-- A file that is formatted, or cannot be read, is left alone. -/
theorem skip (h : Written disk style files disk')
    (hskip : unformatted disk style [path] = []) : Written disk style (files ++ [path]) disk' := by
  have hsplit : unformatted disk style (files ++ [path]) = unformatted disk style files := by
    rw [unformatted, List.filter_append]
    change _ ++ unformatted disk style [path] = _
    rw [hskip, List.append_nil]
    rfl
  refine ⟨h.working, h.shape, ?_, by rw [hsplit]; exact h.kept⟩
  intro path' hmem place text hplace hread hchanged
  rcases List.mem_append.mp hmem with hmem | hmem
  · exact h.changed path' hmem place text hplace hread hchanged
  · rw [List.mem_singleton] at hmem
    subst hmem
    have hself : path' ∈ unformatted disk style [path'] :=
      mem_unformatted.mpr ⟨List.mem_cons_self, text, hread, hchanged⟩
    rw [hskip] at hself
    cases hself

/-- A file that is not formatted is written over at its place. -/
theorem write (h : Written disk style files disk') (hread : disk.read path = .ok text)
    (hchanged : format style text ≠ text) :
    ∃ next, disk'.write path (format style text) = .ok next ∧
      Written disk style (files ++ [path]) next := by
  obtain ⟨place, content, hplace, hfile, hdecode⟩ := Disk.read_eq_ok_iff.mp hread
  -- the place still holds a file, whether or not it has been written over under another spelling
  obtain ⟨content', hfile'⟩ : ∃ content', disk'.root.sight? place = some (.file content') := by
    have hshape := h.shape place
    rw [hfile] at hshape
    cases hsight : disk'.root.sight? place with
    | none => rw [hsight] at hshape; cases hshape
    | some s =>
      cases s with
      | folder => rw [hsight] at hshape; cases hshape
      | file content' => exact ⟨content', rfl⟩
  have hsight := Folder.sight?_store hfile' (Utf8.encode (format style text))
  refine ⟨_, Disk.write_of_leadsTo (h.leadsTo.mpr hplace) hfile' _, h.working, ?_, ?_, ?_⟩
  · intro q
    exact (Folder.sameShape_store hfile' _ q).trans (h.shape q)
  · intro path' hmem place' text' hplace' hread' hchanged'
    rw [hsight]
    split
    · rename_i heq
      subst heq
      obtain ⟨place'', content'', hplace'', hfile'', hdecode''⟩ := Disk.read_eq_ok_iff.mp hread'
      obtain rfl := hplace''.unique hplace'
      rw [hfile] at hfile''
      cases hfile''
      rw [hdecode] at hdecode''
      rw [Option.some.inj hdecode'']
    · rename_i hne
      rcases List.mem_append.mp hmem with hmem | hmem
      · exact h.changed path' hmem place' text' hplace' hread' hchanged'
      · rw [List.mem_singleton] at hmem
        subst hmem
        exact absurd (hplace'.unique hplace) hne
  · intro q hq
    have hmem : path ∈ unformatted disk style (files ++ [path]) :=
      mem_unformatted.mpr ⟨List.mem_append_right _ List.mem_cons_self, text, hread, hchanged⟩
    have hne : q ≠ place := fun heq => hq path hmem (heq ▸ hplace)
    rw [hsight, if_neg hne]
    apply h.kept
    intro path' hmem'
    obtain ⟨hfiles, htext⟩ := mem_unformatted.mp hmem'
    exact hq path' (mem_unformatted.mpr ⟨List.mem_append_left _ hfiles, htext⟩)

end Written

/-- Formatting writes over the files that are not formatted, and fails only for those that cannot be
read. -/
theorem foldl_fmt (colored diff : Bool) (disk : Disk) (style : Style) (done files : List Path)
    (p q : Progress)
    (hq : (files.map (formatFile disk style)).foldl (handle colored .fmt diff) p = q)
    (hdone : Written disk style done p.machine.disk) :
    Written disk style (done ++ files) q.machine.disk ∧
      (q.failed = true ↔ p.failed = true ∨ unreadable disk files ≠ []) := by
  induction files generalizing done p with
  | nil =>
    obtain rfl := hq
    simpa [unreadable] using hdone
  | cons path files ih =>
    rw [List.map_cons, List.foldl_cons] at hq
    rw [List.append_cons done path files]
    cases hread : disk.read path with
    | error failure =>
      rw [handle_error hread] at hq
      obtain ⟨hdisk, hfailed⟩ := ih _ _ hq (hdone.skip (unformatted_error hread))
      refine ⟨hdisk, ?_⟩
      rw [hfailed, unreadable_error hread]
      simp
    | ok text =>
      by_cases hsame : format style text = text
      · rw [handle_same hread hsame] at hq
        obtain ⟨hdisk, hfailed⟩ := ih _ _ hq (hdone.skip (unformatted_same hread hsame))
        exact ⟨hdisk, by rw [hfailed, unreadable_ok hread]⟩
      · obtain ⟨next, hwrite, hnext⟩ := hdone.write hread hsame
        obtain ⟨notes, hhandle⟩ := handle_fmt hread hsame colored diff hwrite
        rw [hhandle] at hq
        obtain ⟨hdisk, hfailed⟩ := ih _ _ hq hnext
        exact ⟨hdisk, by rw [hfailed, unreadable_ok hread]⟩

theorem written_nil (disk : Disk) (style : Style) : Written disk style [] disk where
  working := rfl
  shape := fun _ => rfl
  changed := fun _ hmem => absurd hmem List.not_mem_nil
  kept := fun _ _ => rfl

section

variable (colored : Bool) (a : Arguments) (style : Style) (files : List Path) (m : Machine)
    (workers : Nat)

/-- A check leaves the disk, lists what is not formatted, and fails if there is such a file or one
that cannot be read. -/
theorem runFiles_check (hdiff : a.diff = false) :
    (runFiles colored .check a style files m workers).1.disk = m.disk ∧
      (runFiles colored .check a style files m workers).1.out =
        m.out ++ (unformatted m.disk style files).flatMap (·.shown ++ ['\n']) ∧
      (runFiles colored .check a style files m workers).2 =
        if unformatted m.disk style files = [] ∧ unreadable m.disk files = [] then 0 else 1 := by
  unfold runFiles
  split
  · rename_i hempty
    rw [List.isEmpty_iff.mp hempty]
    simp [unformatted, unreadable]
  · simp only [Batch.formatFiles_eq_map, hdiff, Machine.tell_disk, Machine.tell_out]
    obtain ⟨hdisk, hout, hfailed⟩ := foldl_check colored m.disk style files _ _ rfl
    refine ⟨hdisk, hout, ?_⟩
    simp only [hfailed, Bool.false_eq_true, false_or]
    by_cases hnone : unformatted m.disk style files = [] ∧ unreadable m.disk files = []
    · rw [if_pos hnone, if_neg (by simp [hnone])]
    · rw [if_neg hnone, if_pos (by rwa [← not_and_or])]

/-- Formatting writes the files that are not formatted, and fails only if one cannot be read. -/
theorem runFiles_fmt :
    Written m.disk style files (runFiles colored .fmt a style files m workers).1.disk ∧
      (runFiles colored .fmt a style files m workers).2 = if unreadable m.disk files =
        [] then 0 else 1 := by
  unfold runFiles
  split
  · rename_i hempty
    rw [List.isEmpty_iff.mp hempty]
    exact ⟨written_nil m.disk style, rfl⟩
  · simp only [Batch.formatFiles_eq_map, Machine.tell_disk]
    let told := (m.tell (stepText colored .fmt (countText files.length))).noteBatch workers files
      (files.map (formatFile m.disk style))
    obtain ⟨hwritten, hfailed⟩ :=
      foldl_fmt colored a.diff m.disk style [] files ⟨told, false, 0⟩ _ rfl
        (written_nil m.disk style)
    refine ⟨hwritten, (if_congr hfailed rfl rfl).trans ?_⟩
    simp only [Bool.false_eq_true, false_or, ne_eq, ite_not]

end

/-- The colour of the messages that arguments ask for. -/
def Arguments.colored (a : Arguments) (m : Machine) : Bool :=
  (a.color.getD .auto).isOn m.environment m.terminal

theorem run_command {command : Command} {args : List (List Char)} {a : Arguments}
    (h : parse command args = .ok a) (m : Machine) (host : Host) :
    run m (command.name.toList :: args) host = runCommand (a.colored m) command a m host := by
  have hwith : run m (command.name.toList :: args) host = runWith command m args host := by
    cases command <;> rfl
  rw [hwith, runWith, h]
  rfl

theorem runCommand_error {a : Arguments} {m : Machine} {host : Host} {failure : Failure}
    (h : (plan a m host).2 = .error failure) (colored : Bool) (command : Command) :
    runCommand colored command a m host =
      (((m.note (plan a m host).1).tell (errorText colored failure.message)).tell
        (endText colored command failure.exitCode), failure.exitCode) := by
  simp only [runCommand, h]

theorem runCommand_ok {a : Arguments} {m : Machine} {host : Host} {p : Plan}
    (h : (plan a m host).2 = .ok p) (colored : Bool) (command : Command) :
    let files := runFiles colored command a p.style p.files (m.note (plan a m host).1) host.workers
    (runCommand colored command a m host).1.disk = files.1.disk ∧
      (runCommand colored command a m host).1.out = files.1.out ∧
      (runCommand colored command a m host).2 = files.2 := by
  simp only [runCommand, h, Machine.tell_disk, Machine.tell_out, and_self]

/-- The places at which formatting is seen are those that the unformatted files lead to. -/
theorem Written.sight?_ne_iff {disk disk' : Disk} {style : Style} {files : List Path}
    (h : Written disk style files disk') (place : List FileName) :
    disk'.root.sight? place ≠ disk.root.sight? place ↔
      ∃ path ∈ unformatted disk style files, disk.LeadsTo path place := by
  constructor
  · intro hne
    by_contra hnone
    apply hne
    apply h.kept
    intro path hmem hplace
    exact hnone ⟨path, hmem, hplace⟩
  · rintro ⟨path, hmem, hplace⟩
    obtain ⟨hfiles, text, hread, hchanged⟩ := mem_unformatted.mp hmem
    obtain ⟨place', content, hplace', hfile, hdecode⟩ := Disk.read_eq_ok_iff.mp hread
    obtain rfl := hplace'.unique hplace
    rw [h.changed path hfiles _ text hplace hread hchanged, hfile]
    intro heq
    -- bytes are those of one text only
    have hbytes := congrArg (Option.map fun s => match s with
      | Sight.file c => Utf8.decode? c
      | Sight.folder => none) heq
    simp only [Option.map_some, Utf8.decode?_encode, hdecode, Option.some.injEq] at hbytes
    exact hchanged hbytes

/-- The two commands agree. Arguments that one takes the other takes alike. What keeps a command
from settling on a style and on files is told in the same words by both and leaves the disk as it
was. Otherwise checking reports the files that are not formatted and leaves the disk as it was, and
formatting changes what is seen at their places, to their formatted texts, and nowhere else;
checking fails if it reports a file or cannot read one, formatting if it cannot read one. -/
theorem fmt_check_agree (host : Host) (m : Machine) (args : List (List Char)) (a : Arguments)
    (hargs : parse .fmt args = .ok a) :
    parse .check args = .ok a ∧
      (∀ failure, (plan a m host).2 = .error failure → ∀ command : Command,
        run m (command.name.toList :: args) host =
            (((m.note (plan a m host).1).tell (errorText (a.colored m) failure.message)).tell
              (endText (a.colored m) command failure.exitCode), failure.exitCode) ∧
          (run m (command.name.toList :: args) host).1.disk = m.disk) ∧
      (∀ p, (plan a m host).2 = .ok p →
        ((run m ("check".toList :: args) host).1.disk = m.disk ∧
          (run m ("check".toList :: args) host).1.out =
            m.out ++ (unformatted m.disk p.style p.files).flatMap (·.shown ++ ['\n']) ∧
          (run m ("check".toList :: args) host).2 =
            if unformatted m.disk p.style p.files = [] ∧ unreadable m.disk p.files = [] then
              0 else 1) ∧
        (∀ place,
          (run m ("fmt".toList :: args) host).1.disk.root.sight? place ≠
              m.disk.root.sight? place ↔
            ∃ path ∈ unformatted m.disk p.style p.files, m.disk.LeadsTo path place) ∧
        (∀ path ∈ unformatted m.disk p.style p.files, ∃ place content text,
          m.disk.LeadsTo path place ∧ m.disk.root.sight? place = some (.file content) ∧
          Utf8.decode? content = some text ∧
          (run m ("fmt".toList :: args) host).1.disk.root.sight? place =
            some (.file (Utf8.encode (format p.style text)))) ∧
        (run m ("fmt".toList :: args) host).2 =
          if unreadable m.disk p.files = [] then 0 else 1) := by
  obtain ⟨hcheck, hdiff⟩ := parseFrom_check hargs
  refine ⟨hcheck, ?_, ?_⟩
  · intro failure hfailure command
    have hcommand : parse command args = .ok a := by
      cases command with
      | fmt => exact hargs
      | check => exact hcheck
    rw [run_command hcommand, runCommand_error hfailure]
    exact ⟨rfl, rfl⟩
  · intro p hplan
    have hrunCheck : run m ("check".toList :: args) host = _ :=
      @run_command .check args a hcheck m host
    have hrunFmt : run m ("fmt".toList :: args) host = _ := @run_command .fmt args a hargs m host
    obtain ⟨hcdisk, hcout, hccode⟩ := runCommand_ok hplan (a.colored m) .check
    obtain ⟨hfdisk, -, hfcode⟩ := runCommand_ok hplan (a.colored m) .fmt
    obtain ⟨hwritten, hcode⟩ :=
      runFiles_fmt (a.colored m) a p.style p.files (m.note (plan a m host).1) host.workers
    rw [hrunCheck, hrunFmt, hcdisk, hcout, hccode, hfdisk, hfcode]
    have hchecked := runFiles_check (a.colored m) a p.style p.files (m.note (plan a m host).1)
      host.workers hdiff
    refine ⟨hchecked, hwritten.sight?_ne_iff, ?_, hcode⟩
    intro path hmem
    obtain ⟨hfiles, text, hread, hchanged⟩ := mem_unformatted.mp hmem
    obtain ⟨place, content, hplace, hfile, hdecode⟩ := Disk.read_eq_ok_iff.mp hread
    have hplaced := hwritten.changed path hfiles place text hplace hread hchanged
    exact ⟨place, content, text, hplace, hfile, hdecode, hplaced⟩

/-- A folder with a file to format, one that is formatted and one that is not text. -/
def smallProject : Machine where
  disk := ⟨.folder "p".toList (.file "a.u".toList (Utf8.encode "x=1".toList)
    (.file "b.u".toList (Utf8.encode "y = 2\n".toList) (.file "c.u".toList [0xff] .empty))) .empty,
    ["p".toList]⟩
  environment := []
  input := []
  terminal := false
  out := []
  err := []

/-- The folder and one of its files again, indented with tabs. -/
def twice : Arguments := ⟨none, none, true, false, none, [".".toList, "a.u".toList]⟩

/-- One file is reached by two paths. Both are reported, and the file is written twice. -/
theorem fmt_check_agree_twice :
    let args := [".".toList, "a.u".toList, "--tabs".toList]
    let files : List Path := ["./a.u".toList, "./b.u".toList, "./c.u".toList, "a.u".toList]
    let changed : List Path := ["./a.u".toList, "a.u".toList]
    parse .fmt args = .ok twice ∧ (plan twice smallProject).2 = .ok ⟨⟨2, false⟩, files⟩ ∧
      (run smallProject ("check".toList :: args)).1.out = "./a.u\na.u\n".toList ∧
      (run smallProject ("check".toList :: args)).2 = 1 ∧
      ∀ path ∈ changed, ∃ place content text, smallProject.disk.LeadsTo path place ∧
        smallProject.disk.root.sight? place = some (.file content) ∧
        Utf8.decode? content = some text ∧
        (run smallProject ("fmt".toList :: args)).1.disk.root.sight? place =
          some (.file (Utf8.encode (format ⟨2, false⟩ text))) := by
  intro args files changed
  have hfound :
      collectBy Host.plain.listing smallProject.disk .empty [".".toList, "a.u".toList] = files :=
    (found_search _ readable_plain (by decide) _ _).trans rfl
  have hplan : (plan twice smallProject).2 = .ok ⟨⟨2, false⟩, files⟩ := by
    rw [← hfound]
    rfl
  obtain ⟨-, -, hruns⟩ := fmt_check_agree .plain smallProject args twice rfl
  obtain ⟨⟨-, hout, hcode⟩, -, hwritten, -⟩ := hruns _ hplan
  have hunformatted : unformatted smallProject.disk ⟨2, false⟩ files = changed := by decide +kernel
  rw [hunformatted] at hout hcode hwritten
  refine ⟨rfl, hplan, ?_, ?_, hwritten⟩
  · rw [hout]
    rfl
  · rw [hcode, if_neg (by simp [changed])]

end Project

end ScratchFormat
