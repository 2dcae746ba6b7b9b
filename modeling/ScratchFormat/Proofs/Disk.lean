import ScratchFormat.Proofs.Paths
import ScratchFormat.Proofs.Utf8

/-! Files on disk. A folder is known by what is seen at each place in it, and a file that is written
over changes what is seen there and nowhere else, so that all paths lead where they did. -/

namespace ScratchFormat

inductive Sight
  | folder
  | file (content : List UInt8)
  deriving DecidableEq

def Sight.isFolder : Sight → Bool
  | folder => true
  | file _ => false

namespace Folder

def sight? (d : Folder) (place : List FileName) : Option Sight :=
  match d.get? place with
  | some (.folder _) => some .folder
  | some (.file content) => some (.file content)
  | none => none

/-- Behind a change of one entry the others are found as before. -/
theorem find?_put (name : FileName) (entry : Entry) (d : Folder) (n : FileName) :
    (d.put name entry).find? n = if name = n then some entry else d.find? n := by
  induction d with
  | empty => cases entry <;> rfl
  | file m content rest ih =>
    by_cases hm : m = name
    · subst hm
      cases entry <;> simp only [put, find?, if_true] <;> split <;> rfl
    · have hput : (file m content rest).put name entry = file m content (rest.put name entry) := by
        cases entry <;> simp only [put, if_neg hm]
      rw [hput, find?, ih, find?]
      by_cases hn : m = n
      · rw [if_pos hn, if_pos hn, if_neg (hn ▸ Ne.symm hm)]
      · rw [if_neg hn, if_neg hn]
  | folder m inner rest _ ih =>
    by_cases hm : m = name
    · subst hm
      cases entry <;> simp only [put, find?, if_true] <;> split <;> rfl
    · have hput : (folder m inner rest).put name entry = folder m inner (rest.put name entry) := by
        cases entry <;> simp only [put, if_neg hm]
      rw [hput, find?, ih, find?]
      by_cases hn : m = n
      · rw [if_pos hn, if_pos hn, if_neg (hn ▸ Ne.symm hm)]
      · rw [if_neg hn, if_neg hn]

@[simp] theorem sight?_nil (d : Folder) : d.sight? [] = some .folder := rfl

end Folder

/-- What is seen below an entry. -/
def Entry.sight? (names : List FileName) : Entry → Option Sight
  | .folder inner => inner.sight? names
  | .file content => if names = [] then some (.file content) else none

namespace Folder

theorem sight?_cons (d : Folder) (name : FileName) (names : List FileName) :
    d.sight? (name :: names) = (d.find? name).bind (Entry.sight? names) := by
  rw [sight?, get?]
  cases d.find? name with
  | none => rfl
  | some entry =>
    cases entry with
    | folder inner => rfl
    | file content => cases names <;> rfl

/-- A file that is written over is put into its folder again, or its folder is with the new file in
it. -/
theorem sight?_put_store {d : Folder} {name : FileName} {names : List FileName} {old : List UInt8}
    (h : d.sight? (name :: names) = some (.file old)) (new : List UInt8)
    (ih : ∀ {inner : Folder}, inner.sight? names = some (.file old) → ∀ q,
      (inner.store new names).sight? q = if q = names then some (.file new) else inner.sight? q) :
    ∃ entry : Entry, d.store new (name :: names) = d.put name entry ∧
      ∀ qs, entry.sight? qs = if qs = names then some (.file new) else (d.find? name).bind
        (Entry.sight? qs) := by
  rw [sight?_cons] at h
  obtain ⟨entry, hfind, hentry⟩ := Option.bind_eq_some_iff.mp h
  rw [hfind]
  cases names with
  | nil =>
    refine ⟨.file new, rfl, ?_⟩
    intro qs
    cases entry with
    | folder inner => cases hentry
    | file content =>
      by_cases hqs : qs = []
      · rw [Entry.sight?, if_pos hqs, if_pos hqs]
      · rw [Entry.sight?, if_neg hqs, if_neg hqs, Option.bind_some, Entry.sight?, if_neg hqs]
  | cons name' names =>
    cases entry with
    | folder inner =>
      refine ⟨.folder (inner.store new (name' :: names)), ?_, fun qs => ih hentry qs⟩
      rw [store, Folder.inner, hfind]
      exact List.cons_ne_nil _ _
    | file content => cases hentry

/-- Writing over a file is seen at its place and nowhere else. -/
theorem sight?_store {d : Folder} {place : List FileName} {old : List UInt8}
    (h : d.sight? place = some (.file old)) (new : List UInt8) (q : List FileName) :
    (d.store new place).sight? q = if q = place then some (.file new) else d.sight? q := by
  induction place generalizing d q with
  | nil => cases h
  | cons name names ih =>
    obtain ⟨entry, hstore, hentry⟩ := sight?_put_store h new ih
    cases q with
    | nil => rw [if_neg (List.cons_ne_nil name names).symm, sight?_nil, sight?_nil]
    | cons n qs =>
      rw [hstore, sight?_cons, find?_put, sight?_cons]
      by_cases hn : name = n
      · subst hn
        rw [if_pos rfl, Option.bind_some, hentry]
        simp only [List.cons.injEq, true_and]
      · rw [if_neg hn, if_neg]
        intro heq
        exact hn (List.cons.inj heq).1.symm

theorem get?_of_sight? {d : Folder} {place : List FileName} {content : List UInt8}
    (h : d.sight? place = some (.file content)) : d.get? place = some (.file content) := by
  rw [sight?] at h
  split at h
  · cases h
  · rename_i hget
    cases h
    exact hget
  · cases h

def SameShape (d d' : Folder) : Prop :=
  ∀ place, (d.sight? place).map Sight.isFolder = (d'.sight? place).map Sight.isFolder

theorem sameShape_store {d : Folder} {place : List FileName} {old : List UInt8}
    (h : d.sight? place = some (.file old)) (new : List UInt8) :
    SameShape (d.store new place) d := by
  intro q
  rw [sight?_store h]
  split
  · rename_i hq
    rw [hq, h]
    rfl
  · rfl

/-- What is in a folder is found from the folder itself. -/
theorem get?_append {d inner : Folder} {place : List FileName}
    (h : d.get? place = some (.folder inner)) (names : List FileName) :
    d.get? (place ++ names) = inner.get? names := by
  induction place generalizing d with
  | nil =>
    rw [get?] at h
    cases h
    rfl
  | cons name place ih =>
    rw [get?] at h
    rw [List.cons_append, get?]
    split at h
    · exact ih h
    · split at h <;> cases h
    · cases h

/-- The way to an entry leads through folders. -/
theorem sight?_of_append {d : Folder} {place names : List FileName} (hnames : names ≠ [])
    (h : (d.sight? (place ++ names)).isSome = true) : d.sight? place = some .folder := by
  induction place generalizing d with
  | nil => rfl
  | cons name place ih =>
    rw [List.cons_append, sight?_cons] at h
    rw [sight?_cons]
    cases hfind : d.find? name with
    | none => rw [hfind] at h; cases h
    | some entry =>
      rw [hfind, Option.bind_some] at h
      cases entry with
      | folder inner => exact ih h
      | file content =>
        rw [Entry.sight?, if_neg (by simp [hnames])] at h
        cases h

end Folder

namespace Disk

@[simp] theorem follow_nil (root : Folder) (place : List FileName) :
    follow root place [] = .ok place := rfl

/-- A piece of a path seen from outside the folder in which it starts. -/
theorem follow_cons (root : Folder) (place : List FileName) (piece : FileName)
    (pieces : List FileName) :
    follow root place (piece :: pieces) =
      match root.sight? place with
      | some .folder =>
        if piece = [] ∨ piece = [Path.point] then follow root place pieces
        else if piece = [Path.point, Path.point] then follow root place.dropLast pieces
        else if (root.sight? (place ++ [piece])).isSome then follow root (place ++ [piece]) pieces
        else .error .notFound
      | some (.file _) => .error .notFolder
      | none => .error .notFound := by
  rw [follow, Folder.sight?]
  cases hget : root.get? place with
  | none => rfl
  | some entry =>
    cases entry with
    | file content => rfl
    | folder d =>
      have hfind : (d.find? piece).isSome = (root.sight? (place ++ [piece])).isSome := by
        rw [Folder.sight?, Folder.get?_append hget, Folder.get?]
        cases d.find? piece with
        | none => rfl
        | some entry => cases entry <;> rfl
      simp only [hfind]

/-- Paths lead to the same places in folders of one shape. -/
theorem follow_congr {root root' : Folder} (h : root.SameShape root')
    (place pieces : List FileName) : follow root place pieces = follow root' place pieces := by
  induction pieces generalizing place with
  | nil => rfl
  | cons piece pieces ih =>
    have hhere := h place
    have hthere := congrArg Option.isSome (h (place ++ [piece]))
    rw [Option.isSome_map, Option.isSome_map] at hthere
    rw [follow_cons, follow_cons, hthere]
    simp only [ih]
    cases hsight : root.sight? place with
    | none =>
      rw [hsight] at hhere
      cases hsight' : root'.sight? place with
      | none => rfl
      | some s => rw [hsight'] at hhere; cases hhere
    | some s =>
      rw [hsight] at hhere
      cases hsight' : root'.sight? place with
      | none => rw [hsight'] at hhere; cases hhere
      | some s' =>
        rw [hsight'] at hhere
        cases s <;> cases s' <;> first | rfl | cases hhere

/-- A path is followed piece by piece. -/
theorem follow_append (root : Folder) (place as bs : List FileName) :
    follow root place (as ++ bs) = (follow root place as).bind fun p => follow root p bs := by
  induction as generalizing place with
  | nil => rfl
  | cons piece as ih =>
    rw [List.cons_append, follow_cons, follow_cons]
    simp only [ih]
    split
    · split
      · rfl
      split
      · rfl
      split <;> rfl
    · rfl
    · rfl

/-- A path leads to a place. -/
def LeadsTo (disk : Disk) (p : Path) (place : List FileName) : Prop :=
  p.isEmpty = false ∧ follow disk.root (disk.start p) (Path.pieces p) = .ok place

theorem LeadsTo.unique {disk : Disk} {p : Path} {place place' : List FileName}
    (h : disk.LeadsTo p place) (h' : disk.LeadsTo p place') : place = place' :=
  Except.ok.inj (h.2.symm.trans h'.2)

theorem entry_eq {disk : Disk} {p : Path} {place : List FileName} (h : disk.LeadsTo p place) :
    disk.entry p = match disk.root.get? place with
      | some e => .ok e
      | none => .error .notFound := by
  rw [entry, h.1, if_neg Bool.false_ne_true, h.2]
  rfl

theorem exists_leadsTo {disk : Disk} {p : Path} {e : Entry} (h : disk.entry p = .ok e) :
    ∃ place, disk.LeadsTo p place := by
  rw [entry] at h
  split at h
  · cases h
  · rename_i hempty
    cases hfollow : follow disk.root (disk.start p) (Path.pieces p) with
    | error fault => rw [hfollow] at h; cases h
    | ok place => exact ⟨place, eq_false_of_ne_true hempty, hfollow⟩

/-- A path that can be read leads to a file with a text in it. -/
theorem read_eq_ok_iff {disk : Disk} {p : Path} {text : List Char} :
    disk.read p = .ok text ↔ ∃ place content, disk.LeadsTo p place ∧
      disk.root.sight? place = some (.file content) ∧ Utf8.decode? content = some text := by
  constructor
  · intro h
    cases hentry : disk.entry p with
    | error fault => rw [read, hentry] at h; cases h
    | ok e =>
      obtain ⟨place, hplace⟩ := exists_leadsTo hentry
      rw [read, hentry] at h
      rw [entry_eq hplace] at hentry
      cases e with
      | folder d => cases h
      | file content =>
        refine ⟨place, content, hplace, ?_, ?_⟩
        · rw [Folder.sight?]
          split at hentry
          · rename_i e hget
            rw [hget, Except.ok.inj hentry]
          · cases hentry
        · simp only at h
          split at h
          · rename_i hdecode
            rw [hdecode, Except.ok.inj h]
          · cases h
  · rintro ⟨place, content, hplace, hsight, hdecode⟩
    rw [read, entry_eq hplace, Folder.get?_of_sight? hsight]
    simp only [hdecode]

/-- The last piece of a path to a file is the name of that file. -/
theorem last_of_leadsTo_file {root : Folder} {start place : List FileName} {front : List FileName}
    {last : FileName} {content : List UInt8} (h : follow root start (front ++ [last]) = .ok place)
    (hfile : root.sight? place = some (.file content)) :
    ∃ above, follow root start (front ++ [[]]) = .ok above ∧ place = above ++ [last] ∧
      last ≠ [] ∧ last ≠ [Path.point] ∧ last ≠ [Path.point, Path.point] := by
  rw [follow_append] at h ⊢
  cases habove : follow root start front with
  | error fault => rw [habove] at h; cases h
  | ok above =>
    rw [habove] at h
    simp only [Except.bind, follow_cons, follow_nil] at h ⊢
    cases hsight : root.sight? above with
    | none => rw [hsight] at h; cases h
    | some s =>
      rw [hsight] at h
      cases s with
      | file content' => cases h
      | folder =>
        -- a dot leads to the folder itself, two dots to the one above it
        by_cases hdot : last = [] ∨ last = [Path.point]
        · rw [if_pos hdot] at h
          cases h
          rw [hsight] at hfile
          cases hfile
        simp only [if_neg hdot] at h
        by_cases hdots : last = [Path.point, Path.point]
        · simp only [if_pos hdots] at h
          cases h
          have hup : root.sight? above.dropLast = some .folder := by
            by_cases hnil : above = []
            · rw [hnil]
              rfl
            · apply Folder.sight?_of_append (List.cons_ne_nil (above.getLast hnil) [])
              rw [List.dropLast_concat_getLast hnil, hsight]
              rfl
          rw [hup] at hfile
          cases hfile
        · simp only [if_neg hdots] at h
          split at h
          · cases h
            refine ⟨above, ?_, rfl, fun he => hdot (.inl he), fun he => hdot (.inr he), hdots⟩
            simp
          · cases h

/-- What can be read can be written over: the path leads to the same place. -/
theorem target_of_leadsTo {disk : Disk} {p : Path} {place : List FileName} {content : List UInt8}
    (h : disk.LeadsTo p place) (hfile : disk.root.sight? place = some (.file content)) :
    disk.target p = .ok place := by
  obtain ⟨hempty, hfollow⟩ := h
  have hsplit := List.dropLast_concat_getLast (Path.pieces_ne_nil p)
  rw [← hsplit] at hfollow
  obtain ⟨above, habove, hplace, hlast, hdot, hdots⟩ := last_of_leadsTo_file hfollow hfile
  have hreverse : (Path.pieces p).reverse =
      (Path.pieces p).getLast (Path.pieces_ne_nil p) :: (Path.pieces p).dropLast.reverse := by
    rw [← List.reverse_concat, hsplit]
  have hget := Folder.get?_of_sight? hfile
  rw [target, hempty, if_neg Bool.false_ne_true, hreverse]
  simp only [if_neg hlast, List.reverse_reverse, hdot, hdots, or_self, if_false, habove]
  rw [hplace] at hget
  simp only [bind, Except.bind, hget]
  rw [hplace]
  rfl

theorem write_of_leadsTo {disk : Disk} {p : Path} {place : List FileName} {content : List UInt8}
    (h : disk.LeadsTo p place) (hfile : disk.root.sight? place = some (.file content))
    (text : List Char) :
    disk.write p text = .ok { disk with root := disk.root.store (Utf8.encode text) place } := by
  rw [write, target_of_leadsTo h hfile]

end Disk

end ScratchFormat
