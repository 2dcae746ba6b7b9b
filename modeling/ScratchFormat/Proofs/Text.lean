import ScratchFormat.Text.Basic

/-! Lines and their joining, blanks at the two ends of a text, and the view of a text that leaves
its white space out. -/

namespace ScratchFormat

theorem isSpace_of_isIndent {c : Char} (h : isIndent c = true) : isSpace c = true := by
  simp only [isIndent, Bool.or_eq_true, beq_iff_eq] at h
  rcases h with rfl | rfl <;> rfl

theorem isSpace_of_mem_indent {raw : List Char} {c : Char} (h : c ∈ raw.takeWhile isIndent) :
    isSpace c = true :=
  isSpace_of_isIndent (List.all_eq_true.mp List.all_takeWhile c h)

/-- What is left behind a run of elements in `p` does not begin with another one. -/
theorem head?_dropWhile_eq_false {α : Type} (p : α → Bool) (as : List α) :
    ∀ a ∈ (as.dropWhile p).head?, p a = false := by
  intro a ha
  have hnot := List.head?_dropWhile_not p as
  rw [Option.mem_def.mp ha] at hnot
  simpa using hnot

/-- A text begins with what is dropped from it and ends with what is left. -/
theorem getLast?_cons_or (c : Char) (cs : List Char) (prev : Option Char) :
    (c :: cs).getLast?.or prev = cs.getLast?.or (some c) := by
  rw [List.getLast?_cons]
  cases cs.getLast? <;> rfl

/-- The last character of a text that does not end before `c`. -/
theorem getLast?_append_cons (as : List Char) (c : Char) (cs : List Char) :
    (as ++ c :: cs).getLast? = cs.getLast?.or (some c) := by
  rw [List.getLast?_append, getLast?_cons_or]

theorem exists_getLast? {α : Type} {as : List α} (h : as ≠ []) : ∃ a, as.getLast? = some a :=
  ⟨as.getLast h, List.getLast?_eq_some_getLast h⟩

theorem dropEndWhile_append (p : Char → Bool) (cs : List Char) :
    ∃ tail, dropEndWhile p cs ++ tail = cs ∧ ∀ c ∈ tail, p c = true := by
  refine ⟨(cs.reverse.takeWhile p).reverse, ?_, ?_⟩
  · rw [dropEndWhile, ← List.reverse_append, List.takeWhile_append_dropWhile, List.reverse_reverse]
  · intro c hc
    have hall := List.all_takeWhile (p := p) (l := cs.reverse)
    exact List.all_eq_true.mp hall c (List.mem_reverse.mp hc)

theorem dropEndWhile_eq_nil {p : Char → Bool} {cs : List Char} (h : ∀ c ∈ cs, p c = true) :
    dropEndWhile p cs = [] := by
  have hall : ∀ c ∈ cs.reverse, p c = true := fun c hc => h c (List.mem_reverse.mp hc)
  have hdrop : (cs.reverse ++ []).dropWhile p = [] := List.dropWhile_append_of_pos hall
  rw [List.append_nil] at hdrop
  rw [dropEndWhile, hdrop]
  rfl

theorem takeWhile_append_of_head {p : Char → Bool} (as : List Char) {bs : List Char}
    (h : ∀ b ∈ bs.head?, p b = false) : (as ++ bs).takeWhile p = as.takeWhile p := by
  induction as with
  | nil =>
    cases bs with
    | nil => rfl
    | cons b bs => simp [h b rfl]
  | cons a as ih =>
    rw [List.cons_append, List.takeWhile_cons, List.takeWhile_cons, ih]

theorem dropWhile_append_of_head {p : Char → Bool} (as : List Char) {bs : List Char}
    (h : ∀ b ∈ bs.head?, p b = false) : (as ++ bs).dropWhile p = as.dropWhile p ++ bs := by
  have hstays : bs.dropWhile p = bs := by
    cases bs with
    | nil => rfl
    | cons b bs => exact List.dropWhile_cons_of_neg (by simp [h b rfl])
  rw [List.dropWhile_append, hstays]
  split
  · rename_i hempty
    rw [List.isEmpty_iff.mp hempty, List.nil_append]
  · rfl

theorem lines_ne_nil (t : List Char) : lines t ≠ [] := by
  cases t with
  | nil => simp [lines]
  | cons c cs =>
    rw [lines]
    split
    · simp
    · split <;> simp

theorem lines_newline (cs : List Char) : lines ('\n' :: cs) = [] :: lines cs := by
  simp [lines]

theorem lines_cons_of_ne {c : Char} (h : c ≠ '\n') (cs : List Char) :
    ∃ l ls, lines cs = l :: ls ∧ lines (c :: cs) = (c :: l) :: ls := by
  obtain ⟨l, ls, he⟩ := List.exists_cons_of_ne_nil (lines_ne_nil cs)
  refine ⟨l, ls, he, ?_⟩
  rw [lines, if_neg h, he]

theorem unlines_cons_of_ne_nil (l : List Char) {ls : List (List Char)} (h : ls ≠ []) :
    unlines (l :: ls) = l ++ '\n' :: unlines ls := by
  obtain ⟨l', ls', rfl⟩ := List.exists_cons_of_ne_nil h
  rfl

theorem unlines_cons_cons (c : Char) (l : List Char) (ls : List (List Char)) :
    unlines ((c :: l) :: ls) = c :: unlines (l :: ls) := by
  cases ls <;> rfl

/-- The lines of a text make it up again. -/
theorem unlines_lines (t : List Char) : unlines (lines t) = t := by
  induction t with
  | nil => rfl
  | cons c cs ih =>
    by_cases h : c = '\n'
    · subst h
      rw [lines_newline, unlines_cons_of_ne_nil _ (lines_ne_nil cs), ih]
      rfl
    · obtain ⟨l, ls, he, hc⟩ := lines_cons_of_ne h cs
      rw [hc, unlines_cons_cons, ← he, ih]

/-- No line holds a line feed. -/
theorem newline_notMem_of_mem_lines {t l : List Char} (h : l ∈ lines t) : '\n' ∉ l := by
  induction t generalizing l with
  | nil =>
    simp only [lines, List.mem_singleton] at h
    simp [h]
  | cons c cs ih =>
    by_cases hc : c = '\n'
    · subst hc
      rw [lines_newline, List.mem_cons] at h
      rcases h with rfl | h
      · simp
      · exact ih h
    · obtain ⟨m, ms, he, hl⟩ := lines_cons_of_ne hc cs
      rw [hl, List.mem_cons] at h
      rcases h with rfl | h
      · have hm : '\n' ∉ m := ih (by rw [he]; exact List.mem_cons_self)
        simp only [List.mem_cons, not_or]
        exact ⟨fun e => hc e.symm, hm⟩
      · exact ih (by rw [he]; exact List.mem_cons_of_mem m h)

theorem lines_eq_singleton {l : List Char} (h : '\n' ∉ l) : lines l = [l] := by
  induction l with
  | nil => rfl
  | cons c cs ih =>
    simp only [List.mem_cons, not_or] at h
    obtain ⟨m, ms, he, hl⟩ := lines_cons_of_ne (fun e => h.1 e.symm) cs
    rw [ih h.2, List.cons.injEq] at he
    rw [hl, ← he.1, ← he.2]

theorem lines_append_newline {l : List Char} (h : '\n' ∉ l) (cs : List Char) :
    lines (l ++ '\n' :: cs) = l :: lines cs := by
  induction l with
  | nil => exact lines_newline cs
  | cons c l ih =>
    simp only [List.mem_cons, not_or] at h
    obtain ⟨m, ms, he, hl⟩ := lines_cons_of_ne (fun e => h.1 e.symm) (l ++ '\n' :: cs)
    rw [ih h.2, List.cons.injEq] at he
    rw [List.cons_append, hl, ← he.1, he.2]

/-- A line feed between two texts cuts their lines apart. -/
theorem lines_append (as cs : List Char) : lines (as ++ '\n' :: cs) = lines as ++ lines cs := by
  induction as with
  | nil => exact lines_newline cs
  | cons a as ih =>
    by_cases ha : a = '\n'
    · subst ha
      rw [List.cons_append, lines_newline, lines_newline, ih]
      rfl
    · obtain ⟨m, ms, hms, hall⟩ := lines_cons_of_ne ha as
      obtain ⟨n, ns, hns, hall'⟩ := lines_cons_of_ne ha (as ++ '\n' :: cs)
      rw [ih, hms, List.cons_append, List.cons.injEq] at hns
      rw [List.cons_append, hall', hall, ← hns.1, ← hns.2]
      rfl

/-- Lines without line feeds are the lines of their joining. -/
theorem lines_unlines {ls : List (List Char)} (hne : ls ≠ []) (h : ∀ l ∈ ls, '\n' ∉ l) :
    lines (unlines ls) = ls := by
  induction ls with
  | nil => exact absurd rfl hne
  | cons l ls ih =>
    have hl := h l List.mem_cons_self
    by_cases hls : ls = []
    · subst hls
      exact lines_eq_singleton hl
    · rw [unlines_cons_of_ne_nil l hls, lines_append_newline hl,
        ih hls fun m hm => h m (List.mem_cons_of_mem l hm)]

def without (p : Char → Bool) (cs : List Char) : List Char := cs.filter fun c => !p c

section Without

variable {p : Char → Bool}

@[simp] theorem without_nil : without p [] = [] := rfl

@[simp] theorem without_append (as bs : List Char) :
    without p (as ++ bs) = without p as ++ without p bs :=
  List.filter_append as bs

theorem without_cons (c : Char) (cs : List Char) :
    without p (c :: cs) = without p [c] ++ without p cs :=
  without_append [c] cs

theorem without_reverse (cs : List Char) : without p cs.reverse = (without p cs).reverse :=
  List.filter_reverse

theorem without_cons_of_mem {c : Char} (h : p c = true) (cs : List Char) :
    without p (c :: cs) = without p cs := by
  simp [without, h]

theorem without_eq_nil {cs : List Char} (h : ∀ c ∈ cs, p c = true) : without p cs = [] := by
  rw [without, List.filter_eq_nil_iff]
  intro c hc
  simp [h c hc]

theorem without_takeWhile {q : Char → Bool} (hq : ∀ c, q c = true → p c = true) (cs : List Char) :
    without p (cs.takeWhile q) = [] :=
  without_eq_nil fun c hc => hq c (List.all_eq_true.mp List.all_takeWhile c hc)

theorem without_dropWhile {q : Char → Bool} (hq : ∀ c, q c = true → p c = true) (cs : List Char) :
    without p (cs.dropWhile q) = without p cs := by
  have h : without p (cs.takeWhile q ++ cs.dropWhile q) = without p (cs.dropWhile q) := by
    rw [without_append, without_takeWhile hq, List.nil_append]
  rw [← h, List.takeWhile_append_dropWhile]

theorem without_dropEndWhile {q : Char → Bool} (hq : ∀ c, q c = true → p c = true)
    (cs : List Char) : without p (dropEndWhile q cs) = without p cs := by
  rw [dropEndWhile, without_reverse, without_dropWhile hq, without_reverse, List.reverse_reverse]

end Without

/-- The characters of a text that are not white space, in order. -/
def solid (cs : List Char) : List Char := cs.filter fun c => !isSpace c

@[simp] theorem solid_nil : solid [] = [] := rfl

@[simp] theorem solid_append (as bs : List Char) : solid (as ++ bs) = solid as ++ solid bs :=
  without_append as bs

theorem solid_cons (c : Char) (cs : List Char) : solid (c :: cs) = solid [c] ++ solid cs :=
  without_cons c cs

theorem solid_reverse (cs : List Char) : solid cs.reverse = (solid cs).reverse :=
  without_reverse cs

@[simp] theorem solid_cons_of_space {c : Char} (h : isSpace c = true) (cs : List Char) :
    solid (c :: cs) = solid cs :=
  without_cons_of_mem h cs

theorem solid_eq_nil {cs : List Char} (h : ∀ c ∈ cs, isSpace c = true) : solid cs = [] :=
  without_eq_nil h

theorem solid_eq_nil_of_isBlankText {cs : List Char} (h : isBlankText cs = true) :
    solid cs = [] :=
  solid_eq_nil (List.all_eq_true.mp h)

theorem isBlankText_iff (cs : List Char) : isBlankText cs = true ↔ solid cs = [] := by
  simp [isBlankText, solid, List.filter_eq_nil_iff]

theorem solid_takeWhile {p : Char → Bool} (hp : ∀ c, p c = true → isSpace c = true)
    (cs : List Char) : solid (cs.takeWhile p) = [] :=
  without_takeWhile hp cs

theorem solid_dropWhile {p : Char → Bool} (hp : ∀ c, p c = true → isSpace c = true)
    (cs : List Char) : solid (cs.dropWhile p) = solid cs :=
  without_dropWhile hp cs

theorem solid_dropEndWhile {p : Char → Bool} (hp : ∀ c, p c = true → isSpace c = true)
    (cs : List Char) : solid (dropEndWhile p cs) = solid cs :=
  without_dropEndWhile hp cs

@[simp] theorem solid_takeWhile_isIndent (cs : List Char) : solid (cs.takeWhile isIndent) = [] :=
  solid_takeWhile (fun _ h => isSpace_of_isIndent h) cs

@[simp] theorem solid_dropWhile_isIndent (cs : List Char) :
    solid (cs.dropWhile isIndent) = solid cs :=
  solid_dropWhile (fun _ h => isSpace_of_isIndent h) cs

@[simp] theorem solid_trimStart (cs : List Char) : solid (trimStart cs) = solid cs :=
  solid_dropWhile (fun _ h => h) cs

@[simp] theorem solid_trim (cs : List Char) : solid (trim cs) = solid cs := by
  rw [trim, solid_dropEndWhile (fun _ h => h), solid_trimStart]

theorem solid_unlines (ls : List (List Char)) : solid (unlines ls) = ls.flatMap solid := by
  induction ls with
  | nil => rfl
  | cons l ls ih =>
    by_cases h : ls = []
    · subst h
      simp [unlines]
    · rw [unlines_cons_of_ne_nil l h, solid_append, solid_cons_of_space (by rfl), ih,
        List.flatMap_cons]

end ScratchFormat
