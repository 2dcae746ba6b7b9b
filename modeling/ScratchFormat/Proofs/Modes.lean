import ScratchFormat.Proofs.Alphabet
import ScratchFormat.Proofs.Edges

/-! Modes from line to line. What the scanner carries into a line comes from the lines above it, so
a layout rule must not only leave a line readable: what it puts out has to leave the scanner in the
mode that the line itself leaves. -/

namespace ScratchFormat

def modeBelow (mode : Mode) : List (List Char) → Mode
  | [] => mode
  | l :: ls => modeBelow (scanLine mode l).endsIn.carried ls

theorem modeBelow_append (mode : Mode) (as bs : List (List Char)) :
    modeBelow mode (as ++ bs) = modeBelow (modeBelow mode as) bs := by
  induction as generalizing mode with
  | nil => rfl
  | cons l as ih => exact ih _

theorem scanFrom_append (mode : Mode) (as bs : List (List Char)) :
    scanFrom mode (as ++ bs) = scanFrom mode as ++ scanFrom (modeBelow mode as) bs := by
  induction as generalizing mode with
  | nil => rfl
  | cons l as ih => rw [List.cons_append, scanFrom, scanFrom, ih, List.cons_append, modeBelow]

theorem scan_unlines {ls : List (List Char)} (hne : ls ≠ []) (h : ∀ l ∈ ls, '\n' ∉ l) :
    scan (unlines ls) = scanFrom .code ls := by
  rw [scan, lines_unlines hne h]

/-- The scanned lines of a text that is put together from lines. No lines at all make up a text with
one empty line. -/
theorem mem_scan_unlines {ls : List (List Char)} (h : ∀ l ∈ ls, '\n' ∉ l) {m : ScannedLine}
    (hm : m ∈ scan (unlines ls)) : m ∈ scanFrom .code ls ∨ m = scanLine .code [] := by
  by_cases hne : ls = []
  · subst hne
    exact .inr (List.mem_singleton.mp hm)
  · rw [scan_unlines hne h] at hm
    exact .inl hm

/-- Lines may be changed one by one as long as each still ends in its mode: then all start in
theirs. -/
theorem scanFrom_map {f : ScannedLine → List Char}
    (hf : ∀ mode raw, (scanLine mode (f (scanLine mode raw))).endsIn = (scanLine mode raw).endsIn)
    (mode : Mode) (ls : List (List Char)) :
    scanFrom mode ((scanFrom mode ls).map f) = (scanFrom mode ls).map fun l =>
      scanLine l.startsIn (f l) := by
  induction ls generalizing mode with
  | nil => rfl
  | cons raw ls ih =>
    rw [scanFrom, List.map_cons, scanFrom, hf, ih, List.map_cons]
    rfl

def KeepsModes {σ : Type} (rule : σ → ScannedLine → σ × Output) : Prop :=
  ∀ s mode raw, modeBelow mode (rule s (scanLine mode raw)).2.lines =
    (scanLine mode raw).endsIn.carried

section Walk

variable {σ : Type} {rule : σ → ScannedLine → σ × Output}

/-- Under a rule that keeps the modes, the lines put out for a line are scanned from the mode in
which the line starts. -/
theorem KeepsModes.scanFrom_walk (h : KeepsModes rule) (s : σ) (mode : Mode) (raw : List Char)
    (ls : List (List Char)) :
    scanFrom mode (walk rule s (scanFrom mode (raw :: ls))).lines =
      scanFrom mode (rule s (scanLine mode raw)).2.lines ++
        scanFrom (scanLine mode raw).endsIn.carried
          (walk rule (rule s (scanLine mode raw)).1
            (scanFrom (scanLine mode raw).endsIn.carried ls)).lines := by
  rw [scanFrom, walk, Output.append, scanFrom_append, h]

/-- What one step makes sure of, as long as the state is as it should be, holds of all lines that a
walk puts out. -/
theorem KeepsModes.forall_walk (h : KeepsModes rule) (inv : σ → Prop)
    {P : ScannedLine → Prop} {mode : Mode} {ls : List (List Char)}
    (hstep : ∀ s, ∀ l ∈ scanFrom mode ls, l = scanLine l.startsIn l.raw → inv s →
      inv (rule s l).1 ∧ ∀ m ∈ scanFrom l.startsIn (rule s l).2.lines, P m)
    {s : σ} (hs : inv s) : ∀ m ∈ scanFrom mode (walk rule s (scanFrom mode ls)).lines, P m := by
  induction ls generalizing mode s with
  | nil => exact nofun
  | cons raw ls ih =>
    obtain ⟨hnext, hfirst⟩ := hstep s (scanLine mode raw) List.mem_cons_self rfl hs
    rw [h.scanFrom_walk, List.forall_mem_append]
    refine ⟨hfirst, ih ?_ hnext⟩
    intro s l hl
    exact hstep s l (List.mem_cons_of_mem _ hl)

end Walk

theorem newline_notMem_walk {σ : Type} {rule : σ → ScannedLine → σ × Output}
    (hrule : ∀ s l, l.raw = l.segments.flatMap Segment.text → (∀ c ∈ l.raw, c ≠ '\n') →
      ∀ m ∈ (rule s l).2.lines, ∀ c ∈ m, c ≠ '\n')
    (s : σ) (text : List Char) : ∀ m ∈ (walk rule s (scan text)).lines, '\n' ∉ m := by
  intro m hm hmem
  refine ok_walk_lines hrule s (fun l hl c hc heq => ?_) m hm '\n' hmem rfl
  exact newline_notMem_of_mem_lines hl (heq ▸ hc)

theorem Levels.newline_notMem_lines (style : Style) (s : Levels) (text : List Char) :
    ∀ m ∈ (walk (rule style) s (scan text)).lines, '\n' ∉ m :=
  newline_notMem_walk (fun s _ _ => ok_levels_rule (by decide) (by decide) style s) s text

theorem Scopes.newline_notMem_lines (style : Style) (s : Scopes) (text : List Char) :
    ∀ m ∈ (walk (rule style) s (scan text)).lines, '\n' ∉ m :=
  newline_notMem_walk (fun s _ _ => ok_scopes_rule (by decide) (by decide) style s) s text

theorem Chains.newline_notMem_lines (style : Style) (s : Chains) (text : List Char) :
    ∀ m ∈ (walk (rule style) s (scan text)).lines, '\n' ∉ m :=
  newline_notMem_walk (fun s _ hl => ok_rule (by decide) (by decide) style s hl) s text

theorem Paragraphs.newline_notMem_lines (s : Paragraphs) (text : List Char) :
    ∀ m ∈ (walk rule s (scan text)).lines, '\n' ∉ m :=
  newline_notMem_walk (fun s _ _ => ok_paragraphs_rule s) s text

/-- Indentation is made of spaces and tabs. -/
theorem isIndent_of_mem_render {style : Style} {cols : Nat} {c : Char} (h : c ∈ style.render cols) :
    isIndent c = true := by
  unfold Style.render at h
  split at h
  · rw [List.eq_of_mem_replicate h]
    rfl
  · rcases List.mem_append.mp h with h | h
    · rw [List.eq_of_mem_replicate h]
      rfl
    · rw [List.eq_of_mem_replicate h]
      rfl

theorem isSpace_of_mem_render {style : Style} {cols : Nat} {c : Char} (h : c ∈ style.render cols) :
    isSpace c = true :=
  isSpace_of_isIndent (isIndent_of_mem_render h)

/-- A line that is put in another column ends in the same mode. -/
theorem endsIn_place (mode : Mode) (style : Style) (cols : Nat) (raw : List Char) :
    (scanLine mode (style.place cols (raw.dropWhile isIndent))).endsIn =
      (scanLine mode raw).endsIn := by
  have hindent : ∀ c ∈ raw.takeWhile isIndent, isSpace c = true := fun _ => isSpace_of_mem_indent
  have hraw := endsIn_space_append mode hindent (raw.dropWhile isIndent)
  rw [List.takeWhile_append_dropWhile] at hraw
  rw [hraw]
  exact endsIn_space_append mode (fun _ hc => isSpace_of_isIndent (isIndent_of_mem_render hc)) _

theorem isSpace_of_isBlank {mode : Mode} {raw : List Char}
    (h : (scanLine mode raw).isBlank = true) : ∀ c ∈ raw, isSpace c = true := by
  rw [ScannedLine.isBlank_scanLine] at h
  exact List.all_eq_true.mp h

namespace Levels

/-- A line keeps its text, is emptied if it is blank, or is put at a level. -/
theorem rule_lines (style : Style) (s : Levels) (l : ScannedLine) :
    ((rule style s l).2.lines = [l.raw] ∧ l.isCodeLine = false) ∨
      (l.isBlank = true ∧ (rule style s l).2.lines = [[]]) ∨
      ∃ level, (rule style s l).2.lines =
        [style.place (style.colsOf level) (l.raw.dropWhile isIndent)] := by
  unfold rule
  split
  · rename_i h
    refine .inl ⟨rfl, ?_⟩
    cases hcode : l.startsInCode <;> simp_all [ScannedLine.isCodeLine]
  split
  · rename_i hblank
    exact .inr (.inl ⟨hblank, rfl⟩)
  · exact .inr (.inr ⟨_, rfl⟩)

/-- The paragraphs keep the modes of their lines. -/
theorem keepsModes (style : Style) : KeepsModes (rule style) := by
  intro s mode raw
  rcases rule_lines style s (scanLine mode raw)
    with ⟨hlines, -⟩ | ⟨hblank, hlines⟩ | ⟨level, hlines⟩
  · rw [hlines]
    rfl
  · rw [hlines, endsIn_of_isSpace mode (isSpace_of_isBlank hblank)]
    rfl
  · rw [hlines, modeBelow, endsIn_place]
    rfl

end Levels

namespace Scopes

/-- A line stays, or is a line of code and stands in its column afterwards. -/
theorem rule_cases (style : Style) (s : Scopes) (l : ScannedLine) :
    rule style s l = (s, .line l.raw) ∨
      (l.isCodeLine = true ∧ ∃ binding opener column,
        column = s.column style binding (style.columns l.raw) ∧
        (rule style s l).1 = s.after style binding opener (style.columns l.raw) column ∧
        ((rule style s l).2.lines = [l.raw] ∨
          (rule style s l).2.lines = [style.place column (l.raw.dropWhile isIndent)])) := by
  unfold rule
  split
  · exact .inl rfl
  · rename_i hcode
    refine .inr ⟨by simpa using hcode, (bindingHead? (trim l.codeText)).isSome,
      opensBlock (trim l.codeText), _, rfl, rfl, ?_⟩
    simp only [Style.measure]
    by_cases hcol : s.column style (bindingHead? (trim l.codeText)).isSome (style.columns l.raw) =
        style.columns l.raw
    · exact .inl (by simp [hcol])
    · exact .inr (by simp [hcol])

theorem keepsModes (style : Style) : KeepsModes (rule style) := by
  intro s mode raw
  rcases rule_cases style s (scanLine mode raw)
    with hrule | ⟨-, -, -, column, -, -, hlines | hlines⟩
  · rw [hrule]
    rfl
  · rw [hlines]
    rfl
  · rw [hlines, modeBelow, endsIn_place]
    rfl

end Scopes

namespace Paragraphs

/-- A blank line of code goes; any other line is put out, after an empty line only if it starts in
code and is not blank. -/
theorem rule_lines (s : Paragraphs) (l : ScannedLine) :
    (l.startsInCode = false ∧ (rule s l).2.lines = [l.raw]) ∨
      (l.startsInCode = true ∧ l.isBlank = true ∧ (rule s l).2.lines = []) ∨
      (l.startsInCode = true ∧ l.isBlank = false ∧
        ((rule s l).2.lines = [l.raw] ∨ (rule s l).2.lines = [[], l.raw])) := by
  unfold rule
  cases hcode : l.startsInCode with
  | false => exact .inl ⟨rfl, rfl⟩
  | true =>
    cases hblank : l.isBlank with
    | true => exact .inr (.inl ⟨rfl, rfl, rfl⟩)
    | false =>
      refine .inr (.inr ⟨rfl, rfl, ?_⟩)
      simp only [Bool.not_true, Bool.false_eq_true, if_false]
      split
      · exact .inr rfl
      · exact .inl rfl

theorem keepsModes : KeepsModes rule := by
  intro s mode raw
  rcases rule_lines s (scanLine mode raw)
    with ⟨-, hlines⟩ | ⟨hcode, hblank, hlines⟩ | ⟨hcode, -, hlines | hlines⟩
  · rw [hlines]
    rfl
  · have hmode : mode = .code := of_decide_eq_true hcode
    rw [hlines, endsIn_of_isSpace mode (isSpace_of_isBlank hblank), hmode]
    rfl
  · rw [hlines]
    rfl
  · have hmode : mode = .code := of_decide_eq_true hcode
    subst hmode
    rw [hlines]
    rfl

end Paragraphs

namespace Endings

/-- What is cut off a line is blank. -/
theorem line_append (l : ScannedLine) :
    ∃ tail, line l ++ tail = l.raw ∧ ∀ c ∈ tail, isIndent c = true := by
  unfold line
  split
  · exact ⟨[], List.append_nil _, nofun⟩
  · exact dropEndWhile_append isIndent l.raw

theorem endsIn_line (mode : Mode) (raw : List Char) :
    (scanLine mode (line (scanLine mode raw))).endsIn = (scanLine mode raw).endsIn := by
  obtain ⟨tail, htail, hblank⟩ := line_append (scanLine mode raw)
  have hends : (Cursor.start mode).Ends (line (scanLine mode raw)) := nofun
  have hfinal := Cursor.final_append_space hends fun c hc => isSpace_of_isIndent (hblank c hc)
  rw [htail] at hfinal
  exact hfinal.symm

theorem newline_notMem_line {text : List Char} {l : ScannedLine} (h : l ∈ scan text) :
    '\n' ∉ line l := by
  obtain ⟨tail, htail, -⟩ := line_append l
  intro hmem
  exact newline_notMem_of_mem_lines (mem_scan h).2 (htail ▸ List.mem_append_left tail hmem)

/-- Of lines that are trimmed one by one the last ones are dropped that become empty. -/
theorem exists_dropEmptyEnd_map (f : ScannedLine → List Char) (ls : List ScannedLine) :
    ∃ kept dropped, ls = kept ++ dropped ∧ dropEmptyEnd (ls.map f) = kept.map f ∧
      (∀ l ∈ dropped, f l = []) ∧ ∀ l ∈ kept.getLast?, f l ≠ [] := by
  refine ⟨(ls.reverse.dropWhile fun l => (f l).isEmpty).reverse,
    (ls.reverse.takeWhile fun l => (f l).isEmpty).reverse, ?_, ?_, ?_, ?_⟩
  · rw [← List.reverse_append, List.takeWhile_append_dropWhile, List.reverse_reverse]
  · rw [dropEmptyEnd, ← List.map_reverse, List.dropWhile_map, ← List.map_reverse]
    rfl
  · intro l hl
    have hall := List.all_eq_true.mp List.all_takeWhile l (List.mem_reverse.mp hl)
    exact List.isEmpty_iff.mp hall
  · intro l hl
    rw [List.getLast?_reverse] at hl
    simpa using head?_dropWhile_eq_false (fun l => (f l).isEmpty) ls.reverse l hl

/-- Lines that are trimmed start as before, because each of them ends as before. -/
theorem scanFrom_trimmed {text : List Char} {kept dropped : List ScannedLine}
    (hsplit : scan text = kept ++ dropped) :
    scanFrom .code (kept.map line) = kept.map fun l => scanLine l.startsIn (line l) := by
  have hmap := scanFrom_map endsIn_line .code (lines text)
  rw [← scan, hsplit, List.map_append, List.map_append, scanFrom_append] at hmap
  refine (List.append_inj hmap ?_).1
  rw [List.length_map, ← List.length_map ScannedLine.raw, scanFrom_map_raw, List.length_map]

/-- The lines of a trimmed text are those that are not dropped, each trimmed, and behind the last
line feed an empty one. -/
theorem exists_scan_trim {text : List Char} {kept dropped : List ScannedLine}
    (hsplit : scan text = kept ++ dropped)
    (hkept : dropEmptyEnd ((scan text).map line) = kept.map line) :
    ∃ mode, scan (trim text) = (kept.map fun l => scanLine l.startsIn (line l)) ++
      [scanLine mode []] := by
  refine ⟨modeBelow .code (kept.map line), ?_⟩
  rw [trim, hkept, ← scanFrom_trimmed hsplit]
  cases hlines : kept.map line with
  | nil => rfl
  | cons l ls =>
    simp only
    have hnewline : ∀ m ∈ l :: ls, '\n' ∉ m := by
      rw [← hlines, List.forall_mem_map]
      intro k hk
      have hmem : k ∈ scan text := by
        rw [hsplit]
        exact List.mem_append_left dropped hk
      exact newline_notMem_line hmem
    have hcut : lines (unlines (l :: ls) ++ ['\n']) = (l :: ls) ++ [[]] := by
      rw [lines_append, lines_unlines (List.cons_ne_nil l ls) hnewline]
      rfl
    rw [scan, hcut, scanFrom_append]
    rfl

/-- The lines of a text after its ends are trimmed: nothing is left, or some of its lines, of which
the last is not empty, and the empty line behind the last line feed. All start in their modes. -/
theorem scan_trim (text : List Char) :
    trim text = [] ∨
      ∃ kept last mode, trim text = unlines (kept ++ [last]) ++ ['\n'] ∧ last ≠ [] ∧
        scan (trim text) = scanFrom .code (kept ++ [last]) ++ [scanLine mode []] ∧
        scanFrom .code (kept ++ [last]) <+: (scan text).map fun l =>
          scanLine l.startsIn (line l) := by
  obtain ⟨kept, dropped, hsplit, hkept, -, hlast⟩ := exists_dropEmptyEnd_map line (scan text)
  obtain ⟨mode, hscan⟩ := exists_scan_trim hsplit hkept
  rw [← scanFrom_trimmed hsplit] at hscan
  have hpre : scanFrom .code (kept.map line) <+: (scan text).map fun l =>
      scanLine l.startsIn (line l) := by
    rw [scanFrom_trimmed hsplit, hsplit, List.map_append]
    exact List.prefix_append _ _
  rcases List.eq_nil_or_concat kept with rfl | ⟨front, l, rfl⟩
  · refine .inl ?_
    rw [trim, hkept]
    rfl
  · rw [List.concat_eq_append, List.map_append, List.map_singleton] at hscan hpre hkept
    refine .inr ⟨front.map line, line l, mode, ?_, hlast l (by simp), hscan, hpre⟩
    rw [trim, hkept]
    cases front.map line <;> rfl

/-- Every line of a text after its ends are trimmed is one of the text without the blanks at its
end, or is empty. -/
theorem mem_scan_trim {text : List Char} {m : ScannedLine} (hm : m ∈ scan (trim text)) :
    (∃ l ∈ scan text, m = scanLine l.startsIn (line l)) ∨ ∃ mode, m = scanLine mode [] := by
  rcases scan_trim text with hempty | ⟨kept, last, mode, -, -, hscan, hpre⟩
  · rw [hempty] at hm
    exact .inr ⟨.code, List.mem_singleton.mp hm⟩
  · rw [hscan, List.mem_append] at hm
    rcases hm with hm | hm
    · obtain ⟨l, hl, rfl⟩ := List.mem_map.mp (hpre.subset hm)
      exact .inl ⟨l, hl, rfl⟩
    · exact .inr ⟨mode, List.mem_singleton.mp hm⟩

end Endings

end ScratchFormat
