import Mathlib.Data.List.Forall2
import ScratchFormat.Proofs.Broken

/-! Blank lines that drift. What stands in a blank line outside long strings does not matter: the
rules treat all such lines alike, and at last the blanks at the ends of lines are cut off. Only
setting the gaps may bring a blank line into a long string, whose lines are content. -/

namespace ScratchFormat

/-- Two lines in the place of each other: they are the same, or both hold spaces and tabs only and
start outside long strings. -/
def Drift (mode : Mode) (raw raw' : List Char) : Prop :=
  raw = raw' ∨ (mode ≠ .longString ∧ (∀ c ∈ raw, isIndent c = true) ∧ ∀ c ∈ raw', isIndent c = true)

inductive Drifted : Mode → List (List Char) → List (List Char) → Prop
  | nil (mode : Mode) : Drifted mode [] []
  | cons {mode : Mode} {raw raw' : List Char} {ls ls' : List (List Char)}
    (first : Drift mode raw raw') (rest : Drifted (scanLine mode raw).endsIn.carried ls ls') :
    Drifted mode (raw :: ls) (raw' :: ls')

theorem endsIn_of_isIndent (mode : Mode) {raw : List Char} (h : ∀ c ∈ raw, isIndent c = true) :
    (scanLine mode raw).endsIn = mode :=
  endsIn_of_isSpace mode fun c hc => isSpace_of_isIndent (h c hc)

/-- A line ends in the same mode as one that drifts from it. -/
theorem Drift.endsIn_eq {mode : Mode} {raw raw' : List Char} (h : Drift mode raw raw') :
    (scanLine mode raw).endsIn = (scanLine mode raw').endsIn := by
  rcases h with rfl | ⟨-, hraw, hraw'⟩
  · rfl
  · rw [endsIn_of_isIndent mode hraw, endsIn_of_isIndent mode hraw']

namespace Drifted

theorem refl (mode : Mode) (ls : List (List Char)) : Drifted mode ls ls := by
  induction ls generalizing mode with
  | nil => exact .nil mode
  | cons raw ls ih => exact .cons (.inl rfl) (ih _)

theorem append {mode : Mode} {as as' bs bs' : List (List Char)} (has : Drifted mode as as')
    (hbs : Drifted (modeBelow mode as) bs bs') : Drifted mode (as ++ bs) (as' ++ bs') := by
  induction has with
  | nil => exact hbs
  | cons first _ ih => exact .cons first (ih hbs)

/-- Blank lines that drift in the lines drift in the text. -/
theorem unlines {ls ls' : List (List Char)} (h : Drifted .code ls ls')
    (hnewline : ∀ m ∈ ls, '\n' ∉ m) (hnewline' : ∀ m ∈ ls', '\n' ∉ m) :
    Drifted .code (lines (ScratchFormat.unlines ls)) (lines (ScratchFormat.unlines ls')) := by
  cases h with
  | nil =>
    -- no lines make up an empty text, which has one line
    exact refl .code _
  | cons first rest =>
    rw [lines_unlines (List.cons_ne_nil _ _) hnewline,
      lines_unlines (List.cons_ne_nil _ _) hnewline']
    exact .cons first rest

/-- Lines that are changed one by one in two ways drift from each other if each of them does, as
long as the modes stay. -/
theorem map {f f' : ScannedLine → List Char}
    (hmode : ∀ mode raw, (scanLine mode (f (scanLine mode raw))).endsIn =
      (scanLine mode raw).endsIn)
    {mode : Mode} {ls : List (List Char)}
    (h : ∀ l ∈ scanFrom mode ls, Drift l.startsIn (f l) (f' l)) :
    Drifted mode ((scanFrom mode ls).map f) ((scanFrom mode ls).map f') := by
  induction ls generalizing mode with
  | nil => exact .nil mode
  | cons raw ls ih =>
    refine .cons (h _ List.mem_cons_self) ?_
    rw [hmode]
    exact ih fun l hl => h l (List.mem_cons_of_mem _ hl)

end Drifted

/-- A rule takes blank lines outside long strings alike, whatever stands in them: it goes on from
the same state, and what it puts out for them drifts at most. -/
def TakesBlanksAlike {σ : Type} (rule : σ → ScannedLine → σ × Output) : Prop :=
  ∀ s mode raw raw', mode ≠ .longString → (∀ c ∈ raw, isIndent c = true) →
    (∀ c ∈ raw', isIndent c = true) →
    (rule s (scanLine mode raw)).1 = (rule s (scanLine mode raw')).1 ∧
      Drifted mode (rule s (scanLine mode raw)).2.lines (rule s (scanLine mode raw')).2.lines

/-- A walk that takes blank lines alike leaves texts that differ in blank lines only. -/
theorem Drifted.walk {σ : Type} {rule : σ → ScannedLine → σ × Output} (hkeeps : KeepsModes rule)
    (hrule : TakesBlanksAlike rule) (s : σ) {mode : Mode} {ls ls' : List (List Char)}
    (h : Drifted mode ls ls') :
    Drifted mode (ScratchFormat.walk rule s (scanFrom mode ls)).lines
      (ScratchFormat.walk rule s (scanFrom mode ls')).lines := by
  induction h generalizing s with
  | nil mode => exact .nil mode
  | @cons mode raw raw' ls ls' first rest ih =>
    have hstep : (rule s (scanLine mode raw)).1 = (rule s (scanLine mode raw')).1 ∧
        Drifted mode (rule s (scanLine mode raw)).2.lines
        (rule s (scanLine mode raw')).2.lines := by
      rcases first with rfl | ⟨hmode, hraw, hraw'⟩
      · exact ⟨rfl, refl mode _⟩
      · exact hrule s mode raw raw' hmode hraw hraw'
    rw [scanFrom, scanFrom, ScratchFormat.walk, ScratchFormat.walk, Output.append,
      Output.append, ← hstep.1, ← first.endsIn_eq]
    apply hstep.2.append
    -- what is put out for a line leaves the mode that the line leaves, which is that of the other line
    rw [hkeeps]
    exact ih _

theorem Drifted.unlines_walk {σ : Type} {rule : σ → ScannedLine → σ × Output} {s : σ}
    (hkeeps : KeepsModes rule) (hrule : TakesBlanksAlike rule)
    (hnewline : ∀ t, ∀ m ∈ (ScratchFormat.walk rule s (scan t)).lines, '\n' ∉ m)
    {text text' : List Char} (h : Drifted .code (lines text) (lines text')) :
    Drifted .code (lines (ScratchFormat.unlines (ScratchFormat.walk rule s (scan text)).lines))
      (lines (ScratchFormat.unlines (ScratchFormat.walk rule s (scan text')).lines)) :=
  (h.walk hkeeps hrule s).unlines (hnewline text) (hnewline text')

/-- A line that stays may drift. -/
theorem Drifted.stays {mode : Mode} {raw raw' : List Char} (hmode : mode ≠ .longString)
    (hraw : ∀ c ∈ raw, isIndent c = true) (hraw' : ∀ c ∈ raw', isIndent c = true) :
    Drifted mode [raw] [raw'] :=
  .cons (.inr ⟨hmode, hraw, hraw'⟩) (.nil _)

theorem isBlank_of_isIndent (mode : Mode) {raw : List Char} (h : ∀ c ∈ raw, isIndent c = true) :
    (scanLine mode raw).isBlank = true := by
  rw [ScannedLine.isBlank_scanLine]
  exact List.all_eq_true.mpr fun c hc => isSpace_of_isIndent (h c hc)

/-- Levels take blank lines outside long strings alike. -/
theorem Levels.takesBlanksAlike (style : Style) : TakesBlanksAlike (rule style) := by
  have hcode : ∀ s raw, (∀ c ∈ raw, isIndent c = true) →
      rule style s (scanLine .code raw) = (s, .line []) := by
    intro s raw hraw
    have hblank := isBlank_of_isIndent .code hraw
    have hstart : (scanLine .code raw).startsInCode = true := rfl
    simp [rule, ScannedLine.isCommentOnly, hblank, hstart]
  have hother : ∀ s mode raw, mode ≠ .code → rule style s (scanLine mode raw) = (s, .line raw) := by
    intro s mode raw hmode
    have hstart : (scanLine mode raw).startsInCode = false := decide_eq_false hmode
    simp only [rule, hstart, Bool.not_false, Bool.true_or, if_true]
    rfl
  intro s mode raw raw' hmode hraw hraw'
  by_cases hstart : mode = .code
  · subst hstart
    rw [hcode s raw hraw, hcode s raw' hraw']
    exact ⟨rfl, .refl _ _⟩
  · rw [hother s mode raw hstart, hother s mode raw' hstart]
    exact ⟨rfl, .stays hmode hraw hraw'⟩

/-- A rule for lines of code leaves blank lines where they are. -/
theorem takesBlanksAlike_of_isCodeLine {σ : Type} {rule : σ → ScannedLine → σ × Output}
    (h : ∀ s l, l.isCodeLine = false → rule s l = (s, .line l.raw)) : TakesBlanksAlike rule := by
  have hcode : ∀ mode raw, (∀ c ∈ raw, isIndent c = true) →
      (scanLine mode raw).isCodeLine = false := by
    intro mode raw hraw
    rw [ScannedLine.isCodeLine, isBlank_of_isIndent mode hraw, Bool.not_true, Bool.and_false,
      Bool.false_and]
  intro s mode raw raw' hmode hraw hraw'
  rw [h s _ (hcode mode raw hraw), h s _ (hcode mode raw' hraw')]
  exact ⟨rfl, .stays hmode hraw hraw'⟩

theorem Scopes.takesBlanksAlike (style : Style) : TakesBlanksAlike (rule style) := by
  apply takesBlanksAlike_of_isCodeLine
  intro s l hcode
  simp only [rule, hcode, Bool.not_false, if_true]

theorem Chains.takesBlanksAlike (style : Style) : TakesBlanksAlike (rule style) := by
  apply takesBlanksAlike_of_isCodeLine
  intro s l hcode
  simp only [rule, hcode, Bool.not_false, if_true]

/-- Paragraphs take blank lines outside long strings alike. -/
theorem Paragraphs.takesBlanksAlike : TakesBlanksAlike rule := by
  intro s mode raw raw' hmode hraw hraw'
  have hline := isBlank_of_isIndent mode hraw
  have hline' := isBlank_of_isIndent mode hraw'
  by_cases hcode : mode = .code
  · subst hcode
    have hstart : ∀ raw, (scanLine .code raw).startsInCode = true := fun _ => rfl
    simp only [rule, hstart, hline, hline', Bool.not_true, Bool.false_eq_true, if_false, if_true]
    exact ⟨trivial, .nil _⟩
  · have hstart : ∀ raw, (scanLine mode raw).startsInCode = false := fun _ => decide_eq_false hcode
    simp only [rule, hstart, Bool.not_false, if_true]
    exact ⟨rfl, .stays hmode hraw hraw'⟩

/-- Once the blanks at the ends of lines are cut off, lines that drift are the same. -/
theorem Endings.map_line_eq {mode : Mode} {ls ls' : List (List Char)} (h : Drifted mode ls ls') :
    (scanFrom mode ls).map line = (scanFrom mode ls').map line := by
  induction h with
  | nil => rfl
  | @cons mode raw raw' ls ls' first rest ih =>
    have hempty : ∀ cs : List Char, mode ≠ .longString → (∀ c ∈ cs, isIndent c = true) →
        line (scanLine mode cs) = [] := by
      intro cs hmode hcs
      rw [line, endsIn_of_isIndent mode hcs, if_neg hmode]
      exact dropEndWhile_eq_nil hcs
    have hfirst : line (scanLine mode raw) = line (scanLine mode raw') := by
      rcases first with rfl | ⟨hmode, hraw, hraw'⟩
      · rfl
      · rw [hempty raw hmode hraw, hempty raw' hmode hraw']
    rw [scanFrom, scanFrom, List.map_cons, List.map_cons, hfirst, ← first.endsIn_eq, ih]

theorem Endings.trim_eq {text text' : List Char} (h : Drifted .code (lines text) (lines text')) :
    trim text = trim text' := by
  unfold trim scan
  rw [map_line_eq h]

namespace Gaps

/-- Setting the gaps brings no blank line into a long string. -/
def KeepsBlanks (text : List Char) : Prop :=
  List.Forall₂
    (fun l l' => isBlankText l.raw = true → l'.startsIn = .longString → l.startsIn = .longString)
    (scan text) (scan (set text))

/-- A blank line stays as it is. -/
theorem line_of_isIndent (mode : Mode) {raw : List Char} (h : ∀ c ∈ raw, isIndent c = true) :
    line (scanLine mode raw) = raw := by
  rw [line, isBlank_of_isIndent mode h, Bool.true_or, if_pos rfl]
  rfl

/-- Lines that drift still do when their gaps are set, though they may start in another mode
then. -/
theorem drifted_map_line {mode mode' : Mode} {ls ls' : List (List Char)} (h : Drifted mode ls ls')
    (hblanks : List.Forall₂
      (fun l l' => isBlankText l.raw = true → l'.startsIn = .longString → l.startsIn = .longString)
      (scanFrom mode ls) (scanFrom mode' ((scanFrom mode ls).map line))) :
    Drifted mode' ((scanFrom mode ls).map line) ((scanFrom mode ls').map line) := by
  induction h generalizing mode' with
  | nil => exact .nil mode'
  | @cons mode raw raw' ls ls' first rest ih =>
    rw [scanFrom, List.map_cons, scanFrom, List.forall₂_cons] at hblanks
    obtain ⟨hline, hrest⟩ := hblanks
    rw [scanFrom, scanFrom, List.map_cons, List.map_cons, ← first.endsIn_eq]
    refine .cons ?_ (ih hrest)
    rcases first with rfl | ⟨hmode, hraw, hraw'⟩
    · exact .inl rfl
    · rw [line_of_isIndent mode hraw, line_of_isIndent mode hraw']
      refine .inr ⟨?_, hraw, hraw'⟩
      -- the line may start in another mode now, but not in a long string
      intro hlong
      have hblank : isBlankText raw = true := List.all_eq_true.mpr fun c hc =>
        isSpace_of_isIndent (hraw c hc)
      exact hmode (hline hblank hlong)

theorem drifted_set {text text' : List Char} (h : Drifted .code (lines text) (lines text'))
    (hblanks : KeepsBlanks text) : Drifted .code (lines (set text)) (lines (set text')) := by
  rw [KeepsBlanks, scan, scan, lines_set] at hblanks
  rw [lines_set, lines_set]
  exact drifted_map_line h hblanks

end Gaps

/-- Texts that drift from each other are laid out alike. -/
theorem layout_eq_of_drifted (style : Style) {text text' : List Char}
    (h : Drifted .code (lines text) (lines text')) (hblanks : Gaps.KeepsBlanks text) :
    Endings.trim (Paragraphs.separate (Chains.layOut style (Scopes.align style
        (Levels.assign style (Gaps.set text)).text).text).text) =
      Endings.trim (Paragraphs.separate (Chains.layOut style (Scopes.align style
        (Levels.assign style (Gaps.set text')).text).text).text) := by
  apply Endings.trim_eq
  apply Drifted.unlines_walk Paragraphs.keepsModes Paragraphs.takesBlanksAlike
    (Paragraphs.newline_notMem_lines _)
  apply Drifted.unlines_walk (Chains.keepsModes style) (Chains.takesBlanksAlike style)
    (Chains.newline_notMem_lines style _)
  apply Drifted.unlines_walk (Scopes.keepsModes style) (Scopes.takesBlanksAlike style)
    (Scopes.newline_notMem_lines style _)
  apply Drifted.unlines_walk (Levels.keepsModes style) (Levels.takesBlanksAlike style)
    (Levels.newline_notMem_lines style _)
  exact Gaps.drifted_set h hblanks

end ScratchFormat
