import Mathlib.Data.List.Chain
import ScratchFormat.Proofs.Modes
import ScratchFormat.Proofs.Settling

/-! The shape of a formatted text: where its empty lines may stand, and how its lines and the text
itself end. Two stages make the shape, and the last of them must not undo what the one before it has
done: that the ends of lines are trimmed changes no mode and makes no line blank. -/

namespace ScratchFormat

namespace ScannedLine

/-- A blank line of code. -/
def isGap (l : ScannedLine) : Bool := l.startsInCode && l.isBlank

abbrev Spaced (a b : ScannedLine) : Prop := ¬ (a.isGap = true ∧ b.isGap = true)

theorem isGap_scanLine (mode : Mode) (raw : List Char) :
    (scanLine mode raw).isGap = (decide (mode = .code) && isBlankText raw) := by
  rw [isGap, isBlank_scanLine]
  rfl

end ScannedLine

open ScannedLine (Spaced)

namespace Paragraphs

/-- The lines put out for one line: a blank line of code is empty, none follows another, and none is
the last. -/
theorem rule_spaced (s : Paragraphs) (mode : Mode) (raw : List Char) :
    List.IsChain Spaced (scanFrom mode (rule s (scanLine mode raw)).2.lines) ∧
      (∀ m ∈ (scanFrom mode (rule s (scanLine mode raw)).2.lines).getLast?, m.isGap = false) ∧
      ∀ m ∈ scanFrom mode (rule s (scanLine mode raw)).2.lines, m.isGap = true → m.raw = [] := by
  have hraw : ∀ h : (scanLine mode raw).isGap = false,
      List.IsChain Spaced (scanFrom mode [raw]) ∧
      (∀ m ∈ (scanFrom mode [raw]).getLast?, m.isGap = false) ∧
        ∀ m ∈ scanFrom mode [raw], m.isGap = true → m.raw = [] := by
    intro h
    refine ⟨.singleton _, ?_, ?_⟩
    · rintro m ⟨⟩
      exact h
    · intro m hm hgap
      rw [List.mem_singleton.mp hm, h] at hgap
      cases hgap
  rcases rule_lines s (scanLine mode raw)
    with ⟨hcode, hlines⟩ | ⟨-, -, hlines⟩ | ⟨hcode, hblank, hlines | hlines⟩
  · rw [hlines]
    exact hraw (by rw [ScannedLine.isGap, hcode, Bool.false_and])
  · rw [hlines]
    exact ⟨.nil, nofun, nofun⟩
  · rw [hlines]
    exact hraw (by rw [ScannedLine.isGap, hblank, Bool.and_false])
  · -- an empty line and then one that is not blank
    have hmode : mode = .code := of_decide_eq_true hcode
    subst hmode
    obtain ⟨hchain, hlast, hempty⟩ := hraw (by rw [ScannedLine.isGap, hblank, Bool.and_false])
    have hscan : scanFrom .code [[], (scanLine .code raw).raw] = scanLine .code [] ::
        scanFrom .code [raw] := rfl
    rw [hlines, hscan]
    refine ⟨.cons_cons ?_ hchain, ?_, ?_⟩
    · rintro ⟨-, hgap⟩
      rw [ScannedLine.isGap, hblank, Bool.and_false] at hgap
      cases hgap
    · exact hlast
    · intro m hm hgap
      rcases List.mem_cons.mp hm with rfl | hm
      · rfl
      · exact hempty m hm hgap

/-- No two gaps stand next to each other, and a gap is empty. -/
theorem walk_spaced (s : Paragraphs) (mode : Mode) (ls : List (List Char)) :
    List.IsChain Spaced (scanFrom mode (walk rule s (scanFrom mode ls)).lines) ∧
      ∀ m ∈ scanFrom mode (walk rule s (scanFrom mode ls)).lines, m.isGap = true → m.raw = [] := by
  induction ls generalizing s mode with
  | nil => exact ⟨.nil, nofun⟩
  | cons raw ls ih =>
    obtain ⟨hfirst, hlast, hempty⟩ := rule_spaced s mode raw
    obtain ⟨hchain, hlater⟩ := ih (rule s (scanLine mode raw)).1 (scanLine mode raw).endsIn.carried
    rw [keepsModes.scanFrom_walk, List.forall_mem_append, List.isChain_append]
    refine ⟨⟨hfirst, hchain, ?_⟩, hempty, hlater⟩
    rintro a ha b - ⟨hgap, -⟩
    rw [hlast a ha] at hgap
    cases hgap

/-- As long as nothing is put out, blank lines of code go without a trace, so the first line put out
is not blank. -/
theorem walk_head {s : Paragraphs} (habove : s.above = none) (hpending : s.pending = false)
    (ls : List (List Char)) :
    ∀ m ∈ (walk rule s (scanFrom .code ls)).lines.head?, isBlankText m = false := by
  induction ls generalizing s with
  | nil => exact nofun
  | cons raw ls ih =>
    have hcode : (scanLine .code raw).startsInCode = true := rfl
    cases hblank : (scanLine .code raw).isBlank with
    | true =>
      have hrule : rule s (scanLine .code raw) =
          ({ s with pending := s.above.isSome }, .nothing) := by
        simp only [rule, hcode, hblank, Bool.not_true, Bool.false_eq_true, if_false, if_true]
      have hmode : (scanLine .code raw).endsIn.carried = .code := by
        rw [endsIn_of_isSpace .code (isSpace_of_isBlank hblank)]
        rfl
      rw [scanFrom, walk, hrule, hmode]
      exact ih habove (by rw [habove]; rfl)
    | false =>
      have hlines : (rule s (scanLine .code raw)).2.lines = [raw] := by
        simp only [rule, hcode, hblank, separates, habove, hpending, Option.any_none,
          Bool.and_false, Bool.or_self, Bool.not_true, Bool.false_eq_true, if_false]
        rfl
      rw [scanFrom, walk, Output.append, hlines]
      rintro m ⟨⟩
      rwa [ScannedLine.isBlank_scanLine] at hblank

/-- Of two lines in a row one is no blank line of code, and blank lines of code are empty. -/
theorem separate_spaced (text : List Char) :
    List.IsChain Spaced (scan (separate text)) ∧ ∀ m ∈ scan (separate text), m.isGap = true →
      m.raw = [] := by
  unfold separate
  by_cases hne : (walk rule initial (scan text)).lines = []
  · rw [hne]
    refine ⟨.singleton _, fun m hm _ => ?_⟩
    rw [List.mem_singleton.mp hm]
    rfl
  · rw [scan_unlines hne (newline_notMem_lines initial text)]
    exact walk_spaced initial .code (lines text)

/-- The first line is not blank, unless there is nothing else. -/
theorem separate_head {text : List Char} (h : separate text ≠ []) :
    ∀ m ∈ (scan (separate text)).head?, isBlankText m.raw = false := by
  have hne : (walk rule initial (scan text)).lines ≠ [] := by
    intro hempty
    rw [separate, hempty] at h
    exact h rfl
  obtain ⟨l, ls, hlines⟩ := List.exists_cons_of_ne_nil hne
  have hhead := walk_head (s := initial) rfl rfl (lines text)
  rw [← scan, hlines] at hhead
  rw [separate, scan_unlines hne (newline_notMem_lines initial text), hlines]
  rintro m ⟨⟩
  exact hhead l rfl

end Paragraphs

namespace Endings

theorem isBlankText_line (l : ScannedLine) : isBlankText (line l) = isBlankText l.raw := by
  obtain ⟨tail, htail, hblank⟩ := line_append l
  have hall : tail.all isSpace = true := List.all_eq_true.mpr fun c hc =>
    isSpace_of_isIndent (hblank c hc)
  rw [← htail, isBlankText, isBlankText, List.all_append, hall, Bool.and_true]

theorem isGap_line {l : ScannedLine} (hl : l = scanLine l.startsIn l.raw) :
    (scanLine l.startsIn (line l)).isGap = l.isGap := by
  conv => rhs; rw [hl]
  rw [ScannedLine.isGap_scanLine, ScannedLine.isGap_scanLine, isBlankText_line]

theorem getLast?_line {l : ScannedLine} (h : l.endsIn ≠ .longString) :
    ∀ c ∈ (line l).getLast?, isIndent c = false := by
  intro c hc
  rw [line, if_neg h, dropEndWhile, List.getLast?_reverse] at hc
  exact head?_dropWhile_eq_false isIndent l.raw.reverse c hc

theorem unlines_concat (kept : List (List Char)) (last : List Char) :
    ∃ front, unlines (kept ++ [last]) = front ++ last := by
  induction kept with
  | nil => exact ⟨[], rfl⟩
  | cons l kept ih =>
    obtain ⟨front, hfront⟩ := ih
    refine ⟨l ++ '\n' :: front, ?_⟩
    rw [List.cons_append, unlines_cons_of_ne_nil l (by simp), hfront]
    simp

/-- One line feed ends the text. -/
theorem trim_ends {text : List Char} (hne : trim text ≠ []) :
    ∃ front c, trim text = front ++ [c, '\n'] ∧ c ≠ '\n' := by
  rcases scan_trim text with h | ⟨kept, last, mode, htrim, hlast, hscan, -⟩
  · exact absurd h hne
  obtain ⟨front, hfront⟩ := unlines_concat kept last
  obtain ⟨body, c, hbody⟩ : ∃ body c, last = body ++ [c] :=
    ⟨_, _, (List.dropLast_concat_getLast hlast).symm⟩
  refine ⟨front ++ body, c, by rw [htrim, hfront, hbody]; simp, ?_⟩
  -- the last line is a line of the text, so there is no line feed in it
  have hmem : last ∈ lines (trim text) := by
    rw [← scan_map_raw, hscan, List.map_append, scanFrom_map_raw]
    simp
  rintro rfl
  apply newline_notMem_of_mem_lines hmem
  rw [hbody]
  simp

/-- The first line does not become blank. -/
theorem trim_head {text : List Char} (hhead : ∀ m ∈ (scan text).head?, isBlankText m.raw = false)
    (hne : trim text ≠ []) : ∀ m ∈ (scan (trim text)).head?, m.isBlank = false := by
  rcases scan_trim text with h | ⟨kept, last, mode, -, -, hscan, ⟨dropped, hdropped⟩⟩
  · exact absurd h hne
  obtain ⟨l, ls, htext⟩ : ∃ l ls, scan text = l :: ls := by
    apply List.exists_cons_of_ne_nil
    intro hempty
    have hlines := scan_map_raw text
    rw [hempty] at hlines
    exact lines_ne_nil text hlines.symm
  obtain ⟨m, ms, hfirst⟩ : ∃ m ms, scanFrom .code (kept ++ [last]) = m :: ms := by
    cases kept <;> exact ⟨_, _, rfl⟩
  rw [hfirst, htext] at hdropped
  have hm : m = scanLine l.startsIn (line l) := (List.cons.inj hdropped).1
  rw [hscan, hfirst]
  rintro _ ⟨⟩
  rw [hm, ScannedLine.isBlank_scanLine, isBlankText_line]
  exact hhead l (by rw [htext]; rfl)

/-- Lines that stand apart still do. -/
theorem trim_spaced {text : List Char} (hspaced : List.IsChain Spaced (scan text))
    (hempty : ∀ m ∈ scan text, m.isGap = true → m.raw = []) :
    List.IsChain Spaced (scan (trim text)) := by
  rcases scan_trim text with h | ⟨kept, last, mode, -, hlast, hscan, ⟨dropped, hdropped⟩⟩
  · rw [h]
    exact .singleton _
  have hall : List.IsChain Spaced ((scan text).map fun l => scanLine l.startsIn (line l)) := by
    rw [List.isChain_map]
    refine hspaced.imp_of_mem_imp fun a b ha hb hab => ?_
    rwa [Spaced, isGap_line (mem_scan ha).1, isGap_line (mem_scan hb).1]
  rw [← hdropped] at hall
  rw [hscan]
  refine .append hall.left_of_append (.singleton _) ?_
  -- the last line that is kept is not empty, so it is no blank line of code
  have hlastLine : scanFrom .code (kept ++ [last]) = scanFrom .code kept ++
      [scanLine (modeBelow .code kept) last] :=
    scanFrom_append .code kept [last]
  have hmem : scanLine (modeBelow .code kept) last ∈ (scan text).map fun l =>
      scanLine l.startsIn (line l) := by
    rw [← hdropped, hlastLine]
    simp
  obtain ⟨l, hl, hline⟩ := List.mem_map.mp hmem
  rintro a ha b - ⟨hgap, -⟩
  rw [hlastLine, List.getLast?_concat, Option.mem_def, Option.some.injEq] at ha
  rw [← ha, ← hline, isGap_line (mem_scan hl).1] at hgap
  have hraw : line l = last := congrArg ScannedLine.raw hline
  rw [line, hempty l hl hgap] at hraw
  apply hlast
  rw [← hraw]
  split <;> rfl

/-- A line that does not end in a long string ends without blanks. -/
theorem trim_getLast? {text : List Char} {m : ScannedLine} (hm : m ∈ scan (trim text))
    (hends : m.endsIn ≠ .longString) : ∀ c ∈ m.raw.getLast?, isIndent c = false := by
  rcases mem_scan_trim hm with ⟨l, hl, rfl⟩ | ⟨mode, rfl⟩
  · refine getLast?_line ?_
    have hsame := endsIn_line l.startsIn l.raw
    rw [← (mem_scan hl).1] at hsame
    rwa [← hsame]
  · exact nofun

end Endings

/-- A formatted text is empty exactly when the text is blank. Otherwise it ends with one line feed
and begins with a line that is not blank, no two blank lines of code follow one another, and no line
ends in a space or a tab, unless it ends inside a long string. -/
theorem format_shape (style : Style) (text : List Char) :
    (format style text = [] ↔ isBlankText text = true) ∧
      (isBlankText text = false →
        (∃ front c, format style text = front ++ [c, '\n'] ∧ c ≠ '\n') ∧
          (∀ l ∈ (scan (format style text)).head?, l.isBlank = false) ∧
          List.IsChain (fun a b => ¬ (a.isGap = true ∧ b.isGap = true)) (scan (format style text)) ∧
          ∀ l ∈ scan (format style text), l.endsIn ≠ .longString →
            l.raw.getLast? ≠ some ' ' ∧ l.raw.getLast? ≠ some '\t') := by
  rcases format_cases style text with ⟨hblank, hempty⟩ | ⟨hblank, last, hsolid, hpass⟩
  · exact ⟨⟨fun _ => hblank, fun _ => hempty⟩, fun h => by rw [hblank] at h; cases h⟩
  -- a pass loses nothing, so something is left
  have hne : format style text ≠ [] := by
    intro hempty
    have hkeeps := nextText_keeps_solid style 1 last
    rw [Function.iterate_one, ← hpass, hempty, hsolid] at hkeeps
    rw [(isBlankText_iff text).mpr hkeeps.symm] at hblank
    cases hblank
  refine ⟨⟨fun h => absurd h hne, fun h => by rw [hblank] at h; cases h⟩, fun _ => ?_⟩
  rw [hpass, nextText_eq] at hne ⊢
  generalize (Chains.layOut style _).text = laid at hne ⊢
  obtain ⟨hspaced, hgaps⟩ := Paragraphs.separate_spaced laid
  have hne' : Paragraphs.separate laid ≠ [] := by
    intro hempty
    rw [hempty] at hne
    exact hne rfl
  refine ⟨Endings.trim_ends hne, Endings.trim_head (Paragraphs.separate_head hne') hne,
    Endings.trim_spaced hspaced hgaps, fun l hl hends => ?_⟩
  have hlast := Endings.trim_getLast? hl hends
  exact ⟨fun h => absurd (hlast ' ' h) (by decide), fun h => absurd (hlast '\t' h) (by decide)⟩

theorem format_shape_definitions :
    (isBlankText "\n x=1\t\n\n\n\ny=2 ".toList = false ∧
        scanLine .code "y = 2".toList ∈ scan (format .standard "\n x=1\t\n\n\n\ny=2 ".toList) ∧
        (scanLine .code "y = 2".toList).endsIn ≠ .longString) ∧
      ((∃ front c, format .standard "\n x=1\t\n\n\n\ny=2 ".toList = front ++ [c, '\n'] ∧ c ≠ '\n') ∧
        List.IsChain (fun a b => ¬ (a.isGap = true ∧ b.isGap = true))
          (scan (format .standard "\n x=1\t\n\n\n\ny=2 ".toList))) ∧
      "y = 2".toList.getLast? ≠ some ' ' ∧ "y = 2".toList.getLast? ≠ some '\t' :=
  have hshape := (format_shape .standard "\n x=1\t\n\n\n\ny=2 ".toList).2 (by decide)
  ⟨⟨by decide, by decide +kernel, by decide⟩, ⟨hshape.1, hshape.2.2.1⟩,
    hshape.2.2.2 (scanLine .code "y = 2".toList) (by decide +kernel) (by decide)⟩

end ScratchFormat
