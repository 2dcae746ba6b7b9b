import Mathlib.Logic.Function.Iterate
import ScratchFormat.Proofs.Alphabet
import ScratchFormat.Proofs.Solid

/-! Formatting is four passes, whether or not the text settles before: a pass that changes nothing
changes nothing when it is repeated. So a formatted text stays as it is exactly when four passes
more lead back to it. -/

namespace ScratchFormat

/-- The text after one pass. -/
def nextText (style : Style) (text : List Char) : List Char := (pass style text).text

/-- A pass, stage by stage. -/
theorem nextText_eq (style : Style) (text : List Char) :
    nextText style text =
      Endings.trim (Paragraphs.separate (Chains.layOut style (Scopes.align style
        (Levels.assign style (Gaps.set (Margin.remove text).text)).text).text).text) := by
  simp only [nextText, pass, runStages, Stage.all, Stage.run]

/-- Passes that stop early make the text that all passes make. -/
theorem settle_text (style : Style) (done : Nat) (text : List Char) (left : Nat) :
    (settle style done text left).text = (nextText style)^[left] text := by
  induction left generalizing done text with
  | zero => rfl
  | succ left ih =>
    rw [settle, Function.iterate_succ_apply]
    by_cases h : (pass style text).text = text
    · have hfix : nextText style text = text := h
      rw [hfix, Function.iterate_fixed hfix]
      simp only [h, ↓reduceIte]
    · simp only [h, ↓reduceIte]
      exact ih (done + 1) (pass style text).text

theorem joinLineEnds_eq_self {text : List Char} (h : '\r' ∉ text) : joinLineEnds text = text := by
  fun_induction joinLineEnds text with
  | case1 => rfl
  | case2 cs => exact absurd List.mem_cons_self h
  | case3 c cs _ ih => rw [ih fun hc => h (List.mem_cons_of_mem c hc)]

theorem format_eq_nil {style : Style} {text : List Char} (h : '\r' ∉ text)
    (hblank : isBlankText text = true) : format style text = [] := by
  simp [format, formatNoted, joinLineEnds_eq_self h, hblank]

/-- A text with something in it is formatted by as many passes as there may be. -/
theorem format_eq_iterate_joinLineEnds {style : Style} {text : List Char}
    (hblank : ¬ isBlankText text = true) :
    format style text = (nextText style)^[maxPasses] (joinLineEnds text) := by
  have hjoined : ¬ isBlankText (joinLineEnds text) = true := by
    rwa [isBlankText_iff, solid_joinLineEnds, ← isBlankText_iff]
  rw [format, formatNoted]
  simp only [hjoined, Bool.false_eq_true, ↓reduceIte]
  rw [settle_text]
  rfl

theorem format_eq_iterate {style : Style} {text : List Char} (h : '\r' ∉ text)
    (hblank : ¬ isBlankText text = true) :
    format style text = (nextText style)^[maxPasses] text := by
  rw [format_eq_iterate_joinLineEnds hblank, joinLineEnds_eq_self h]

/-- A text that is not blank stays as it is if every stage leaves it, each by its own rule. -/
theorem format_eq_self {style : Style} {text : List Char} (h : '\r' ∉ text)
    (hblank : ¬ isBlankText text = true)
    (hstages : ∀ stage : Stage, (stage.run style text).text = text) : format style text = text := by
  have hrun : ∀ stages : List Stage, (runStages style text stages).text = text := by
    intro stages
    induction stages with
    | nil => rfl
    | cons stage stages ih => simp only [runStages, hstages stage, ih]
  have hpass : nextText style text = text := hrun Stage.all
  rw [format_eq_iterate h hblank]
  exact Function.iterate_fixed hpass maxPasses

theorem nextText_keeps_solid (style : Style) (n : Nat) (text : List Char) :
    solid ((nextText style)^[n] text) = solid text := by
  induction n generalizing text with
  | zero => rfl
  | succ n ih => rw [Function.iterate_succ_apply, ih, nextText, solid_pass]

/-- A formatted text is empty, or it is what a pass has made of a text with the same solid part. -/
theorem format_cases (style : Style) (text : List Char) :
    (isBlankText text = true ∧ format style text = []) ∨
      (isBlankText text = false ∧ ∃ last, solid last = solid text ∧
        format style text = nextText style last) := by
  by_cases hblank : isBlankText text = true
  · have hjoined : isBlankText (joinLineEnds text) = true := by
      rwa [isBlankText_iff, solid_joinLineEnds, ← isBlankText_iff]
    exact .inl ⟨hblank, by simp [format, formatNoted, hjoined]⟩
  · refine .inr ⟨by simpa using hblank, (nextText style)^[3] (joinLineEnds text), ?_, ?_⟩
    · rw [nextText_keeps_solid, solid_joinLineEnds]
    · rw [format_eq_iterate_joinLineEnds hblank]
      exact Function.iterate_succ_apply' (nextText style) 3 _

theorem carriageReturn_notMem_iterate (style : Style) (n : Nat) {text : List Char}
    (h : '\r' ∉ text) : '\r' ∉ (nextText style)^[n] text := by
  induction n generalizing text with
  | zero => exact h
  | succ n ih =>
    rw [Function.iterate_succ_apply]
    apply ih
    intro hmem
    have htext : ∀ c ∈ text, c ≠ '\r' := fun c hc he => h (he ▸ hc)
    have hok := ok_runStages (by decide) (by decide) (by decide) style Stage.all htext
    exact hok '\r' hmem rfl

/-- Formatting twice gives what formatting once does exactly when the text is blank or four further
passes lead back to the text that the first four made. A text that settles within four passes is
such a text. -/
theorem format_format_eq_iff (style : Style) (text : List Char) (h : '\r' ∉ text) :
    (format style (format style text) = format style text ↔
      isBlankText text = true ∨
        (nextText style)^[2 * maxPasses] text = (nextText style)^[maxPasses] text) ∧
    ∀ n ≤ maxPasses, (nextText style)^[n + 1] text = (nextText style)^[n] text →
      format style (format style text) = format style text := by
  by_cases hblank : isBlankText text = true
  · have hnil : format style (format style text) = format style text := by
      rw [format_eq_nil h hblank]
      rfl
    exact ⟨⟨fun _ => .inl hblank, fun _ => hnil⟩, fun _ _ _ => hnil⟩
  · have hfirst : format style text = (nextText style)^[maxPasses] text :=
      format_eq_iterate h hblank
    have hsecond : format style (format style text) = (nextText style)^[2 * maxPasses] text := by
      rw [hfirst, format_eq_iterate (carriageReturn_notMem_iterate style maxPasses h)]
      · rw [← Function.iterate_add_apply, ← Nat.two_mul]
      · rw [isBlankText_iff, nextText_keeps_solid, ← isBlankText_iff]
        exact hblank
    rw [hsecond, hfirst]
    refine ⟨by simp [hblank], ?_⟩
    intro n hn hfix
    -- all texts from the one that settles on are the same
    have hstay (k : Nat) : (nextText style)^[k + n] text = (nextText style)^[n] text := by
      rw [Function.iterate_add_apply]
      apply Function.iterate_fixed
      exact (Function.iterate_succ_apply' (nextText style) n text).symm.trans hfix
    have hmore := hstay (2 * maxPasses - n)
    have hfour := hstay (maxPasses - n)
    rw [Nat.sub_add_cancel (by omega)] at hmore
    rw [Nat.sub_add_cancel hn] at hfour
    rw [hmore, hfour]

theorem format_format_definition :
    '\r' ∉ "x=a|>f|>g".toList ∧
      format .standard (format .standard "x=a|>f|>g".toList) =
        format .standard "x=a|>f|>g".toList :=
  ⟨by decide, (format_format_eq_iff .standard "x=a|>f|>g".toList (by decide)).2 1 (by decide)
    (by decide +kernel)⟩

/-- A text in which each pass uncovers the next place that changes: a brace and a minus sign are put
together to a comment, which ends inside what was a string, and the rest of the string is code. -/
def slowlySettling : List Char :=
  "\x7b - \"-\x7d \x7b - \\\"-\x7d \x7b - \\\"-\x7d \x7b - \\\"-\x7d \x7b - x".toList

theorem format_slowlySettling :
    '\r' ∉ slowlySettling ∧
      format .standard (format .standard slowlySettling) ≠ format .standard slowlySettling := by
  decide +kernel

end ScratchFormat
