import Mathlib.Data.List.Find
import ScratchFormat.Proofs.Drift
import ScratchFormat.Proofs.Rescan
import ScratchFormat.Proofs.Settling

/-! Pasting. A fragment that begins with a declaration may be indented as a whole: the indentation
becomes part of the margin, which is removed. Only blank lines may be left with other blanks than
before, and these drift. -/

namespace ScratchFormat

/-- A line of a fragment that is pasted behind `front`. Blank lines stay, and so does what is inside
a long string. -/
def pasteLine (front : List Char) (l : ScannedLine) : List Char :=
  if isBlankText l.raw ∨ l.startsIn = .longString then l.raw else front ++ l.raw

def pastedLine (front : List Char) (l : ScannedLine) : ScannedLine :=
  scanLine l.startsIn (pasteLine front l)

theorem pastedLine_raw (front : List Char) (l : ScannedLine) :
    (pastedLine front l).raw = pasteLine front l := rfl

theorem Margin.isMovable_pastedLine (front : List Char) (l : ScannedLine) :
    isMovable (pastedLine front l) = isMovable l := rfl

/-- A fragment with `front` before every line that is not blank and starts outside long strings. -/
def paste (front text : List Char) : List Char := unlines ((scan text).map (pasteLine front))

theorem Margin.endsIn_strip {margin : List Char} (hmargin : ∀ c ∈ margin, isIndent c = true)
    (mode : Mode) (raw : List Char) :
    (scanLine mode (strip margin (scanLine mode raw))).endsIn = (scanLine mode raw).endsIn := by
  obtain ⟨front, hraw, hblank⟩ := strip_append hmargin (scanLine mode raw)
  have hends := endsIn_space_append mode (fun c hc => isSpace_of_isIndent (hblank c hc))
    (strip margin (scanLine mode raw))
  rw [hraw] at hends
  exact hends.symm

section Paste

variable {front : List Char} (hfront : ∀ c ∈ front, isIndent c = true)
include hfront

theorem solid_pasteLine (l : ScannedLine) : solid (pasteLine front l) = solid l.raw := by
  unfold pasteLine
  split
  · rfl
  · rw [solid_append, solid_eq_nil fun c hc => isSpace_of_isIndent (hfront c hc), List.nil_append]

theorem isBlankText_pasteLine (l : ScannedLine) :
    isBlankText (pasteLine front l) = isBlankText l.raw := by
  rw [Bool.eq_iff_iff, isBlankText_iff, isBlankText_iff, solid_pasteLine hfront]

theorem trimStart_pasteLine (l : ScannedLine) :
    trimStart (pasteLine front l) = trimStart l.raw := by
  unfold pasteLine
  split
  · rfl
  · exact List.dropWhile_append_of_pos fun c hc => isSpace_of_isIndent (hfront c hc)

theorem endsIn_pasteLine (mode : Mode) (raw : List Char) :
    (scanLine mode (pasteLine front (scanLine mode raw))).endsIn = (scanLine mode raw).endsIn := by
  unfold pasteLine
  split
  · rfl
  · exact endsIn_space_append mode (fun c hc => isSpace_of_isIndent (hfront c hc)) raw

theorem isCommentOnly_pastedLine {l : ScannedLine} (hl : l = scanLine l.startsIn l.raw) :
    (pastedLine front l).isCommentOnly = l.isCommentOnly := by
  rw [hl, pastedLine, ScannedLine.isCommentOnly_scanLine, ScannedLine.isCommentOnly_scanLine,
    isBlankText_pasteLine hfront, pasteLine]
  split
  · rfl
  · rw [Cursor.shows_space_append rfl rfl fun c hc => isSpace_of_isIndent (hfront c hc)]
    rfl

theorem newline_notMem_pasteLine {text : List Char} {l : ScannedLine} (hl : l ∈ scan text) :
    '\n' ∉ pasteLine front l := by
  have hraw := newline_notMem_of_mem_lines (mem_scan hl).2
  unfold pasteLine
  split
  · exact hraw
  · rw [List.mem_append, not_or]
    exact ⟨fun hc => absurd (hfront _ hc) (by decide), hraw⟩

/-- The lines of a pasted fragment start in the modes that they started in before. -/
theorem scan_paste (text : List Char) :
    scan (paste front text) = (scan text).map (pastedLine front) := by
  rw [scan, paste, lines_unlines_map_scan fun l hl => newline_notMem_pasteLine hfront hl]
  exact scanFrom_map (endsIn_pasteLine hfront) .code (lines text)

namespace Margin

/-- The lines that share the margin. -/
def sharers (ls : List ScannedLine) : List ScannedLine :=
  ls.filter fun l => isMovable l && !isBlankText l.raw

theorem sharers_paste (text : List Char) :
    (sharers (scan (paste front text))).map (·.raw) =
      (sharers (scan text)).map (front ++ ·.raw) := by
  have hsame : ∀ l ∈ scan text,
      ((fun l : ScannedLine => isMovable l && !isBlankText l.raw) ∘ pastedLine front) l =
      (isMovable l && !isBlankText l.raw) := by
    intro l _
    rw [Function.comp_apply, isMovable_pastedLine, pastedLine_raw, isBlankText_pasteLine hfront]
  rw [sharers, scan_paste hfront, List.filter_map, List.filter_congr hsame, List.map_map]
  apply List.map_congr_left
  intro l hl
  have hshare := (List.mem_filter.mp hl).2
  simp only [isMovable, Bool.and_eq_true, decide_eq_true_eq, Bool.not_eq_true'] at hshare
  rw [Function.comp_apply, pastedLine_raw, pasteLine, if_neg]
  simp [hshare.1, hshare.2]

/-- What is pasted goes in front of the margin, if there are lines to share it. -/
theorem ofLines_paste {text : List Char} (hne : sharers (scan text) ≠ []) :
    ofLines (scan (paste front text)) = front ++ ofLines (scan text) := by
  have hmap := sharers_paste hfront text
  have hraws : (sharers (scan text)).map (front ++ ·.raw) =
      ((sharers (scan text)).map (·.raw)).map (front ++ ·) := by
    rw [List.map_map]
    rfl
  rw [hraws] at hmap
  exact (congrArg shared hmap).trans (shared_map_append hfront (by simpa using hne))

theorem firstCode?_paste (text : List Char) :
    firstCode? (scan (paste front text)) = (firstCode? (scan text)).map (pastedLine front) := by
  rw [firstCode?, scan_paste hfront, List.find?_map, firstCode?]
  congr 1
  apply List.find?_congr
  intro l hl
  rw [Function.comp_apply, pastedLine_raw, isBlankText_pasteLine hfront,
    isCommentOnly_pastedLine hfront (mem_scan hl).1]

/-- Without its margin a pasted line is the line without the margin it had, unless it is blank. -/
theorem drift_strip {margin : List Char} (hmargin : ∀ c ∈ margin, isIndent c = true)
    {l : ScannedLine} (hblank : isBlankText l.raw = true → ∀ c ∈ l.raw, isIndent c = true)
    (hshared : isMovable l = true → isBlankText l.raw = false → margin <+: l.raw) :
    Drift l.startsIn (strip margin l) (strip (front ++ margin) (pastedLine front l)) := by
  by_cases hlong : l.startsIn = .longString
  · -- the line is content and stays
    have hmovable : isMovable l = false := decide_eq_false (not_not.mpr hlong)
    have hpaste : pasteLine front l = l.raw := by rw [pasteLine, if_pos (.inr hlong)]
    refine .inl ?_
    rw [strip, strip, isMovable_pastedLine, hmovable, pastedLine_raw, hpaste]
    rfl
  have hmovable : isMovable l = true := decide_eq_true hlong
  cases hraw : isBlankText l.raw with
  | true =>
    -- the line is blank, and so is what is left of it
    have hpaste : pasteLine front l = l.raw := by rw [pasteLine, if_pos (.inl hraw)]
    have hleft : ∀ (m : List Char) (k : ScannedLine), (∀ c ∈ m, isIndent c = true) → k.raw = l.raw →
        ∀ c ∈ strip m k, isIndent c = true := by
      intro m k hm hk c hc
      obtain ⟨cut, hcut, -⟩ := strip_append hm k
      apply hblank hraw
      rw [← hk, ← hcut]
      exact List.mem_append_right cut hc
    refine .inr ⟨hlong, hleft margin l hmargin rfl, hleft _ (pastedLine front l) ?_ hpaste⟩
    exact List.forall_mem_append.mpr ⟨hfront, hmargin⟩
  | false =>
    obtain ⟨rest, hrest⟩ := hshared hmovable hraw
    have hpaste : (pastedLine front l).raw = (front ++ margin) ++ rest := by
      rw [pastedLine_raw, pasteLine, if_neg (by simp [hraw, hlong]), ← hrest, List.append_assoc]
    refine .inl ?_
    rw [strip_of_eq_append hmovable hrest.symm,
      strip_of_eq_append (by rwa [isMovable_pastedLine]) hpaste]

/-- A fragment that begins with a declaration loses what it is pasted behind with its margin. -/
theorem drifted_remove {text : List Char}
    (hblanks : ∀ l ∈ lines text, isBlankText l = true → ∀ c ∈ l, isIndent c = true)
    {first : ScannedLine} (hfirst : firstCode? (scan text) = some first)
    (htop : isTopLevelHead (trimStart first.raw) = true) :
    Drifted .code (lines (remove text).text) (lines (remove (paste front text)).text) := by
  by_cases hne : sharers (scan text) = []
  · -- nothing is moved
    have hpaste : paste front text = text := by
      have hraw : ∀ l ∈ scan text, pasteLine front l = l.raw := by
        intro l hl
        have hshare := List.filter_eq_nil_iff.mp hne l hl
        simp only [isMovable, Bool.and_eq_true, decide_eq_true_eq, Bool.not_eq_true', not_and,
          Bool.not_eq_false] at hshare
        rw [pasteLine, if_pos]
        exact Decidable.or_iff_not_imp_right.mpr hshare
      rw [paste, List.map_congr_left hraw, scan_map_raw, unlines_lines]
    rw [hpaste]
    exact .refl _ _
  · have hfirst' := firstCode?_paste hfront text
    rw [hfirst, Option.map_some] at hfirst'
    have htop' : isTopLevelHead (trimStart (pasteLine front first)) = true := by
      rwa [trimStart_pasteLine hfront]
    have hmargin : ∀ c ∈ ofLines (scan text), isIndent c = true :=
      fun c hc => isIndent_of_mem_shared hc
    have hmargin' : ∀ c ∈ front ++ ofLines (scan text), isIndent c = true :=
      List.forall_mem_append.mpr ⟨hfront, hmargin⟩
    have hnewline : ∀ l ∈ scan text,
        '\n' ∉ (strip (front ++ ofLines (scan text)) ∘ pastedLine front) l := by
      intro l hl
      have hmem : pastedLine front l ∈ scan (paste front text) := by
        rw [scan_paste hfront]
        exact List.mem_map_of_mem hl
      exact newline_notMem_strip hmargin' hmem
    rw [remove_eq hfirst htop, remove_eq hfirst' htop', ofLines_paste hfront hne,
      scan_paste hfront, List.map_map, lines_unlines_map_scan fun l hl =>
      newline_notMem_strip hmargin hl, lines_unlines_map_scan hnewline]
    apply Drifted.map (endsIn_strip hmargin)
    intro l hl
    refine drift_strip hfront hmargin (hblanks l.raw (mem_scan hl).2) fun hmovable hraw => ?_
    have hshare : l ∈ sharers (scan text) := List.mem_filter.mpr ⟨hl, by rw [hmovable, hraw]; rfl⟩
    exact (shared_prefix_of_mem (List.mem_map_of_mem hshare)).trans (List.takeWhile_prefix isIndent)

end Margin

end Paste

/-- If nothing in a text fuses, setting its gaps leaves every line in its mode. -/
theorem Gaps.keepsBlanks_of_not_fuses {text : List Char} (h : ∀ l ∈ scan text, fuses l = false) :
    KeepsBlanks text := by
  have hreads := (readsAs_lines_iff .code (lines text)).mpr h
  rw [← scan, ← lines_set, ← scan] at hreads
  refine hreads.imp fun l l' hline _ hlong => ?_
  rwa [← hline.startsIn]

theorem nextText_paste (style : Style) {front : List Char} (hfront : ∀ c ∈ front, isIndent c = true)
    {text : List Char} (hblanks : ∀ l ∈ lines text, isBlankText l = true → ∀ c ∈ l,
      isIndent c = true) {first : ScannedLine}
    (hfirst : Margin.firstCode? (scan text) = some first)
    (htop : isTopLevelHead (trimStart first.raw) = true)
    (hgaps : Gaps.KeepsBlanks (Margin.remove text).text) :
    nextText style (paste front text) = nextText style text := by
  rw [nextText_eq, nextText_eq]
  exact (layout_eq_of_drifted style (Margin.drifted_remove hfront hblanks hfirst htop) hgaps).symm

/-- A fragment that begins with a declaration is formatted alike wherever it is pasted, if setting
its gaps brings no blank line into a long string. Its blank lines hold spaces and tabs only. -/
theorem format_paste (style : Style) (front text : List Char) (hfront : front.all isIndent = true)
    (hreturn : '\r' ∉ text)
    (hblanks : ∀ l ∈ lines text, isBlankText l = true → l.all isIndent = true)
    (hhead : ∃ first, Margin.firstCode? (scan text) = some first ∧
      isTopLevelHead (trimStart first.raw) = true)
    (hgaps : Gaps.KeepsBlanks (Margin.remove text).text) :
    format style (paste front text) = format style text := by
  obtain ⟨first, hfirst, htop⟩ := hhead
  rw [List.all_eq_true] at hfront
  simp only [List.all_eq_true] at hblanks
  have hsolid : solid (paste front text) = solid text :=
    solid_unlines_map_scan text (pasteLine front) fun l _ => solid_pasteLine hfront l
  have hreturn' : '\r' ∉ paste front text := by
    have htext : ∀ c ∈ text, c ≠ '\r' := fun c hc he => hreturn (he ▸ hc)
    have hpaste : ∀ c ∈ paste front text, c ≠ '\r' := by
      refine ok_scan_map (by decide) (fun l _ hraw => ?_) htext
      unfold pasteLine
      split
      · exact hraw
      · refine List.forall_mem_append.mpr ⟨fun c hc he => ?_, hraw⟩
        exact absurd (he ▸ hfront c hc) (by decide)
    exact fun hmem => hpaste '\r' hmem rfl
  by_cases hblank : isBlankText text = true
  · have hblank' : isBlankText (paste front text) = true := by
      rwa [isBlankText_iff, hsolid, ← isBlankText_iff]
    rw [format_eq_nil hreturn hblank, format_eq_nil hreturn' hblank']
  · have hblank' : ¬ isBlankText (paste front text) = true := by
      rwa [isBlankText_iff, hsolid, ← isBlankText_iff]
    rw [format_eq_iterate hreturn hblank, format_eq_iterate hreturn' hblank']
    -- the two texts are the same after the first pass
    show (nextText style)^[3] (nextText style (paste front text)) =
        (nextText style)^[3] (nextText style text)
    rw [nextText_paste style hfront hblanks hfirst htop hgaps]

/-- A fragment with a margin, a blank line and a long string. -/
def plainFragment : List Char := " f : Int\n\t\n f = \"\"\"\n a\n\"\"\" -- \x7b-\n".toList

theorem format_paste_plainFragment :
    paste "\t ".toList plainFragment =
      "\t  f : Int\n\t\n\t  f = \"\"\"\n a\n\"\"\" -- \x7b-\n".toList ∧
      format .standard (paste "\t ".toList plainFragment) = format .standard plainFragment :=
  ⟨by decide +kernel,
    format_paste .standard "\t ".toList plainFragment (by decide) (by decide) (by decide +kernel)
      ⟨scanLine .code " f : Int".toList, by decide +kernel, by decide +kernel⟩
      (Gaps.keepsBlanks_of_not_fuses (by decide +kernel))⟩

/-- A fragment in which a brace and a minus sign are put together to a comment that ends inside what
was a string, so that a long string opens behind it and the blank line below is content. -/
def fusingFragment : List Char := "x = \x7b - \"-\x7d \"\"\"\n ".toList

/-- Pasting the fragment gives it a margin, which is removed from the blank line, too. -/
theorem format_paste_fusingFragment :
    ('\r' ∉ fusingFragment ∧
        (∀ l ∈ lines fusingFragment, isBlankText l = true → l.all isIndent = true) ∧
        ∃ first, Margin.firstCode? (scan fusingFragment) = some first ∧
          isTopLevelHead (trimStart first.raw) = true) ∧
      paste [' '] fusingFragment = ' ' :: fusingFragment ∧
      format .standard fusingFragment = "x = \x7b- \"-\x7d \"\"\"\n \n".toList ∧
      format .standard (paste [' '] fusingFragment) = "x = \x7b- \"-\x7d \"\"\"\n".toList := by
  refine ⟨⟨by decide, by decide +kernel, ?_⟩,
    by decide +kernel, by decide +kernel, by decide +kernel⟩
  exact ⟨scanLine .code "x = \x7b - \"-\x7d \"\"\"".toList, by decide +kernel, by decide +kernel⟩

end ScratchFormat
