import ScratchFormat.Proofs.Text
import ScratchFormat.Layout.Endings

/-! Scanning loses nothing: the segments of a line make it up again, and the scanned lines of a text
are its lines. -/

namespace ScratchFormat

theorem ne_of_isSpace {c d : Char} (hc : isSpace c = true) (hd : isSpace d = false) : c ≠ d := by
  rintro rfl
  rw [hc] at hd
  cases hd

/-- What all operator characters of the list have, each of them has. -/
theorem of_isOperatorChar {p : Char → Bool}
    (hall : "+-*/<>=!|&:^%~$".toList.all p = true) {c : Char} (h : isOperatorChar c = true) :
    p c = true :=
  List.all_eq_true.mp hall c (List.contains_iff_mem.mp h)

theorem not_operator_of_isSpace {c : Char} (h : isSpace c = true) : isOperatorChar c = false := by
  refine Bool.eq_false_iff.mpr fun hop => ?_
  have hnot := of_isOperatorChar (p := fun d => !isSpace d) (by decide) hop
  rw [h] at hnot
  cases hnot

theorem isNameTail_eq_false {c : Char} (hrange : c.toNat < 48 ∨ 122 < c.toNat) (hquote : c ≠ '\'')
    (hbang : c ≠ '!') : isNameTail c = false := by
  have hscore : c ≠ '_' := by
    rintro rfl
    exact absurd hrange (by decide)
  have hletter : isAsciiLetter c = false := by
    simp only [isAsciiLetter, Bool.or_eq_false_iff, Bool.and_eq_false_iff, decide_eq_false_iff_not,
      Char.reduceToNat]
    omega
  have hdigit : isAsciiDigit c = false := by
    simp only [isAsciiDigit, Bool.and_eq_false_iff, decide_eq_false_iff_not, Char.reduceToNat]
    omega
  simp [isNameTail, hletter, hdigit, hscore, hquote, hbang]

theorem advance_char (s : Cursor) (c : Char) (rest : List Char) :
    (s.advance c rest).1.char = c := by
  unfold Cursor.advance
  split
  · rfl
  · split <;> rfl

theorem marks_map_char (s : Cursor) (cs : List Char) : (s.marks cs).map Mark.char = cs := by
  induction cs generalizing s with
  | nil => rfl
  | cons c cs ih => rw [Cursor.marks, List.map_cons, advance_char, ih]

theorem ofMarks_ne_nil (m : Mark) (ms : List Mark) : Segment.ofMarks (m :: ms) ≠ [] := by
  unfold Segment.ofMarks
  split
  · split <;> simp
  · simp

theorem ofMarks_singleton (m : Mark) : Segment.ofMarks [m] = [⟨m.kind, [m.char]⟩] := rfl

theorem ofMarks_cons_cons (m n : Mark) (ms : List Mark) :
    ∃ s ss, Segment.ofMarks (n :: ms) = s :: ss ∧
      Segment.ofMarks (m :: n :: ms) =
        if n.fresh then ⟨m.kind, [m.char]⟩ :: s :: ss else ⟨m.kind, m.char :: s.text⟩ :: ss := by
  obtain ⟨s, ss, he⟩ := List.exists_cons_of_ne_nil (ofMarks_ne_nil n ms)
  exact ⟨s, ss, he, Segment.ofMarks.eq_2 m n ms s ss he⟩

theorem ne_nil_of_mem_ofMarks {ms : List Mark} : ∀ t ∈ Segment.ofMarks ms, t.text ≠ [] := by
  induction ms with
  | nil => exact fun _ h => by cases h
  | cons m ms ih =>
    cases ms with
    | nil => simp [ofMarks_singleton]
    | cons n ms =>
      obtain ⟨t, ts, hn, hm⟩ := ofMarks_cons_cons m n ms
      rw [hn] at ih
      intro u hu
      rw [hm] at hu
      split at hu
      · rcases List.mem_cons.mp hu with rfl | hu
        · exact List.cons_ne_nil _ _
        · exact ih u hu
      · rcases List.mem_cons.mp hu with rfl | hu
        · exact List.cons_ne_nil _ _
        · exact ih u (List.mem_cons_of_mem t hu)

/-- Segments hold the characters of the marks. -/
theorem ofMarks_flatMap_text (ms : List Mark) :
    (Segment.ofMarks ms).flatMap Segment.text = ms.map Mark.char := by
  induction ms with
  | nil => rfl
  | cons m ms ih =>
    cases ms with
    | nil => rfl
    | cons n ms =>
      obtain ⟨s, ss, hn, hm⟩ := ofMarks_cons_cons m n ms
      rw [hn, List.flatMap_cons] at ih
      rw [hm, List.map_cons, ← ih]
      split <;> simp

/-- The segments of a line make it up again. -/
theorem segments_flatMap_text (mode : Mode) (raw : List Char) :
    (scanLine mode raw).segments.flatMap Segment.text = raw := by
  rw [scanLine, ofMarks_flatMap_text, marks_map_char]

theorem raw_scanLine (mode : Mode) (raw : List Char) :
    (scanLine mode raw).raw = (scanLine mode raw).segments.flatMap Segment.text :=
  (segments_flatMap_text mode raw).symm

theorem scanFrom_map_raw (mode : Mode) (ls : List (List Char)) :
    (scanFrom mode ls).map ScannedLine.raw = ls := by
  induction ls generalizing mode with
  | nil => rfl
  | cons l ls ih => rw [scanFrom, List.map_cons, ih, scanLine]

/-- The scanned lines of a text are its lines. -/
theorem scan_map_raw (text : List Char) : (scan text).map ScannedLine.raw = lines text :=
  scanFrom_map_raw .code (lines text)

/-- A scanned line of a text is the scan of its characters in the mode that it starts in. -/
theorem mem_scanFrom {mode : Mode} {ls : List (List Char)} {l : ScannedLine}
    (h : l ∈ scanFrom mode ls) : l = scanLine l.startsIn l.raw ∧ l.raw ∈ ls := by
  induction ls generalizing mode with
  | nil => cases h
  | cons raw ls ih =>
    rw [scanFrom, List.mem_cons] at h
    rcases h with rfl | h
    · exact ⟨rfl, List.mem_cons_self⟩
    · obtain ⟨he, hm⟩ := ih h
      exact ⟨he, List.mem_cons_of_mem raw hm⟩

theorem mem_scan {text : List Char} {l : ScannedLine} (h : l ∈ scan text) :
    l = scanLine l.startsIn l.raw ∧ l.raw ∈ lines text :=
  mem_scanFrom h

theorem raw_eq_flatMap_text {text : List Char} {l : ScannedLine} (h : l ∈ scan text) :
    l.raw = l.segments.flatMap Segment.text := by
  have he := segments_flatMap_text l.startsIn l.raw
  rw [← (mem_scan h).1] at he
  exact he.symm

/-- A stage that makes one line of each line makes a text of just these. -/
theorem lines_unlines_map_scan {text : List Char} {f : ScannedLine → List Char}
    (hnewline : ∀ l ∈ scan text, '\n' ∉ f l) :
    lines (unlines ((scan text).map f)) = (scan text).map f := by
  apply lines_unlines
  · intro hnil
    have hscan := scan_map_raw text
    rw [List.map_eq_nil_iff.mp hnil] at hscan
    exact lines_ne_nil text hscan.symm
  · intro m hm
    obtain ⟨l, hl, rfl⟩ := List.mem_map.mp hm
    exact hnewline l hl

/-- The lines that a stage makes of the scanned lines of a text, one of each, keep the solid part of
the text if each keeps that of its line. -/
theorem solid_unlines_map_scan (text : List Char) (f : ScannedLine → List Char)
    (hf : ∀ l ∈ scan text, solid (f l) = solid l.raw) :
    solid (unlines ((scan text).map f)) = solid text := by
  have hmap : ((scan text).map f).map solid = (lines text).map solid := by
    rw [← scan_map_raw text, List.map_map, List.map_map]
    exact List.map_congr_left hf
  rw [solid_unlines, List.flatMap_def, hmap, ← List.flatMap_def, ← solid_unlines, unlines_lines]

/-- Only empty lines are dropped at the end. -/
theorem Endings.dropEmptyEnd_append (ls : List (List Char)) :
    ∃ tail, Endings.dropEmptyEnd ls ++ tail = ls ∧ ∀ l ∈ tail, l = [] := by
  refine ⟨(ls.reverse.takeWhile List.isEmpty).reverse, ?_, ?_⟩
  · rw [Endings.dropEmptyEnd, ← List.reverse_append, List.takeWhile_append_dropWhile,
      List.reverse_reverse]
  · intro l hl
    have hall := List.all_takeWhile (p := List.isEmpty) (l := ls.reverse)
    exact List.isEmpty_iff.mp (List.all_eq_true.mp hall l (List.mem_reverse.mp hl))

end ScratchFormat
