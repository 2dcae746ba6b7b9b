import ScratchFormat.Proofs.Shape
import Mathlib.Data.List.DropRight

/-! Trimming the ends of a text a second time. A line that loses the blanks at its end leaves the
scanner in the mode it left it in before, also where the cut goes through an escape or a literal
that is still open. So all lines that are left start and end as before, and the second run finds
nothing more to cut. -/

namespace ScratchFormat

namespace Endings

/-- A line `m` that is left of a line `l` when the ends of a text are trimmed. -/
structure TrimsTo (l m : ScannedLine) : Prop where
  startsIn : m.startsIn = l.startsIn
  endsIn : m.endsIn = l.endsIn
  /-- Only spaces and tabs are cut off, -/
  front : ∃ tail, m.raw ++ tail = l.raw ∧ ∀ c ∈ tail, isIndent c = true
  /-- none of them from a line that ends inside a long string, -/
  whole : l.endsIn = .longString → m.raw = l.raw
  /-- and all of them from any other. -/
  clean : l.endsIn ≠ .longString → ∀ c ∈ m.raw.getLast?, isIndent c = false

theorem trimsTo_line {l : ScannedLine} (hl : l = scanLine l.startsIn l.raw) :
    TrimsTo l (scanLine l.startsIn (line l)) where
  startsIn := rfl
  endsIn := by
    have hends := endsIn_line l.startsIn l.raw
    rwa [← hl] at hends
  front := line_append l
  whole hlong := if_pos hlong
  clean := getLast?_line

/-- Nothing is dropped from the end of a list whose last element stays. -/
theorem rdropWhile_of_getLast? {α : Type} {p : α → Bool} {as : List α}
    (h : ∀ a ∈ as.getLast?, p a = false) : as.rdropWhile p = as := by
  rw [List.rdropWhile_eq_self_iff]
  intro hne
  simp [h _ (List.getLast?_eq_some_getLast hne)]

/-- There is nothing to cut off a line that has been trimmed. -/
theorem TrimsTo.line_eq {l m : ScannedLine} (h : TrimsTo l m) : line m = m.raw := by
  by_cases hlong : m.endsIn = .longString
  · rw [line, if_pos hlong]
  · rw [line, if_neg hlong]
    apply rdropWhile_of_getLast?
    apply h.clean
    rwa [← h.endsIn]

theorem line_empty (mode : Mode) : line (scanLine mode []) = [] := by
  obtain ⟨tail, htail, -⟩ := line_append (scanLine mode [])
  exact (List.append_eq_nil_iff.mp htail).1

theorem dropEmptyEnd_concat_nil {ls : List (List Char)} (h : ∀ l ∈ ls.getLast?, l ≠ []) :
    dropEmptyEnd (ls ++ [[]]) = ls := by
  have hdrop : dropEmptyEnd (ls ++ [[]]) = ls.rdropWhile List.isEmpty := by
    rw [dropEmptyEnd, List.reverse_append, List.reverse_singleton, List.singleton_append,
      List.dropWhile_cons_of_pos rfl]
    rfl
  rw [hdrop]
  apply rdropWhile_of_getLast?
  intro l hl
  simpa using h l hl

/-- Trimming the ends of a text twice is trimming them once. Of the lines of a text those are left
that stand above the last one with something in it, and that one. They start and end in the modes
they had before and have lost nothing but the blanks at their ends, which lines that end inside a
long string keep. -/
theorem trim_neutral (text : List Char) :
    trim (trim text) = trim text ∧
      ∃ kept dropped left last, scan text = kept ++ dropped ∧ scan (trim text) = left ++ [last] ∧
        last.raw = [] ∧ List.Forall₂ TrimsTo kept left ∧ (∀ m ∈ left.getLast?, m.raw ≠ []) ∧
        ∀ l ∈ dropped, TrimsTo l (scanLine l.startsIn []) := by
  obtain ⟨kept, dropped, hsplit, hdrop, hdropped, hlast⟩ := exists_dropEmptyEnd_map line (scan text)
  obtain ⟨mode, hscan⟩ := exists_scan_trim hsplit hdrop
  have hkept : ∀ l ∈ kept, TrimsTo l (scanLine l.startsIn (line l)) := by
    intro l hl
    apply trimsTo_line
    exact (mem_scan (hsplit ▸ List.mem_append_left dropped hl)).1
  constructor
  · -- the second run drops the empty line behind the last line feed and cuts nothing off the others
    have hagain : (scan (trim text)).map line = kept.map line ++ [[]] := by
      rw [hscan, List.map_append, List.map_map]
      congr 1
      · exact List.map_congr_left fun l hl => (hkept l hl).line_eq
      · exact congrArg (· :: []) (line_empty mode)
    have hends : ∀ l ∈ (kept.map line).getLast?, l ≠ [] := by
      intro l hl
      rw [List.getLast?_map] at hl
      obtain ⟨k, hk, rfl⟩ := Option.map_eq_some_iff.mp hl
      exact hlast k hk
    rw [trim, hagain, dropEmptyEnd_concat_nil hends, trim, hdrop]
  · refine ⟨kept, dropped, _, _, hsplit, hscan, rfl, ?_, ?_, ?_⟩
    · rw [List.forall₂_map_right_iff, List.forall₂_same]
      exact hkept
    · intro m hm
      rw [List.getLast?_map] at hm
      obtain ⟨l, hl, rfl⟩ := Option.map_eq_some_iff.mp hm
      exact hlast l hl
    · intro l hl
      have htrims := trimsTo_line (mem_scan (hsplit ▸ List.mem_append_right kept hl)).1
      rwa [hdropped l hl] at htrims

end Endings

end ScratchFormat
