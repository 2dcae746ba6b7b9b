import ScratchFormat.Layout.Margin
import ScratchFormat.Proofs.Scan

/-! The margin of a text is the longest indentation that its movable lines share. Lines that all get
the same indentation in front have it in their margin. -/

namespace ScratchFormat

namespace Margin

/-- What two texts have in common in front is a front of both. -/
theorem commonFront_prefix_both (as bs : List Char) :
    commonFront as bs <+: as ∧ commonFront as bs <+: bs := by
  induction as generalizing bs with
  | nil => exact ⟨List.prefix_refl _, List.nil_prefix⟩
  | cons a as ih =>
    cases bs with
    | nil => exact ⟨List.nil_prefix, List.prefix_refl _⟩
    | cons b bs =>
      rw [commonFront]
      split
      · rename_i hab
        subst hab
        exact ⟨List.cons_prefix_cons.mpr ⟨rfl, (ih bs).1⟩,
          List.cons_prefix_cons.mpr ⟨rfl, (ih bs).2⟩⟩
      · exact ⟨List.nil_prefix, List.nil_prefix⟩

theorem commonFront_append (front as bs : List Char) :
    commonFront (front ++ as) (front ++ bs) = front ++ commonFront as bs := by
  induction front with
  | nil => rfl
  | cons c front ih =>
    rw [List.cons_append, List.cons_append, commonFront, if_pos rfl, ih, List.cons_append]

/-- The margin is indentation of every line that shares it. -/
theorem shared_prefix_of_mem {ls : List (List Char)} {l : List Char} (hl : l ∈ ls) :
    shared ls <+: l.takeWhile isIndent := by
  have hfold : ∀ (ls : List (List Char)) (front : List Char),
      ls.foldl (fun front l => commonFront front (l.takeWhile isIndent)) front <+: front ∧
        ∀ l ∈ ls, ls.foldl (fun front l => commonFront front (l.takeWhile isIndent)) front <+:
        l.takeWhile isIndent := by
    intro ls
    induction ls with
    | nil => exact fun front => ⟨List.prefix_refl front, nofun⟩
    | cons m ls ih =>
      intro front
      obtain ⟨hfront, hrest⟩ := ih (commonFront front (m.takeWhile isIndent))
      obtain ⟨hleft, hright⟩ := commonFront_prefix_both front (m.takeWhile isIndent)
      exact ⟨hfront.trans hleft, List.forall_mem_cons.mpr ⟨hfront.trans hright, hrest⟩⟩
  cases ls with
  | nil => cases hl
  | cons m ls =>
    obtain ⟨hfirst, hrest⟩ := hfold ls (m.takeWhile isIndent)
    rcases List.mem_cons.mp hl with rfl | hl
    · exact hfirst
    · exact hrest l hl

theorem isIndent_of_mem_shared {ls : List (List Char)} {c : Char} (h : c ∈ shared ls) :
    isIndent c = true := by
  cases ls with
  | nil => cases h
  | cons l ls =>
    exact List.all_eq_true.mp List.all_takeWhile c
      ((shared_prefix_of_mem List.mem_cons_self).subset h)

/-- Indentation put in front of all lines goes in front of their margin. -/
theorem shared_map_append {front : List Char} (h : ∀ c ∈ front, isIndent c = true)
    {ls : List (List Char)} (hne : ls ≠ []) :
    shared (ls.map (front ++ ·)) = front ++ shared ls := by
  have hfold : ∀ (ls : List (List Char)) (first : List Char),
      (ls.map (front ++ ·)).foldl (fun front l => commonFront front (l.takeWhile isIndent))
          (front ++ first) =
        front ++ ls.foldl (fun front l => commonFront front (l.takeWhile isIndent)) first := by
    intro ls
    induction ls with
    | nil => exact fun first => rfl
    | cons l ls ih =>
      intro first
      rw [List.map_cons, List.foldl_cons, List.foldl_cons, List.takeWhile_append_of_pos h,
        commonFront_append, ih]
  obtain ⟨l, ls, rfl⟩ := List.exists_cons_of_ne_nil hne
  rw [List.map_cons, shared, List.takeWhile_append_of_pos h, hfold, shared]

/-- What is stripped from a line is indentation. -/
theorem strip_append {margin : List Char} (hm : ∀ c ∈ margin, isIndent c = true) (l : ScannedLine) :
    ∃ front, front ++ strip margin l = l.raw ∧ ∀ c ∈ front, isIndent c = true := by
  unfold strip
  split
  · unfold dropFront?
    split
    · rename_i hpre
      obtain ⟨rest, hr⟩ := List.isPrefixOf_iff_prefix.mp hpre
      refine ⟨margin, ?_, hm⟩
      rw [Option.getD_some, ← hr, List.drop_left]
    · exact ⟨[], rfl, nofun⟩
  · exact ⟨[], rfl, nofun⟩

theorem newline_notMem_strip {margin : List Char} (hm : ∀ c ∈ margin, isIndent c = true)
    {text : List Char} {l : ScannedLine} (hl : l ∈ scan text) : '\n' ∉ strip margin l := by
  obtain ⟨front, hraw, -⟩ := strip_append hm l
  intro hmem
  apply newline_notMem_of_mem_lines (mem_scan hl).2
  rw [← hraw]
  exact List.mem_append_right front hmem

theorem strip_of_eq_append {margin rest : List Char} {l : ScannedLine}
    (hmovable : isMovable l = true) (h : l.raw = margin ++ rest) : strip margin l = rest := by
  have hpre : margin.isPrefixOf l.raw = true := List.isPrefixOf_iff_prefix.mpr ⟨rest, h.symm⟩
  rw [strip, if_pos hmovable, dropFront?, if_pos hpre, Option.getD_some, h, List.drop_left]

/-- A text without its margin is the text itself, or its lines each without some indentation. -/
theorem remove_cases (text : List Char) :
    (remove text).text = text ∨
      ∃ margin, (∀ c ∈ margin, isIndent c = true) ∧
        (remove text).text = unlines ((scan text).map (strip margin)) := by
  unfold remove
  simp only
  split
  · exact .inl rfl
  split
  · exact .inl rfl
  split
  · exact .inr ⟨_, fun c hc => isIndent_of_mem_shared hc, rfl⟩
  · exact .inl rfl

/-- In a text that begins with a declaration every line is stripped of the margin, be it empty or
not. -/
theorem remove_eq {text : List Char} {first : ScannedLine}
    (hfirst : firstCode? (scan text) = some first)
    (htop : isTopLevelHead (trimStart first.raw) = true) :
    (remove text).text = unlines ((scan text).map (strip (ofLines (scan text)))) := by
  unfold remove
  simp only
  split
  · rename_i hempty
    have hstrip : strip [] = ScannedLine.raw := by
      funext l
      simp [strip, dropFront?]
    rw [List.isEmpty_iff.mp hempty, hstrip, scan_map_raw, unlines_lines]
  · rw [hfirst]
    simp only [htop, if_true]

end Margin

end ScratchFormat
