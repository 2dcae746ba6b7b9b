import ScratchFormat.Proofs.Paste

/-! What is removed with the margin. The margin that is found line by line is the longest
indentation that all sharing lines begin with, so nothing shared is left behind it, and a second
removal finds no margin. -/

namespace ScratchFormat

namespace Margin

/-- The longest indentation that every line begins with which is not blank and starts outside long
strings. -/
structure IsMargin (margin : List Char) (ls : List ScannedLine) : Prop where
  indent : ∀ c ∈ margin, isIndent c = true
  front : ∀ l ∈ sharers ls, margin <+: l.raw
  longest : ∀ front : List Char, (∀ c ∈ front, isIndent c = true) →
    (∀ l ∈ sharers ls, front <+: l.raw) → front.length ≤ margin.length

/-- The first line that is neither blank nor all comment begins a declaration. -/
def Declares (ls : List ScannedLine) : Prop :=
  ∃ first, firstCode? ls = some first ∧ isTopLevelHead (trimStart first.raw) = true

/-- What is left of a line. The content of a long string stays, and a blank line loses the margin or
nothing. -/
def Stripped (margin : List Char) (l : ScannedLine) (left : List Char) : Prop :=
  if l.startsIn = .longString then left = l.raw
  else if isBlankText l.raw = true then left = l.raw ∨ margin ++ left = l.raw
  else margin ++ left = l.raw

theorem prefix_commonFront {front as bs : List Char} (has : front <+: as) (hbs : front <+: bs) :
    front <+: commonFront as bs := by
  obtain ⟨as, rfl⟩ := has
  obtain ⟨bs, rfl⟩ := hbs
  rw [commonFront_append]
  exact List.prefix_append front _

/-- Whatever all lines are indented by is part of the indentation that they share. -/
theorem prefix_shared {front : List Char} (hindent : ∀ c ∈ front, isIndent c = true)
    {ls : List (List Char)} (hne : ls ≠ []) (h : ∀ l ∈ ls, front <+: l) : front <+: shared ls := by
  have hline : ∀ l, front <+: l → front <+: l.takeWhile isIndent := by
    rintro _ ⟨rest, rfl⟩
    rw [List.takeWhile_append_of_pos hindent]
    exact List.prefix_append front _
  -- what is a front of every line stays a front of the part they have in common so far
  have hfold : ∀ (ls : List (List Char)) (sofar : List Char), front <+: sofar →
      (∀ l ∈ ls, front <+: l) → front <+:
      ls.foldl (fun front l => commonFront front (l.takeWhile isIndent)) sofar := by
    intro ls
    induction ls with
    | nil => exact fun _ hsofar _ => hsofar
    | cons l ls ih =>
      intro sofar hsofar hls
      obtain ⟨hl, hlater⟩ := List.forall_mem_cons.mp hls
      exact ih _ (prefix_commonFront hsofar (hline l hl)) hlater
  obtain ⟨l, ls, rfl⟩ := List.exists_cons_of_ne_nil hne
  obtain ⟨hl, hlater⟩ := List.forall_mem_cons.mp h
  exact hfold ls _ (hline l hl) hlater

theorem ofLines_eq_shared (ls : List ScannedLine) :
    ofLines ls = shared ((sharers ls).map (·.raw)) := rfl

theorem prefix_ofLines {front : List Char} (hindent : ∀ c ∈ front, isIndent c = true)
    {ls : List ScannedLine} (hne : sharers ls ≠ []) (h : ∀ l ∈ sharers ls, front <+: l.raw) :
    front <+: ofLines ls := by
  rw [ofLines_eq_shared]
  apply prefix_shared hindent (mt List.map_eq_nil_iff.mp hne)
  intro raw hraw
  obtain ⟨l, hl, rfl⟩ := List.mem_map.mp hraw
  exact h l hl

theorem isMargin_ofLines {ls : List ScannedLine} (hne : sharers ls ≠ []) :
    IsMargin (ofLines ls) ls := by
  constructor
  · exact fun c hc => isIndent_of_mem_shared hc
  · intro l hl
    have hmem : l.raw ∈ (sharers ls).map (·.raw) := List.mem_map_of_mem hl
    exact (shared_prefix_of_mem hmem).trans (List.takeWhile_prefix isIndent)
  · intro front hindent hfront
    exact (prefix_ofLines hindent hne hfront).length_le

/-- There is a longest indentation only if there are lines that share it, and it is the one that is
found. -/
theorem IsMargin.eq_ofLines {margin : List Char} {ls : List ScannedLine} (h : IsMargin margin ls) :
    sharers ls ≠ [] ∧ margin = ofLines ls := by
  have hne : sharers ls ≠ [] := by
    -- with no line to share it, any indentation could be made longer
    intro hnil
    have hlonger := h.longest (' ' :: margin) (List.forall_mem_cons.mpr ⟨rfl, h.indent⟩)
      (by rw [hnil]; exact List.forall_mem_nil _)
    rw [List.length_cons] at hlonger
    omega
  have hfound := isMargin_ofLines hne
  have hfront : margin <+: ofLines ls := prefix_ofLines h.indent hne h.front
  exact ⟨hne, hfront.eq_of_length_le (h.longest _ hfound.indent hfound.front)⟩

/-- A line without the margin is what is left of that line. -/
theorem stripped_strip {margin : List Char} {ls : List ScannedLine} (h : IsMargin margin ls)
    {l : ScannedLine} (hl : l ∈ ls) : Stripped margin l (strip margin l) := by
  unfold Stripped
  by_cases hlong : l.startsIn = .longString
  · rw [if_pos hlong, strip, if_neg]
    simp [isMovable, hlong]
  · have hmovable : isMovable l = true := decide_eq_true hlong
    rw [if_neg hlong]
    split
    · rw [strip, if_pos hmovable, dropFront?]
      split
      · rename_i hpre
        obtain ⟨rest, hrest⟩ := List.isPrefixOf_iff_prefix.mp hpre
        right
        rw [Option.getD_some, ← hrest, List.drop_left]
      · exact .inl rfl
    · rename_i hfull
      have hshares : l ∈ sharers ls := List.mem_filter.mpr ⟨hl, by simp [hmovable, hfull]⟩
      obtain ⟨rest, hrest⟩ := h.front l hshares
      rw [strip_of_eq_append hmovable hrest.symm, hrest]

theorem remove_of_ofLines_eq_nil {text : List Char} (h : ofLines (scan text) = []) :
    (remove text).text = text := by
  unfold remove
  simp only [h, List.isEmpty_nil, if_true]

/-- A text whose first line of code begins no declaration keeps its margin. -/
theorem remove_of_not_declares {text : List Char} (h : ¬ Declares (scan text)) :
    (remove text).text = text := by
  unfold remove
  simp only
  split
  · rfl
  split
  · rfl
  · rename_i first hfirst
    split
    · rename_i htop
      exact absurd ⟨first, hfirst, htop⟩ h
    · rfl

theorem lines_remove {text : List Char} (h : Declares (scan text)) :
    lines (remove text).text = (scan text).map (strip (ofLines (scan text))) := by
  obtain ⟨first, hfirst, htop⟩ := h
  rw [remove_eq hfirst htop]
  exact lines_unlines_map_scan fun l hl =>
    newline_notMem_strip (fun c hc => isIndent_of_mem_shared hc) hl

theorem isBlankText_strip {margin : List Char} (hmargin : ∀ c ∈ margin, isIndent c = true)
    (l : ScannedLine) : isBlankText (strip margin l) = isBlankText l.raw := by
  obtain ⟨front, hraw, hfront⟩ := strip_append hmargin l
  rw [Bool.eq_iff_iff, isBlankText_iff, isBlankText_iff, ← hraw, solid_append,
    solid_eq_nil fun c hc => isSpace_of_isIndent (hfront c hc), List.nil_append]

/-- The same lines share a margin as before, each without the margin that was removed. -/
theorem sharers_remove {text : List Char} (h : Declares (scan text)) :
    (sharers (scan text)).map (·.raw) =
      ((sharers (scan (remove text).text)).map (·.raw)).map (ofLines (scan text) ++ ·) := by
  have hmargin : ∀ c ∈ ofLines (scan text), isIndent c = true :=
    fun c hc => isIndent_of_mem_shared hc
  have hscan : scan (remove text).text =
      (scan text).map fun l => scanLine l.startsIn (strip (ofLines (scan text)) l) := by
    rw [scan, lines_remove h]
    exact scanFrom_map (endsIn_strip hmargin) .code (lines text)
  -- neither the mode that a line starts in nor whether it is blank hangs on its margin
  have hsame : ∀ l ∈ scan text, ((fun l : ScannedLine => isMovable l && !isBlankText l.raw) ∘
      fun l => scanLine l.startsIn (strip (ofLines (scan text)) l)) l =
      (isMovable l && !isBlankText l.raw) := by
    intro l _
    have hblank := isBlankText_strip hmargin l
    simp only [Function.comp_apply, isMovable, scanLine, hblank]
  rw [hscan, sharers, sharers, List.filter_map, List.filter_congr hsame, List.map_map, List.map_map]
  apply List.map_congr_left
  intro l hl
  have hne : sharers (scan text) ≠ [] := List.ne_nil_of_mem hl
  obtain ⟨rest, hrest⟩ := (isMargin_ofLines hne).front l hl
  have hmovable := (Bool.and_eq_true_iff.mp (List.mem_filter.mp hl).2).1
  change l.raw = ofLines (scan text) ++ strip (ofLines (scan text)) l
  rw [strip_of_eq_append hmovable hrest.symm, hrest]

/-- Nothing that is shared is left. -/
theorem ofLines_remove {text : List Char} (h : Declares (scan text)) :
    ofLines (scan (remove text).text) = [] := by
  by_cases hne : sharers (scan (remove text).text) = []
  · rw [ofLines_eq_shared, hne]
    rfl
  · -- the old margin is the removed one and whatever the lines share behind it
    have hshared : shared ((sharers (scan text)).map (·.raw)) =
        ofLines (scan text) ++ shared ((sharers (scan (remove text).text)).map (·.raw)) := by
      rw [sharers_remove h]
      exact shared_map_append (fun c hc => isIndent_of_mem_shared hc) (by simpa using hne)
    exact List.self_eq_append_right.mp hshared

theorem remove_remove (text : List Char) :
    (remove (remove text).text).text = (remove text).text := by
  by_cases h : Declares (scan text)
  · exact remove_of_ofLines_eq_nil (ofLines_remove h)
  · rw [remove_of_not_declares h, remove_of_not_declares h]

/-- Exactly the margin is removed, and only from a text that begins with a declaration. The margin
is the longest indentation that the sharing lines have in common, and there is one as soon as there
are such lines. A second removal changes nothing. -/
theorem remove_exact (text : List Char) :
    (sharers (scan text) = [] → (remove text).text = text) ∧
      (sharers (scan text) ≠ [] → ∃ margin, IsMargin margin (scan text)) ∧
      (∀ margin, IsMargin margin (scan text) →
        (margin ≠ [] ∧ Declares (scan text) →
          List.Forall₂ (Stripped margin) (scan text) (lines (remove text).text)) ∧
        (¬ (margin ≠ [] ∧ Declares (scan text)) → (remove text).text = text)) ∧
      (remove (remove text).text).text = (remove text).text := by
  refine ⟨?_, fun hne => ⟨_, isMargin_ofLines hne⟩, ?_, remove_remove text⟩
  · intro hnil
    apply remove_of_ofLines_eq_nil
    rw [ofLines_eq_shared, hnil]
    rfl
  · intro margin hmargin
    obtain ⟨-, rfl⟩ := hmargin.eq_ofLines
    constructor
    · rintro ⟨-, hdeclares⟩
      rw [lines_remove hdeclares, List.forall₂_map_right_iff, List.forall₂_same]
      exact fun l hl => stripped_strip hmargin hl
    · intro hnot
      by_cases hnil : ofLines (scan text) = []
      · exact remove_of_ofLines_eq_nil hnil
      · exact remove_of_not_declares fun hdeclares => hnot ⟨hnil, hdeclares⟩

end Margin

end ScratchFormat
