import ScratchFormat.Role.Basic

/-! The parts of a line that tell its role stand at its start, each right after the one before. -/

namespace ScratchFormat

/-- A name at the start of a text is a beginning of it. -/
theorem eq_append_of_leadingName? {cs name : List Char} (h : leadingName? cs = some name) :
    ∃ rest, cs = name ++ rest := by
  unfold leadingName? at h
  split at h
  · cases h
  · rename_i c rest
    split at h
    · simp only at h
      split at h
      · rename_i hbang
        obtain ⟨later, hlater⟩ := List.head?_eq_some_iff.mp hbang
        cases h
        refine ⟨later, ?_⟩
        have hsplit : rest.takeWhile isNameRest ++ rest.dropWhile isNameRest = rest :=
          List.takeWhile_append_dropWhile
        rw [hlater] at hsplit
        simpa using hsplit.symm
      · cases h
        exact ⟨rest.dropWhile isNameRest, by simp⟩
    · cases h

/-- A text in parentheses at the start of a text is a beginning of it. -/
theorem eq_append_of_leadingSection? {cs name : List Char} (h : leadingSection? cs = some name) :
    ∃ rest, cs = name ++ rest := by
  unfold leadingSection? at h
  split at h
  · rename_i rest
    simp only at h
    generalize hinner : rest.takeWhile (fun c => !(c == '(' || c == ')' || isSpace c)) = inner at h
    obtain ⟨later, rfl⟩ : ∃ later, rest = inner ++ later := by
      rw [← hinner]
      exact ⟨_, List.takeWhile_append_dropWhile.symm⟩
    split at h
    · cases h
    · split at h
      · rename_i hclose
        rw [List.drop_left] at hclose
        obtain ⟨later, rfl⟩ := List.head?_eq_some_iff.mp hclose
        cases h
        exact ⟨later, by simp⟩
      · cases h
  · cases h

/-- What is read of a signature: its name, the white space behind it, and a colon that no other and
no plus sign follows. -/
theorem exists_of_signature? {cs name gap : List Char} (h : signature? cs = some (name, gap)) :
    ∃ after, cs = name ++ (gap ++ ':' :: after) ∧
      (leadingName? cs = some name ∨ leadingSection? cs = some name) ∧
      (∀ b ∈ gap, isSpace b = true) ∧ after.head?.any (fun c => c == ':' || c == '+') = false := by
  unfold signature? at h
  split at h
  · cases h
  · rename_i name' hname
    have hread : leadingName? cs = some name' ∨ leadingSection? cs = some name' :=
      (Option.or_eq_some_iff.mp hname).imp_right And.right
    obtain ⟨rest, rfl⟩ : ∃ rest, cs = name' ++ rest := by
      rcases hread with hread | hread
      · exact eq_append_of_leadingName? hread
      · exact eq_append_of_leadingSection? hread
    simp only [List.drop_left] at h
    split at h
    · rename_i after hafter
      split at h
      · cases h
      · rename_i hnext
        cases h
        refine ⟨after, ?_, hread, List.all_eq_true.mp List.all_takeWhile, by simpa using hnext⟩
        rw [← hafter, List.takeWhile_append_dropWhile]
    · cases h

/-- A signature is a name, a gap and a colon, and then some more. -/
theorem eq_append_of_signature? {cs name gap : List Char} (h : signature? cs = some (name, gap)) :
    ∃ rest, cs = name ++ (gap ++ ':' :: rest) := by
  obtain ⟨after, hafter, -, -, -⟩ := exists_of_signature? h
  exact ⟨after, hafter⟩

/-- What stands before the equals sign of a definition is followed by it. -/
theorem eq_append_of_beforeEquals? {depth : Nat} {prev : Option Char} {cs head : List Char}
    (h : beforeEquals? depth prev cs = some head) : ∃ rest, cs = head ++ '=' :: rest := by
  induction cs generalizing depth prev head with
  | nil => cases h
  | cons c cs ih =>
    rw [beforeEquals?] at h
    split at h
    · cases h
    · split at h
      · rename_i heq
        cases h
        exact ⟨cs, by rw [heq.1]; rfl⟩
      · obtain ⟨later, hl, rfl⟩ := Option.map_eq_some_iff.mp h
        obtain ⟨rest, rfl⟩ := ih hl
        exact ⟨rest, rfl⟩

theorem eq_append_of_definitionHead? {code head : List Char}
    (h : definitionHead? code = some head) : ∃ rest, code = head ++ '=' :: rest :=
  eq_append_of_beforeEquals? (Option.filter_eq_some_iff.mp h).1

/-- The marker that is found in front of a watch or test expression stands there. -/
theorem eq_append_of_watchMarker? {head marker : List Char} (h : watchMarker? head = some marker) :
    ∃ rest, head = marker ++ rest := by
  unfold watchMarker? at h
  split at h
  · rename_i rest hrest
    split at h
    · cases h
    · cases h
      unfold dropFront? at hrest
      split at hrest
      · rename_i hpre
        obtain ⟨rest, hr⟩ := List.isPrefixOf_iff_prefix.mp hpre
        exact ⟨rest, hr.symm⟩
      · cases hrest
  · split at h
    · split at h
      · cases h
      · cases h
        exact ⟨_, rfl⟩
    · cases h

/-- There are two markers. -/
theorem marker_of_watchMarker? {cs marker : List Char} (h : watchMarker? cs = some marker) :
    marker = testMarker ∨ marker = ['>'] := by
  unfold watchMarker? at h
  split at h
  · split at h
    · cases h
    · cases h
      exact .inl rfl
  · split at h
    · split at h
      · cases h
      · cases h
        exact .inr rfl
    · cases h

end ScratchFormat
