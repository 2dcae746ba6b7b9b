import ScratchFormat.Proofs.Role
import ScratchFormat.Proofs.Scan

/-! The texts that are taken for signatures, told by their parts: a name, a gap and a colon. -/

namespace ScratchFormat

theorem exists_of_inRanges {n : Nat} {ranges : List (Nat × Nat)} (h : inRanges n ranges = true) :
    ∃ r ∈ ranges, r.1 ≤ n ∧ n ≤ r.2 := by
  induction ranges with
  | nil => cases h
  | cons r ranges ih =>
    obtain ⟨lo, hi⟩ := r
    rw [inRanges] at h
    split at h
    · cases h
    · rename_i hlo
      split at h
      · rename_i hhi
        exact ⟨(lo, hi), List.mem_cons_self, Nat.le_of_not_lt hlo, hhi⟩
      · obtain ⟨r, hr, hn⟩ := ih h
        exact ⟨r, List.mem_cons_of_mem _ hr, hn⟩

/-- White space, character by character. -/
theorem toNat_of_isSpace {c : Char} (h : isSpace c = true) :
    c.toNat ∈ [0x9, 0xa, 0xb, 0xc, 0xd, 0x20, 0x85, 0xa0, 0x1680, 0x2000, 0x2001, 0x2002, 0x2003,
      0x2004, 0x2005, 0x2006, 0x2007, 0x2008, 0x2009, 0x200a, 0x2028, 0x2029, 0x202f,
      0x205f, 0x3000] := by
  obtain ⟨r, hr, hlo, hhi⟩ := exists_of_inRanges h
  simp only [List.mem_cons, List.not_mem_nil, or_false] at hr ⊢
  rcases hr with rfl | rfl | rfl | rfl | rfl | rfl | rfl | rfl | rfl | rfl <;>
    simp only at hlo hhi <;> omega

theorem not_name_of_isSpace {c : Char} (h : isSpace c = true) :
    isNameStart c = false ∧ isNameRest c = false := by
  have hall : ([0x9, 0xa, 0xb, 0xc, 0xd, 0x20, 0x85, 0xa0, 0x1680, 0x2000, 0x2001, 0x2002, 0x2003,
      0x2004, 0x2005, 0x2006, 0x2007, 0x2008, 0x2009, 0x200a, 0x2028, 0x2029, 0x202f, 0x205f,
      0x3000].all fun n =>
        !isNameStart (Char.ofNat n) && !isNameRest (Char.ofNat n)) = true := by decide +kernel
  have hc := List.all_eq_true.mp hall c.toNat (toNat_of_isSpace h)
  rwa [Char.ofNat_toNat, Bool.and_eq_true, Bool.not_eq_true', Bool.not_eq_true'] at hc

/-- The characters of a name are no operators. -/
theorem not_operator_of_name {c : Char} (h : isNameStart c = true ∨ isNameRest c = true) :
    isOperatorChar c = false := by
  refine Bool.eq_false_iff.mpr fun hop => ?_
  have hnot :=
    of_isOperatorChar (p := fun d => !isNameStart d && !isNameRest d) (by decide +kernel) hop
  rw [Bool.and_eq_true, Bool.not_eq_true', Bool.not_eq_true'] at hnot
  rcases h with h | h
  · rw [hnot.1] at h
    cases h
  · rw [hnot.2] at h
    cases h

/-- The names that a signature gives a type to: a dotted name, perhaps with an exclamation mark, or
a text in parentheses. -/
inductive SignatureName : List Char → Prop
  | word {c : Char} {cs bang : List Char} (hstart : isNameStart c = true)
    (hrest : ∀ d ∈ cs, isNameRest d = true) (hbang : bang = [] ∨ bang = ['!']) :
    SignatureName (c :: cs ++ bang)
  | parens {cs : List Char} (hne : cs ≠ [])
    (hinner : ∀ d ∈ cs, (d == '(' || d == ')' || isSpace d) = false) :
    SignatureName ('(' :: cs ++ [')'])

/-- A name at the start of a line is a name that a signature can have. -/
theorem signatureName_of_leadingName? {cs name : List Char} (h : leadingName? cs = some name) :
    SignatureName name := by
  unfold leadingName? at h
  split at h
  · cases h
  · rename_i c rest
    split at h
    · rename_i hstart
      have hrest : ∀ d ∈ rest.takeWhile isNameRest, isNameRest d = true :=
        List.all_eq_true.mp List.all_takeWhile
      simp only at h
      split at h
      · cases h
        exact .word hstart hrest (.inr rfl)
      · cases h
        have hname := SignatureName.word hstart hrest (.inl rfl)
        rwa [List.append_nil] at hname
    · cases h

/-- A text in parentheses at the start of a line is a name that a signature can have. -/
theorem signatureName_of_leadingSection? {cs name : List Char}
    (h : leadingSection? cs = some name) : SignatureName name := by
  unfold leadingSection? at h
  split at h
  · rename_i rest
    have hinner : ∀ d ∈ rest.takeWhile (fun c => !(c == '(' || c == ')' || isSpace c)),
        (d == '(' || d == ')' || isSpace d) = false := by
      intro d hd
      simpa using List.all_eq_true.mp List.all_takeWhile d hd
    simp only at h
    split at h
    · cases h
    · rename_i hne
      split at h
      · cases h
        exact .parens (fun hnil => hne (List.isEmpty_iff.mpr hnil)) hinner
      · cases h
  · cases h

/-- Before a gap or a colon, such a name is what a text starts with. -/
theorem SignatureName.leading {name cs : List Char} (h : SignatureName name)
    (hcs : ∀ c ∈ cs.head?, isNameRest c = false ∧ c ≠ '!') :
    (leadingName? (name ++ cs)).or (leadingSection? (name ++ cs)) = some name := by
  cases h with
  | @word c ns bang hstart hrest hbang =>
    have hstop : ∀ d ∈ (bang ++ cs).head?, isNameRest d = false := by
      intro d hd
      rcases hbang with rfl | rfl
      · exact (hcs d hd).1
      · cases hd
        decide +kernel
    have hnone : (bang ++ cs).takeWhile isNameRest = [] := takeWhile_append_of_head [] hstop
    have htake : (ns ++ (bang ++ cs)).takeWhile isNameRest = ns := by
      rw [List.takeWhile_append_of_pos hrest, hnone, List.append_nil]
    have hdrop : (ns ++ (bang ++ cs)).dropWhile isNameRest = bang ++ cs := by
      have hsplit : (bang ++ cs).takeWhile isNameRest ++
          (bang ++ cs).dropWhile isNameRest = bang ++ cs :=
        List.takeWhile_append_dropWhile
      rw [hnone, List.nil_append] at hsplit
      rw [List.dropWhile_append_of_pos hrest, hsplit]
    have hname : leadingName? (c :: ns ++ bang ++ cs) = some (c :: ns ++ bang) := by
      rw [List.append_assoc, List.cons_append, leadingName?, if_pos hstart]
      simp only [htake, hdrop]
      rcases hbang with rfl | rfl
      · have hnot : cs.head? ≠ some '!' := fun heq => (hcs '!' heq).2 rfl
        rw [List.nil_append, if_neg hnot, List.append_nil]
      · rfl
    rw [hname]
    rfl
  | @parens inner hne hinner =>
    have hnone : leadingName? ('(' :: inner ++ [')'] ++ cs) = none := rfl
    have htake :
        (inner ++ ')' :: cs).takeWhile (fun d => !(d == '(' || d == ')' || isSpace d)) = inner := by
      rw [List.takeWhile_append_of_pos, List.takeWhile_cons_of_neg (by decide), List.append_nil]
      intro d hd
      rw [hinner d hd]
      rfl
    have hsection : leadingSection? ('(' :: inner ++ [')'] ++ cs) =
        some ('(' :: inner ++ [')']) := by
      rw [List.append_assoc, List.singleton_append, List.cons_append, leadingSection?]
      simp only [htake, List.drop_left, List.head?_cons, if_true]
      rw [if_neg (by simpa using hne)]
    rw [hnone, hsection]
    rfl

/-- A text is a signature exactly if it is a name, a gap, and a colon that is no part of an
operator. -/
theorem signature?_eq_some_iff {cs name gap : List Char} :
    signature? cs = some (name, gap) ↔
      ∃ after, cs = name ++ (gap ++ ':' :: after) ∧ SignatureName name ∧
        (∀ b ∈ gap, isSpace b = true) ∧
        after.head?.any (fun c => c == ':' || c == '+') = false := by
  constructor
  · intro h
    obtain ⟨after, hafter, hname, hgap, hnext⟩ := exists_of_signature? h
    refine ⟨after, hafter, ?_, hgap, hnext⟩
    rcases hname with hname | hname
    · exact signatureName_of_leadingName? hname
    · exact signatureName_of_leadingSection? hname
  · rintro ⟨after, rfl, hname, hgap, hafter⟩
    -- neither the gap nor the colon goes on with the name
    have hstop : ∀ c ∈ (gap ++ ':' :: after).head?, isNameRest c = false ∧ c ≠ '!' := by
      intro c hc
      cases gap with
      | nil =>
        cases hc
        exact ⟨by decide +kernel, by decide⟩
      | cons b gap =>
        obtain rfl : b = c := Option.some.inj hc
        have hb := hgap b List.mem_cons_self
        refine ⟨(not_name_of_isSpace hb).2, ?_⟩
        rintro rfl
        exact absurd hb (by decide)
    have hdrop : (gap ++ ':' :: after).dropWhile isSpace = ':' :: after := by
      rw [List.dropWhile_append_of_pos hgap, List.dropWhile_cons_of_neg (by decide)]
    have htake : (gap ++ ':' :: after).takeWhile isSpace = gap := by
      rw [List.takeWhile_append_of_pos hgap, List.takeWhile_cons_of_neg (by decide),
        List.append_nil]
    unfold signature?
    rw [hname.leading hstop]
    simp only [List.drop_left, hdrop, htake, hafter, Bool.false_eq_true, if_false]

end ScratchFormat
