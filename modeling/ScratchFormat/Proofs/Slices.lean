import ScratchFormat.Text.Slice

/-! Cuts at byte offsets: a text that is put together from parts is cut again where the parts meet.
The offsets at which a text can be cut are those of its characters. -/

namespace ScratchFormat

@[simp] theorem byteLength_nil : byteLength [] = 0 := rfl

@[simp] theorem byteLength_cons (c : Char) (cs : List Char) :
    byteLength (c :: cs) = c.utf8Size + byteLength cs := rfl

@[simp] theorem byteLength_append (as bs : List Char) :
    byteLength (as ++ bs) = byteLength as + byteLength bs := by
  induction as with
  | nil => simp
  | cons a as ih => rw [List.cons_append, byteLength_cons, ih, byteLength_cons, Nat.add_assoc]

theorem eq_nil_of_byteLength_eq_zero {cs : List Char} (h : byteLength cs = 0) : cs = [] := by
  cases cs with
  | nil => rfl
  | cons c cs =>
    have hpos := c.utf8Size_pos
    rw [byteLength_cons] at h
    omega

theorem length_le_byteLength (cs : List Char) : cs.length ≤ byteLength cs := by
  induction cs with
  | nil => simp
  | cons c cs ih =>
    have hpos := c.utf8Size_pos
    rw [List.length_cons, byteLength_cons]
    omega

theorem dropBytes?_append (as bs : List Char) :
    dropBytes? (byteLength as) (as ++ bs) = some bs := by
  induction as with
  | nil => simp [dropBytes?]
  | cons a as ih =>
    obtain ⟨n, hn⟩ := Nat.exists_eq_add_of_lt (Nat.add_pos_left a.utf8Size_pos (byteLength as))
    rw [byteLength_cons, List.cons_append, hn, Nat.zero_add, dropBytes?, ← Nat.zero_add (n + 1),
      ← Nat.add_assoc, ← hn, if_pos (Nat.le_add_right _ _), Nat.add_sub_cancel_left, ih]

theorem takeBytes?_append (as bs : List Char) :
    takeBytes? (byteLength as) (as ++ bs) = some as := by
  induction as with
  | nil => simp [takeBytes?]
  | cons a as ih =>
    obtain ⟨n, hn⟩ := Nat.exists_eq_add_of_lt (Nat.add_pos_left a.utf8Size_pos (byteLength as))
    rw [byteLength_cons, List.cons_append, hn, Nat.zero_add, takeBytes?, ← Nat.zero_add (n + 1),
      ← Nat.add_assoc, ← hn, if_pos (Nat.le_add_right _ _), Nat.add_sub_cancel_left, ih,
      Option.map_some]

/-- The middle of three parts is the text between the two offsets where they meet. -/
theorem slice?_append (as bs cs : List Char) :
    slice? (as ++ (bs ++ cs)) (byteLength as) (byteLength as + byteLength bs) = some bs := by
  rw [slice?, if_pos (Nat.le_add_right _ _), dropBytes?_append, Option.bind_some,
    Nat.add_sub_cancel_left, takeBytes?_append]

/-- Of two beginnings of a text the one with fewer bytes is a beginning of the other. -/
theorem prefix_of_byteLength_le {as bs cs : List Char} (ha : as <+: cs) (hb : bs <+: cs)
    (hle : byteLength as ≤ byteLength bs) : as <+: bs := by
  rcases List.prefix_or_prefix_of_prefix ha hb with h | h
  · exact h
  · obtain ⟨rest, rfl⟩ := h
    rw [byteLength_append] at hle
    obtain rfl := eq_nil_of_byteLength_eq_zero (show byteLength rest = 0 by omega)
    simp

/-- A character of the text starts at the byte `n`, or the text ends there. -/
def AtChar (text : List Char) (n : Nat) : Prop :=
  ∃ front back, front ++ back = text ∧ byteLength front = n

theorem AtChar.le {text : List Char} {n : Nat} (h : AtChar text n) : n ≤ byteLength text := by
  obtain ⟨front, back, rfl, rfl⟩ := h
  rw [byteLength_append]
  exact Nat.le_add_right _ _

/-- A text can be cut at the places where its characters start. -/
theorem isSome_dropBytes?_iff (n : Nat) (text : List Char) :
    (dropBytes? n text).isSome = true ↔ AtChar text n := by
  constructor
  · intro h
    induction n, text using dropBytes?.induct with
    | case1 text => exact ⟨[], text, rfl, rfl⟩
    | case2 n => exact absurd h (by simp [dropBytes?])
    | case3 n c cs hle ih =>
      rw [dropBytes?, if_pos hle] at h
      obtain ⟨front, back, rfl, hfront⟩ := ih h
      refine ⟨c :: front, back, rfl, ?_⟩
      rw [byteLength_cons, hfront, Nat.add_sub_cancel' hle]
    | case4 n c cs hlt => exact absurd h (by simp [dropBytes?, hlt])
  · rintro ⟨front, back, rfl, rfl⟩
    rw [dropBytes?_append]
    rfl

instance (text : List Char) (n : Nat) : Decidable (AtChar text n) :=
  decidable_of_iff _ (isSome_dropBytes?_iff n text)

theorem atChar_zero (text : List Char) : AtChar text 0 := ⟨[], text, rfl, rfl⟩

/-- The places in a text stay places behind another text. -/
theorem atChar_append_add_iff (as bs : List Char) (n : Nat) :
    AtChar (as ++ bs) (byteLength as + n) ↔ AtChar bs n := by
  constructor
  · rintro ⟨front, back, heq, hfront⟩
    have has : as <+: front := by
      apply prefix_of_byteLength_le (List.prefix_append as bs) ⟨back, heq⟩
      omega
    obtain ⟨more, rfl⟩ := has
    rw [List.append_assoc, List.append_cancel_left_eq] at heq
    rw [byteLength_append, Nat.add_left_cancel_iff] at hfront
    exact ⟨more, back, heq, hfront⟩
  · rintro ⟨front, back, rfl, rfl⟩
    exact ⟨as ++ front, back, List.append_assoc as front back, byteLength_append as front⟩

theorem atChar_append_iff {as : List Char} {n : Nat} (h : n ≤ byteLength as) (bs : List Char) :
    AtChar (as ++ bs) n ↔ AtChar as n := by
  constructor
  · rintro ⟨front, back, heq, rfl⟩
    have hfront : front <+: as := prefix_of_byteLength_le ⟨back, heq⟩ (List.prefix_append as bs) h
    obtain ⟨more, hmore⟩ := hfront
    exact ⟨front, more, hmore, rfl⟩
  · rintro ⟨front, back, rfl, rfl⟩
    exact ⟨front, back ++ bs, (List.append_assoc front back bs).symm, rfl⟩

/-- Every byte starts a character if all characters have one byte. -/
theorem atChar_of_oneByte {text : List Char} (h : ∀ c ∈ text, c.utf8Size = 1) {n : Nat}
    (hn : n ≤ byteLength text) : AtChar text n := by
  induction text generalizing n with
  | nil =>
    have hzero : n = 0 := Nat.le_zero.mp hn
    subst hzero
    exact atChar_zero []
  | cons c cs ih =>
    have hc := h c List.mem_cons_self
    cases n with
    | zero => exact atChar_zero (c :: cs)
    | succ n =>
      rw [byteLength_cons, hc, Nat.add_comm 1] at hn
      have hcs : ∀ d ∈ cs, d.utf8Size = 1 := fun d hd => h d (List.mem_cons_of_mem c hd)
      obtain ⟨front, back, rfl, hfront⟩ := ih hcs (Nat.le_of_succ_le_succ hn)
      refine ⟨c :: front, back, rfl, ?_⟩
      rw [byteLength_cons, hc, hfront, Nat.add_comm]

end ScratchFormat
