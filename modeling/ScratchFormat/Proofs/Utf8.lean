import ScratchFormat.Proofs.Bytewise.Text

/-! Texts and their bytes. The bytes of a text are read as that text and as no other, bytes that are
read as a text are those of that text, and a text is shown as it is. -/

namespace ScratchFormat

namespace Utf8

theorem toNat_tail (k : Nat) : (UInt8.ofNat (0x80 + k % 0x40)).toNat = 0x80 + k % 0x40 :=
  UInt8.toNat_ofNat_of_lt' (by change _ < 256; omega)

theorem decodeFrom?_last {least most value k : Nat} (hleast : least ≤ 0x80 + k % 0x40)
    (hmost : 0x80 + k % 0x40 ≤ most) (bs : List UInt8) :
    decodeFrom? (some ⟨0, least, most, value⟩) (UInt8.ofNat (0x80 + k % 0x40) :: bs) =
      (decodeFrom? none bs).map (Char.ofNat (value * 0x40 + k % 0x40) :: ·) := by
  rw [decodeFrom?]
  simp only [toNat_tail, hleast, hmost, and_self, if_true, Nat.add_sub_cancel_left]

theorem decodeFrom?_tail {later least most value k : Nat} (hleast : least ≤ 0x80 + k % 0x40)
    (hmost : 0x80 + k % 0x40 ≤ most) (bs : List UInt8) :
    decodeFrom? (some ⟨later + 1, least, most, value⟩) (UInt8.ofNat (0x80 + k % 0x40) :: bs) =
      decodeFrom? (some ⟨later, 0x80, 0xbf, value * 0x40 + k % 0x40⟩) bs := by
  rw [decodeFrom?]
  simp only [toNat_tail, hleast, hmost, and_self, if_true, Nat.add_sub_cancel_left]

theorem decodeFrom?_lead {b : Nat} (hlow : 0x80 ≤ b) (hhigh : b < 0x100) {p : Pending}
    (hlead : lead? b = some p) (bs : List UInt8) :
    decodeFrom? none (UInt8.ofNat b :: bs) = decodeFrom? (some p) bs := by
  rw [decodeFrom?]
  have hb : (UInt8.ofNat b).toNat = b := UInt8.toNat_ofNat_of_lt' hhigh
  simp only [hb, Nat.not_lt.mpr hlow, if_false, hlead]

/-- The first of three bytes allows the second. The bounds that it sets rule out what is too long and
what is a surrogate. -/
theorem exists_lead?_of_three {n : Nat} (hlow : 0x800 ≤ n) (hhigh : n < 0x10000)
    (hvalid : n < 0xd800 ∨ 0xdfff < n) :
    ∃ least most, lead? (0xe0 + n / 0x1000) = some ⟨1, least, most, n / 0x1000⟩ ∧
      least ≤ 0x80 + n / 0x40 % 0x40 ∧ 0x80 + n / 0x40 % 0x40 ≤ most := by
  by_cases hzero : n / 0x1000 = 0
  · refine ⟨0xa0, 0xbf, ?_, by omega, by omega⟩
    rw [hzero]
    rfl
  by_cases hlast : n / 0x1000 = 0xd
  · refine ⟨0x80, 0x9f, ?_, by omega, by omega⟩
    rw [hlast]
    rfl
  · refine ⟨0x80, 0xbf, ?_, by omega, by omega⟩
    rw [lead?, if_neg (by omega), if_neg (by omega), if_neg (by omega), if_pos (by omega),
      Nat.add_sub_cancel_left]

/-- The first of four bytes allows the second. The bounds that it sets rule out what is too long and
what is beyond the last character. -/
theorem exists_lead?_of_four {n : Nat} (hlow : 0x10000 ≤ n) (hhigh : n < 0x110000) :
    ∃ least most, lead? (0xf0 + n / 0x40000) = some ⟨2, least, most, n / 0x40000⟩ ∧
      least ≤ 0x80 + n / 0x1000 % 0x40 ∧ 0x80 + n / 0x1000 % 0x40 ≤ most := by
  by_cases hzero : n / 0x40000 = 0
  · refine ⟨0x90, 0xbf, ?_, by omega, by omega⟩
    rw [hzero]
    rfl
  by_cases hlast : n / 0x40000 = 4
  · refine ⟨0x80, 0x8f, ?_, by omega, by omega⟩
    rw [hlast]
    rfl
  · refine ⟨0x80, 0xbf, ?_, by omega, by omega⟩
    rw [lead?, if_neg (by omega), if_neg (by omega), if_neg (by omega), if_neg (by omega),
      if_neg (by omega), if_pos (by omega), Nat.add_sub_cancel_left]

/-- The bytes of a character are read as that character. -/
theorem decodeFrom?_encodeChar (c : Char) (bs : List UInt8) :
    decodeFrom? none (encodeChar c ++ bs) = (decodeFrom? none bs).map (c :: ·) := by
  have hvalid : c.toNat < 0xd800 ∨ 0xdfff < c.toNat ∧ c.toNat < 0x110000 := c.valid
  have hchar : ∀ {n : Nat}, n = c.toNat → Char.ofNat n = c := by
    rintro n rfl
    exact Char.ofNat_toNat c
  simp only [encodeChar]
  split
  · rename_i hn
    rw [List.singleton_append, decodeFrom?]
    have hb : (UInt8.ofNat c.toNat).toNat = c.toNat :=
      UInt8.toNat_ofNat_of_lt' (by change _ < 256; omega)
    simp only [hb, hn, if_true, Char.ofNat_toNat]
  split
  · have hlead : lead? (0xc0 + c.toNat / 0x40) = some ⟨0, 0x80, 0xbf, c.toNat / 0x40⟩ := by
      rw [lead?, if_pos (by omega), Nat.add_sub_cancel_left]
    rw [List.cons_append, List.singleton_append, decodeFrom?_lead (by omega) (by omega) hlead,
      decodeFrom?_last (by omega) (by omega), hchar (by omega)]
  split
  · obtain ⟨least, most, hlead, hleast, hmost⟩ :=
      exists_lead?_of_three (n := c.toNat) (by omega) (by omega) (by omega)
    rw [List.cons_append, List.cons_append, List.singleton_append,
      decodeFrom?_lead (by omega) (by omega) hlead, decodeFrom?_tail hleast hmost,
      decodeFrom?_last (by omega) (by omega), hchar (by omega)]
  · obtain ⟨least, most, hlead, hleast, hmost⟩ :=
      exists_lead?_of_four (n := c.toNat) (by omega) (by omega)
    rw [List.cons_append, List.cons_append, List.cons_append, List.singleton_append,
      decodeFrom?_lead (by omega) (by omega) hlead, decodeFrom?_tail hleast hmost,
      decodeFrom?_tail (by omega) (by omega), decodeFrom?_last (by omega) (by omega),
      hchar (by omega)]

theorem decode?_encode (text : List Char) : decode? (encode text) = some text := by
  induction text with
  | nil => rfl
  | cons c cs ih =>
    rw [decode?] at ih
    rw [decode?, encode_cons, decodeFrom?_encodeChar, ih, Option.map_some]

/-- In the midst of a character there is one more byte, within its bounds; if it is the last one,
the character is read. -/
theorem exists_of_decodeFrom?_last {least most value : Nat} {bs : List UInt8} {text : List Char}
    (h : decodeFrom? (some ⟨0, least, most, value⟩) bs = some text) :
    ∃ b rest text', bs = b :: rest ∧ least ≤ b.toNat ∧ b.toNat ≤ most ∧
      text = Char.ofNat (value * 0x40 + (b.toNat - 0x80)) :: text' ∧ decode? rest = some text' := by
  cases bs with
  | nil => cases h
  | cons b rest =>
    rw [decodeFrom?] at h
    simp only at h
    split at h
    · rename_i hbounds
      obtain ⟨text', htext, rfl⟩ := Option.map_eq_some_iff.mp h
      exact ⟨b, rest, text', rfl, hbounds.1, hbounds.2, rfl, htext⟩
    · cases h

/-- A character that is begun goes on with a byte in the range that its first byte allows. -/
theorem exists_of_decodeFrom?_later {later least most value : Nat} {bs : List UInt8}
    {text : List Char} (h : decodeFrom? (some ⟨later + 1, least, most, value⟩) bs = some text) :
    ∃ b rest, bs = b :: rest ∧ least ≤ b.toNat ∧ b.toNat ≤ most ∧
      decodeFrom? (some ⟨later, 0x80, 0xbf, value * 0x40 + (b.toNat - 0x80)⟩) rest = some text := by
  cases bs with
  | nil => cases h
  | cons b rest =>
    rw [decodeFrom?] at h
    simp only at h
    split at h
    · rename_i hbounds
      exact ⟨b, rest, rfl, hbounds.1, hbounds.2, h⟩
    · cases h

/-- What a first byte announces: characters of two, three or four bytes, in bounds that leave out
what is too long, the surrogates, and what is beyond the last character. -/
theorem lead?_eq_some {n : Nat} {p : Pending} (h : lead? n = some p) :
    (0xc2 ≤ n ∧ n ≤ 0xdf ∧ p = ⟨0, 0x80, 0xbf, n - 0xc0⟩) ∨
      (∃ least most, 0xe0 ≤ n ∧ n ≤ 0xef ∧ p = ⟨1, least, most, n - 0xe0⟩ ∧
        0x80 ≤ least ∧ most ≤ 0xbf ∧ (n = 0xe0 → 0xa0 ≤ least) ∧ (n = 0xed → most ≤ 0x9f)) ∨
      ∃ least most, 0xf0 ≤ n ∧ n ≤ 0xf4 ∧ p = ⟨2, least, most, n - 0xf0⟩ ∧
        0x80 ≤ least ∧ most ≤ 0xbf ∧ (n = 0xf0 → 0x90 ≤ least) ∧ (n = 0xf4 → most ≤ 0x8f) := by
  unfold lead? at h
  split at h
  · obtain rfl := Option.some.inj h
    exact .inl ⟨by omega, by omega, rfl⟩
  split at h
  · rename_i hn
    obtain rfl := Option.some.inj h
    subst hn
    exact .inr (.inl ⟨0xa0, 0xbf, by omega, by omega, rfl, by omega, by omega, by omega, by omega⟩)
  split at h
  · obtain rfl := Option.some.inj h
    exact .inr (.inl ⟨0x80, 0x9f, by omega, by omega, rfl, by omega, by omega, by omega, by omega⟩)
  split at h
  · obtain rfl := Option.some.inj h
    exact .inr (.inl ⟨0x80, 0xbf, by omega, by omega, rfl, by omega, by omega, by omega, by omega⟩)
  split at h
  · rename_i hn
    obtain rfl := Option.some.inj h
    subst hn
    exact .inr (.inr ⟨0x90, 0xbf, by omega, by omega, rfl, by omega, by omega, by omega, by omega⟩)
  split at h
  · obtain rfl := Option.some.inj h
    exact .inr (.inr ⟨0x80, 0xbf, by omega, by omega, rfl, by omega, by omega, by omega, by omega⟩)
  split at h
  · obtain rfl := Option.some.inj h
    exact .inr (.inr ⟨0x80, 0x8f, by omega, by omega, rfl, by omega, by omega, by omega, by omega⟩)
  · cases h

theorem toNat_ofNat_of_valid {n : Nat} (h : n < 0xd800 ∨ 0xdfff < n ∧ n < 0x110000) :
    (Char.ofNat n).toNat = n := by
  rw [Char.ofNat, dif_pos h]
  rfl

/-- Bytes that are read as a text start with the bytes of a character. -/
theorem exists_char_of_decode? {b : UInt8} {bs : List UInt8} {text : List Char}
    (h : decode? (b :: bs) = some text) :
    ∃ c rest text', b :: bs = encodeChar c ++ rest ∧ text = c :: text' ∧
      decode? rest = some text' := by
  have hb : b.toNat < 256 := b.toNat_lt
  rw [decode?, decodeFrom?] at h
  split at h
  · rename_i hn
    obtain ⟨text', htext, rfl⟩ := Option.map_eq_some_iff.mp h
    refine ⟨_, bs, text', ?_, rfl, htext⟩
    rw [encodeChar, toNat_ofNat_of_valid (.inl (by omega)), if_pos hn, UInt8.ofNat_toNat]
    rfl
  split at h
  · cases h
  rename_i p hlead
  rcases lead?_eq_some hlead with ⟨hlow, hhigh, rfl⟩ |
    ⟨least, most, hlow, hhigh, rfl, hleast, hmost, hshort, hsurrogate⟩ |
    ⟨least, most, hlow, hhigh, rfl, hleast, hmost, hshort, hend⟩
  · obtain ⟨b₂, rest, text', rfl, h₂, h₂', rfl, htext⟩ := exists_of_decodeFrom?_last h
    refine ⟨_, rest, text', ?_, rfl, htext⟩
    generalize hn : (b.toNat - 0xc0) * 0x40 + (b₂.toNat - 0x80) = n
    have hfirst : 0xc0 + n / 0x40 = b.toNat := by omega
    have hsecond : 0x80 + n % 0x40 = b₂.toNat := by omega
    rw [encodeChar, toNat_ofNat_of_valid (by omega), if_neg (by omega), if_pos (by omega)]
    simp only [hfirst, hsecond, UInt8.ofNat_toNat, List.cons_append, List.nil_append]
  · obtain ⟨b₂, rest₂, rfl, h₂, h₂', h⟩ := exists_of_decodeFrom?_later h
    obtain ⟨b₃, rest, text', rfl, h₃, h₃', rfl, htext⟩ := exists_of_decodeFrom?_last h
    refine ⟨_, rest, text', ?_, rfl, htext⟩
    generalize hn : ((b.toNat - 0xe0) * 0x40 + (b₂.toNat - 0x80)) * 0x40 + (b₃.toNat - 0x80) = n
    have hfirst : 0xe0 + n / 0x1000 = b.toNat := by omega
    have hsecond : 0x80 + n / 0x40 % 0x40 = b₂.toNat := by omega
    have hthird : 0x80 + n % 0x40 = b₃.toNat := by omega
    rw [encodeChar, toNat_ofNat_of_valid (by omega), if_neg (by omega), if_neg (by omega),
      if_pos (by omega)]
    simp only [hfirst, hsecond, hthird, UInt8.ofNat_toNat, List.cons_append, List.nil_append]
  · obtain ⟨b₂, rest₂, rfl, h₂, h₂', h⟩ := exists_of_decodeFrom?_later h
    obtain ⟨b₃, rest₃, rfl, h₃, h₃', h⟩ := exists_of_decodeFrom?_later h
    obtain ⟨b₄, rest, text', rfl, h₄, h₄', rfl, htext⟩ := exists_of_decodeFrom?_last h
    refine ⟨_, rest, text', ?_, rfl, htext⟩
    generalize hn :
      (((b.toNat - 0xf0) * 0x40 + (b₂.toNat - 0x80)) * 0x40 + (b₃.toNat - 0x80)) * 0x40 +
      (b₄.toNat - 0x80) = n
    have hfirst : 0xf0 + n / 0x40000 = b.toNat := by omega
    have hsecond : 0x80 + n / 0x1000 % 0x40 = b₂.toNat := by omega
    have hthird : 0x80 + n / 0x40 % 0x40 = b₃.toNat := by omega
    have hfourth : 0x80 + n % 0x40 = b₄.toNat := by omega
    rw [encodeChar, toNat_ofNat_of_valid (by omega), if_neg (by omega), if_neg (by omega),
      if_neg (by omega)]
    simp only [hfirst, hsecond, hthird, hfourth, UInt8.ofNat_toNat, List.cons_append,
      List.nil_append]

/-- Bytes are read as a text only if they are the bytes of that text. -/
theorem decode?_eq_some_iff {bytes : List UInt8} {text : List Char} :
    decode? bytes = some text ↔ bytes = encode text := by
  constructor
  · intro h
    induction text generalizing bytes with
    | nil =>
      cases bytes with
      | nil => rfl
      | cons b bs =>
        obtain ⟨c, rest, text', -, htext, -⟩ := exists_char_of_decode? h
        cases htext
    | cons c text ih =>
      cases bytes with
      | nil => cases h
      | cons b bs =>
        obtain ⟨c', rest, text', hbytes, htext, hrest⟩ := exists_char_of_decode? h
        cases htext
        rw [hbytes, ih hrest, encode_cons]
  · rintro rfl
    exact decode?_encode text

theorem encode_injective {text text' : List Char} (h : encode text = encode text') : text = text' :=
  Option.some.inj ((decode?_encode text).symm.trans (decode?_eq_some_iff.mpr h))

/-- Where bytes are read as a text, that text is shown. -/
theorem lossyFrom_of_decodeFrom? {pending : Option Pending} {bytes : List UInt8} {text : List Char}
    (h : decodeFrom? pending bytes = some text) : lossyFrom pending bytes = text := by
  induction bytes generalizing pending text with
  | nil =>
    rw [decodeFrom?] at h
    rw [lossyFrom]
    split at h
    · rename_i hnone
      rw [if_pos hnone, Option.some.inj h]
    · cases h
  | cons b bs ih =>
    rw [decodeFrom?.eq_def] at h
    rw [lossyFrom.eq_def]
    cases pending with
    | none =>
      simp only [lossyStart] at h ⊢
      split at h
      · rename_i hn
        obtain ⟨text', htext, rfl⟩ := Option.map_eq_some_iff.mp h
        rw [if_pos hn, ih htext]
      · rename_i hn
        rw [if_neg hn]
        split at h
        · cases h
        · rename_i p hlead
          simp only [ih h]
    | some p =>
      simp only at h ⊢
      split at h
      · rename_i hbounds
        rw [if_pos hbounds]
        split at h
        · rename_i hlast
          obtain ⟨text', htext, rfl⟩ := Option.map_eq_some_iff.mp h
          simp only [ih htext]
        · rename_i later hlater
          simp only [ih h]
      · cases h

theorem lossy_encode (text : List Char) : lossy (encode text) = text :=
  lossyFrom_of_decodeFrom? (decode?_encode text)

/-- The byte of an ASCII character stands among the bytes of a text only for that character. -/
theorem mem_encode_iff {c : Char} (h : isAscii c = true) {text : List Char} :
    UInt8.ofNat c.toNat ∈ encode text ↔ c ∈ text := by
  rw [encode, List.mem_flatMap]
  constructor
  · rintro ⟨c', hmem, hbyte⟩
    cases hascii : isAscii c' with
    | false =>
      have hlow := le_of_mem_encodeChar hascii hbyte
      rw [toNat_ascii h] at hlow
      simp only [isAscii, decide_eq_true_eq] at h
      omega
    | true =>
      rw [encodeChar_ascii hascii, List.mem_singleton, ← UInt8.toNat_inj, toNat_ascii h,
        toNat_ascii hascii, Char.toNat_inj] at hbyte
      rwa [hbyte]
  · intro hmem
    refine ⟨c, hmem, ?_⟩
    rw [encodeChar_ascii h]
    exact List.mem_singleton_self _

end Utf8

end ScratchFormat
