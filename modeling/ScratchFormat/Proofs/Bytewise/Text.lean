import ScratchFormat.Proofs.Scan
import ScratchFormat.Proofs.Slices
import ScratchFormat.Style.Bounded
import ScratchFormat.Text.Utf8

/-! Texts as the machine holds them: bytes, places that are byte offsets, and counts in words. An
operation that has no result there stands for a crash. -/

namespace ScratchFormat

namespace Utf8

/-- A character has as many bytes as its size says. -/
theorem length_encodeChar (c : Char) : (encodeChar c).length = c.utf8Size := by
  have hv : c.val.toNat = c.toNat := rfl
  simp only [encodeChar, Char.utf8Size, UInt32.le_iff_toNat_le, hv]
  split
  · rw [if_pos (by simp; omega)]
    rfl
  split
  · rw [if_neg (by simp; omega), if_pos (by simp; omega)]
    rfl
  split
  · rw [if_neg (by simp; omega), if_neg (by simp; omega), if_pos (by simp; omega)]
    rfl
  · rw [if_neg (by simp; omega), if_neg (by simp; omega), if_neg (by simp; omega)]
    rfl

theorem encodeChar_ascii {c : Char} (h : isAscii c = true) :
    encodeChar c = [UInt8.ofNat c.toNat] := by
  have hn : c.toNat < 0x80 := by simpa [isAscii] using h
  rw [encodeChar, if_pos hn]

theorem utf8Size_ascii {c : Char} (h : isAscii c = true) : c.utf8Size = 1 := by
  rw [← length_encodeChar, encodeChar_ascii h]
  rfl

theorem toNat_ascii {c : Char} (h : isAscii c = true) : (UInt8.ofNat c.toNat).toNat = c.toNat := by
  have hn : c.toNat < 0x80 := by simpa [isAscii] using h
  exact UInt8.toNat_ofNat_of_lt' (Nat.lt_of_lt_of_le hn (by decide))

theorem ascii_bne {c : Char} (h : isAscii c = true) {b : UInt8} (hb : 0x80 ≤ b.toNat) :
    (UInt8.ofNat c.toNat == b) = false := by
  have hn : c.toNat < 0x80 := by simpa [isAscii] using h
  rw [beq_eq_false_iff_ne, Ne, ← UInt8.toNat_inj, toNat_ascii h]
  omega

/-- The bytes of a character beyond ASCII are all beyond ASCII. -/
theorem le_of_mem_encodeChar {c : Char} (h : isAscii c = false) {b : UInt8}
    (hb : b ∈ encodeChar c) : 0x80 ≤ b.toNat := by
  have hn : 0x80 ≤ c.toNat := by simpa [isAscii] using h
  have hc : c.toNat < 0x110000 := by
    have hvalid : c.toNat.isValidChar := c.valid
    unfold Nat.isValidChar at hvalid
    omega
  have hlow : ∀ k, 0x80 ≤ k → k < 0x100 → 0x80 ≤ (UInt8.ofNat k).toNat := by
    intro k hk hk'
    rw [UInt8.toNat_ofNat_of_lt' hk']
    exact hk
  rw [encodeChar, if_neg (by omega)] at hb
  split at hb
  · simp only [List.mem_cons, List.not_mem_nil, or_false] at hb
    rcases hb with rfl | rfl <;> apply hlow <;> omega
  split at hb
  · simp only [List.mem_cons, List.not_mem_nil, or_false] at hb
    rcases hb with rfl | rfl | rfl <;> apply hlow <;> omega
  · simp only [List.mem_cons, List.not_mem_nil, or_false] at hb
    rcases hb with rfl | rfl | rfl | rfl <;> apply hlow <;> omega

@[simp] theorem encode_nil : encode [] = [] := rfl

@[simp] theorem encode_cons (c : Char) (cs : List Char) :
    encode (c :: cs) = encodeChar c ++ encode cs := rfl

@[simp] theorem encode_append (as bs : List Char) : encode (as ++ bs) = encode as ++ encode bs :=
  List.flatMap_append

@[simp] theorem length_encode (cs : List Char) : (encode cs).length = byteLength cs := by
  induction cs with
  | nil => rfl
  | cons c cs ih => rw [encode_cons, List.length_append, length_encodeChar, ih, byteLength_cons]

end Utf8

namespace Bytewise

def add? (a b : Nat) : Option Nat := fits? (a + b)

def sub? (a b : Nat) : Option Nat := if b ≤ a then some (a - b) else none

theorem add?_eq {a b : Nat} (h : a + b < wordSize) : add? a b = some (a + b) := if_pos h

theorem sub?_eq {a b : Nat} (h : b ≤ a) : sub? a b = some (a - b) := if_pos h

def sliceFrom? (cs : List Char) (start : Nat) : Option (List Char) :=
  slice? cs start (byteLength cs)

theorem sliceFrom?_append (as bs : List Char) :
    sliceFrom? (as ++ bs) (byteLength as) = some bs := by
  have h := slice?_append as bs []
  rwa [List.append_nil, ← byteLength_append] at h

theorem slice?_front (as bs : List Char) : slice? (as ++ bs) 0 (byteLength as) = some as := by
  have h := slice?_append [] as bs
  rwa [List.nil_append, byteLength_nil, Nat.zero_add] at h

theorem byteLength_takeWhile_add (p : Char → Bool) (cs : List Char) :
    byteLength (cs.takeWhile p) + byteLength (cs.dropWhile p) = byteLength cs := by
  rw [← byteLength_append, List.takeWhile_append_dropWhile]

theorem slice?_takeWhile (p : Char → Bool) (cs : List Char) :
    slice? cs 0 (byteLength (cs.takeWhile p)) = some (cs.takeWhile p) := by
  have h := slice?_front (cs.takeWhile p) (cs.dropWhile p)
  rwa [List.takeWhile_append_dropWhile] at h

theorem sliceFrom?_takeWhile (p : Char → Bool) (cs : List Char) :
    sliceFrom? cs (byteLength (cs.takeWhile p)) = some (cs.dropWhile p) := by
  have h := sliceFrom?_append (cs.takeWhile p) (cs.dropWhile p)
  rwa [List.takeWhile_append_dropWhile] at h

theorem byteLength_ascii {q : Char} (hq : isAscii q = true) (as bs : List Char) :
    byteLength (as ++ q :: bs) = byteLength as + 1 + byteLength bs := by
  rw [byteLength_append, byteLength_cons, Utf8.utf8Size_ascii hq, Nat.add_assoc]

theorem sliceFrom?_ascii {q : Char} (hq : isAscii q = true) (as bs : List Char) :
    sliceFrom? (as ++ q :: bs) (byteLength as + 1) = some bs := by
  have h := sliceFrom?_append (as ++ [q]) bs
  rwa [byteLength_ascii hq, byteLength_nil, Nat.add_zero, List.append_assoc, List.singleton_append]
    at h

def ahead (cs : List Char) (place : Nat) (front : List Char) : Bool :=
  (Utf8.encode front).isPrefixOf ((Utf8.encode cs).drop place)

/-- ASCII characters are told from all others by their bytes. -/
theorem isPrefixOf_encode {front : List Char} (h : ∀ c ∈ front, isAscii c = true) (cs : List Char) :
    (Utf8.encode front).isPrefixOf (Utf8.encode cs) = front.isPrefixOf cs := by
  induction front generalizing cs with
  | nil => rfl
  | cons c front ih =>
    have hc := h c List.mem_cons_self
    have hfront := ih fun d hd => h d (List.mem_cons_of_mem c hd)
    rw [Utf8.encode_cons, Utf8.encodeChar_ascii hc, List.singleton_append]
    cases cs with
    | nil => rfl
    | cons d cs =>
      cases hd : isAscii d with
      | true =>
        have hsame : (UInt8.ofNat c.toNat == UInt8.ofNat d.toNat) = (c == d) := by
          rw [Bool.eq_iff_iff, beq_iff_eq, beq_iff_eq, ← UInt8.toNat_inj, Utf8.toNat_ascii hc,
            Utf8.toNat_ascii hd, Char.toNat_inj]
        rw [Utf8.encode_cons, Utf8.encodeChar_ascii hd, List.singleton_append, List.isPrefixOf,
          List.isPrefixOf, hsame, hfront]
      | false =>
        -- the first byte of `d` is too large
        obtain ⟨b, bs, hbs⟩ : ∃ b bs, Utf8.encodeChar d = b :: bs := by
          refine List.exists_cons_of_ne_nil fun hnil => ?_
          have hlen := Utf8.length_encodeChar d
          rw [hnil] at hlen
          have := d.utf8Size_pos
          simp at hlen
          omega
        have hb : 0x80 ≤ b.toNat :=
          Utf8.le_of_mem_encodeChar hd (by rw [hbs]; exact List.mem_cons_self)
        have hne' : (c == d) = false := by
          rw [beq_eq_false_iff_ne]
          rintro rfl
          rw [hc] at hd
          cases hd
        rw [Utf8.encode_cons, hbs, List.cons_append, List.isPrefixOf, List.isPrefixOf,
          Utf8.ascii_bne hc hb, hne']
        rfl

/-- Between two characters. -/
theorem ahead_append {front : List Char} (h : ∀ c ∈ front, isAscii c = true) (as bs : List Char) :
    ahead (as ++ bs) (byteLength as) front = front.isPrefixOf bs := by
  rw [ahead, Utf8.encode_append, ← Utf8.length_encode, List.drop_left, isPrefixOf_encode h]

/-- In the midst of a character, where no ASCII character begins. -/
theorem ahead_inside {c d : Char} {front : List Char} (hc : isAscii c = true)
    (as bs : List Char) {n : Nat} (hpos : 0 < n) (hn : n < d.utf8Size) :
    ahead (as ++ d :: bs) (byteLength as + n) (c :: front) = false := by
  have hd : isAscii d = false := by
    refine Bool.eq_false_iff.mpr fun hd => ?_
    rw [Utf8.utf8Size_ascii hd] at hn
    omega
  have hdrop : (Utf8.encode (as ++ d :: bs)).drop (byteLength as + n) =
      (Utf8.encodeChar d).drop n ++ Utf8.encode bs := by
    rw [Utf8.encode_append, ← Utf8.length_encode, List.drop_length_add_append, Utf8.encode_cons,
      List.drop_append_of_le_length (by rw [Utf8.length_encodeChar]; omega)]
  obtain ⟨b, later, hb⟩ : ∃ b later, (Utf8.encodeChar d).drop n = b :: later := by
    refine List.exists_cons_of_ne_nil fun hnil => ?_
    rw [List.drop_eq_nil_iff, Utf8.length_encodeChar] at hnil
    omega
  have hbig : 0x80 ≤ b.toNat :=
    Utf8.le_of_mem_encodeChar hd (List.mem_of_mem_drop (by rw [hb]; exact List.mem_cons_self))
  rw [ahead, hdrop, hb, Utf8.encode_cons, Utf8.encodeChar_ascii hc, List.singleton_append,
    List.cons_append, List.isPrefixOf, Utf8.ascii_bne hc hbig]
  rfl

/-- A byte of an ASCII character stands at a place where that character does. -/
theorem getElem?_encode_iff {q : Char} (hq : isAscii q = true) (cs : List Char) (place : Nat) :
    (Utf8.encode cs)[place]? = some (UInt8.ofNat q.toNat) ↔ ahead cs place [q] = true := by
  have hfirst : ∀ bs : List UInt8, bs.head? = some (UInt8.ofNat q.toNat) ↔
      [UInt8.ofNat q.toNat].isPrefixOf bs = true := by
    intro bs
    cases bs with
    | nil => simp
    | cons b bs =>
      rw [List.head?_cons, Option.some.injEq, List.isPrefixOf, List.isPrefixOf,
        Bool.and_true, beq_iff_eq]
      exact eq_comm
  rw [ahead, Utf8.encode_cons, Utf8.encodeChar_ascii hq, Utf8.encode_nil, List.append_nil, ← hfirst,
    List.head?_drop]

def isNameByte (b : UInt8) : Bool := b.toNat < 0x80 && isNameTail (Char.ofNat b.toNat)

def nameBefore? (cs : List Char) (place : Nat) : Option Bool :=
  if place = 0 then some false else (Utf8.encode cs)[place - 1]?.map isNameByte

theorem isNameTail_of_not_isAscii {c : Char} (h : isAscii c = false) : isNameTail c = false := by
  have hn : 0x80 ≤ c.toNat := by simpa [isAscii] using h
  have hne : ∀ d : Char, d.toNat < 0x80 → c ≠ d := by
    rintro d hd rfl
    omega
  exact isNameTail_eq_false (.inr (by omega)) (hne '\'' (by decide)) (hne '!' (by decide))

theorem isNameByte_last {c : Char} {b : UInt8} (h : (Utf8.encodeChar c).getLast? = some b) :
    isNameByte b = isNameTail c := by
  cases hc : isAscii c with
  | true =>
    have hn : c.toNat < 0x80 := by simpa [isAscii] using hc
    rw [Utf8.encodeChar_ascii hc] at h
    cases h
    simp [isNameByte, Utf8.toNat_ascii hc, hn]
  | false =>
    have hb := Utf8.le_of_mem_encodeChar hc (List.mem_of_getLast? h)
    rw [isNameTail_of_not_isAscii hc, isNameByte, decide_eq_false (by omega), Bool.false_and]

/-- Whether a name ends at a place is told from the last byte before it. -/
theorem nameBefore?_append (as bs : List Char) :
    nameBefore? (as ++ bs) (byteLength as) = some (as.getLast?.any isNameTail) := by
  rcases List.eq_nil_or_concat as with rfl | ⟨as, c, rfl⟩
  · rfl
  · have hpos := c.utf8Size_pos
    have hlen := Utf8.length_encodeChar c
    obtain ⟨b, hb⟩ :=
      exists_getLast? (List.length_pos_iff.mp (show 0 < (Utf8.encodeChar c).length by omega))
    rw [List.concat_eq_append, List.getLast?_append, nameBefore?, byteLength_append,
      byteLength_cons, byteLength_nil, if_neg (by omega)]
    have hbyte :
        (Utf8.encode (as ++ [c] ++ bs))[byteLength as + (c.utf8Size + 0) - 1]? = some b := by
      rw [List.append_assoc, Utf8.encode_append,
        List.getElem?_append_right (by rw [Utf8.length_encode]; omega), Utf8.length_encode,
        List.singleton_append, Utf8.encode_cons, List.getElem?_append_left
        (by rw [Utf8.length_encodeChar]; omega), ← hb, List.getLast?_eq_getElem?,
        Utf8.length_encodeChar]
      congr 1
      omega
    rw [hbyte, Option.map_some, isNameByte_last hb]
    rfl

end Bytewise

end ScratchFormat
