import ScratchFormat.Proofs.Bytewise.Text
import ScratchFormat.Proofs.Edits
import Mathlib.Data.List.Chain

/-! Where the bytes of a text land when edits are applied to it. What is kept lands where it
stands in the new text, and what is replaced keeps its distance from the start of the
replacement, as far as that goes. The map of a cursor counts the same places in words of 64
bits, with a running shift. -/

namespace ScratchFormat

/-- The bytes of a text from one place up to another. -/
def bytesBetween (text : List Char) (start stop : Nat) : List UInt8 :=
  ((Utf8.encode text).drop start).take (stop - start)

/-- Bytes of a text are not changed by what follows it. -/
theorem bytesBetween_append_left {as : List Char} {m n : Nat} (h : m ≤ n) (hn : n ≤ byteLength as)
    (bs : List Char) : bytesBetween (as ++ bs) m n = bytesBetween as m n := by
  have hstart : m ≤ (Utf8.encode as).length := by
    rw [Utf8.length_encode]
    exact Nat.le_trans h hn
  have hstop : n - m ≤ ((Utf8.encode as).drop m).length := by
    rw [List.length_drop, Utf8.length_encode]
    omega
  rw [bytesBetween, Utf8.encode_append, List.drop_append_of_le_length hstart,
    List.take_append_of_le_length hstop]
  rfl

theorem bytesBetween_append_right (as bs : List Char) (m n : Nat) :
    bytesBetween (as ++ bs) (byteLength as + m) (byteLength as + n) = bytesBetween bs m n := by
  rw [bytesBetween, Utf8.encode_append, Nat.add_sub_add_left, ← Utf8.length_encode,
    List.drop_length_add_append]
  rfl

namespace Edit

section Shift

variable {offset start dest : Nat} {e : Edit} {es : List Edit}

theorem signed_eq {n : Nat} (h : n < wordSize / 2) : signed n = n := by
  rw [wordSize] at h
  rw [signed, wordSize, Int.bmod_def]
  omega

theorem fitsSigned?_sub {a b : Nat} (ha : a < wordSize / 2) (hb : b < wordSize / 2) :
    fitsSigned? ((a : Int) - b) = some ((a : Int) - b) := by
  rw [fitsSigned?, if_pos]
  omega

theorem shifted_eq (hle : start ≤ offset) (hroom : dest + (offset - start) < wordSize / 2) :
    shifted offset ((dest : Int) - start) = dest + (offset - start) := by
  rw [shifted]
  rw [wordSize] at *
  omega

theorem mapFrom?_before {shift : Int} (h : offset < e.start) :
    mapFrom? offset shift (e :: es) = some (shifted offset shift) := by
  rw [mapFrom?, if_pos h]

theorem mapFrom?_inside {shift : Int} (hstart : e.start ≤ offset) (hstop : offset < e.stop) :
    mapFrom? offset shift (e :: es) =
      fits? (shifted e.start shift + min (offset - e.start) (byteLength e.newText)) := by
  rw [mapFrom?, if_neg (Nat.not_lt.mpr hstart), if_pos hstop]

/-- An offset behind an edit is moved on by as much as the replacement is longer. -/
theorem mapFrom?_after (hstart : start ≤ e.start) (hspan : e.start ≤ e.stop)
    (hstop : e.stop ≤ offset) (hold : e.stop < wordSize / 2)
    (hnew : dest + (e.start - start) + byteLength e.newText < wordSize / 2) :
    mapFrom? offset ((dest : Int) - start) (e :: es) =
      mapFrom? offset (((dest + (e.start - start) + byteLength e.newText : Nat) : Int) - e.stop)
        es := by
  have hgrowth : fitsSigned? (signed (byteLength e.newText) - signed (e.stop - e.start)) =
      some ((byteLength e.newText : Int) - (e.stop - e.start : Nat)) := by
    rw [signed_eq (by omega), signed_eq (by omega), fitsSigned?_sub (by omega) (by omega)]
  have hshift : (dest : Int) - start + ((byteLength e.newText : Int) - (e.stop - e.start : Nat)) =
      ((dest + (e.start - start) + byteLength e.newText : Nat) : Int) - e.stop := by omega
  rw [mapFrom?, if_neg (by omega), if_neg (by omega), if_neg (by omega), hgrowth]
  simp only [Option.bind_eq_bind, Option.bind_some]
  rw [hshift, fitsSigned?_sub hnew hold, Option.bind_some]

end Shift

/-- How far into the new text the byte `n` of a text lands, if the text starts at the byte `start`
of a larger one and the edits are counted from the start of that. -/
def landing (start : Nat) : List Edit → Nat → Nat
  | [], n => n
  | e :: es, n =>
    if start + n < e.start then n
    else if start + n < e.stop then e.start - start +
      min (start + n - e.start) (byteLength e.newText)
    else e.start - start + byteLength e.newText + landing e.stop es (start + n - e.stop)

section Landing

variable {start n : Nat} {e : Edit} {es : List Edit}

theorem landing_before (h : start + n < e.start) : landing start (e :: es) n = n := by
  rw [landing, if_pos h]

theorem landing_inside (hstart : e.start ≤ start + n) (hstop : start + n < e.stop) :
    landing start (e :: es) n = e.start - start + min (start + n - e.start)
      (byteLength e.newText) := by
  rw [landing, if_neg (Nat.not_lt.mpr hstart), if_pos hstop]

theorem landing_after (hstart : e.start ≤ start + n) (hstop : e.stop ≤ start + n) :
    landing start (e :: es) n =
      e.start - start + byteLength e.newText + landing e.stop es (start + n - e.stop) := by
  rw [landing, if_neg (Nat.not_lt.mpr hstart), if_neg (Nat.not_lt.mpr hstop)]

end Landing

namespace Rewrites

variable {start : Nat} {text later : List Char} {es : List Edit}

/-- The running shift leads to the same place, as long as both texts are shorter than half a word.
The induction is on the edits: each is behind the offset, around it or before it. -/
theorem mapFrom?_eq (h : Rewrites start text es later) {dest n : Nat} (hn : n ≤ byteLength text)
    (hroom : start + byteLength text < wordSize / 2)
    (hroom' : dest + byteLength later < wordSize / 2) :
    Edit.mapFrom? (start + n) ((dest : Int) - start) es = some (dest + landing start es n) := by
  induction h generalizing dest n with
  | done start text =>
    rw [mapFrom?, shifted_eq (by omega) (by omega), Nat.add_sub_cancel_left]
    rfl
  | @change start kept old rest later e es hstart hstop hrest ih =>
    simp only [byteLength_append] at hn hroom hroom'
    rcases Nat.lt_or_ge (start + n) e.start with hbefore | hafter
    · rw [mapFrom?_before hbefore, shifted_eq (by omega) (by omega), landing_before hbefore,
        Nat.add_sub_cancel_left]
    rcases Nat.lt_or_ge (start + n) e.stop with hinside | hbehind
    · rw [mapFrom?_inside hafter hinside, shifted_eq (by omega) (by omega),
        landing_inside hafter hinside, fits?, if_pos, Nat.add_assoc]
      rw [wordSize] at *
      omega
    · -- the offset is behind the first edit, and the others shift it on
      obtain ⟨k, hk⟩ := Nat.exists_eq_add_of_le hbehind
      have hkept : e.start - start = byteLength kept := by omega
      rw [landing_after hafter hbehind, hk, Nat.add_sub_cancel_left,
        mapFrom?_after (by omega) (by omega) (by omega) (by omega) (by omega), hkept,
        ih (by omega) (by omega) (by omega), Nat.add_assoc, Nat.add_assoc, Nat.add_assoc]

/-- What stands behind in the text does not land before. -/
theorem landing_mono (h : Rewrites start text es later) {m n : Nat} (hle : m ≤ n) :
    landing start es m ≤ landing start es n := by
  induction h generalizing m n with
  | done => exact hle
  | @change start kept old rest later e es hstart hstop hrest ih =>
    have hlater : landing e.stop es (start + m - e.stop) ≤
        landing e.stop es (start + n - e.stop) := by
      apply ih
      omega
    rw [landing, landing]
    split_ifs <;> omega

/-- No byte of the text lands behind the end of the new one. -/
theorem landing_le (h : Rewrites start text es later) {n : Nat} (hn : n ≤ byteLength text) :
    landing start es n ≤ byteLength later := by
  induction h generalizing n with
  | done => exact hn
  | @change start kept old rest later e es hstart hstop hrest ih =>
    simp only [byteLength_append] at hn ⊢
    have hlater : start + n - e.stop ≤ byteLength rest →
        landing e.stop es (start + n - e.stop) ≤ byteLength later :=
      ih
    rw [landing]
    split_ifs <;> omega

/-- The bytes from `n` to `t` are found in the new text where the first of them lands, if that one
is not replaced and no edit starts behind it and before `t`. -/
theorem landing_follows (h : Rewrites start text es later) {n t : Nat} (hnt : n ≤ t)
    (ht : t ≤ byteLength text) (houtside : ∀ e ∈ es, start + n < e.start ∨ e.stop ≤ start + n)
    (hnext : ∀ e ∈ es, e.start ≤ start + n ∨ start + t ≤ e.start) :
    bytesBetween text n t = bytesBetween later (landing start es n)
      (landing start es n + (t - n)) := by
  induction h generalizing n t with
  | done =>
    rw [landing, Nat.add_sub_cancel' hnt]
  | @change start kept old rest later e es hstart hstop hrest ih =>
    simp only [byteLength_append] at ht
    rw [List.forall_mem_cons] at houtside hnext
    rcases Nat.lt_or_ge (start + n) e.start with hbefore | hafter
    · -- the bytes end before the first edit, and both texts begin with what is kept there
      have hend : t ≤ byteLength kept := by
        have hfirst := hnext.1
        omega
      rw [landing_before hbefore, Nat.add_sub_cancel' hnt, bytesBetween_append_left hnt hend,
        bytesBetween_append_left hnt hend]
    · -- they stand behind the first edit, where the same holds of the others
      have hbehind : e.stop ≤ start + n := by
        have hfirst := houtside.1
        omega
      obtain ⟨m, hm⟩ := Nat.exists_eq_add_of_le hbehind
      obtain ⟨u, rfl⟩ := Nat.exists_eq_add_of_le hnt
      have hkept : e.start - start = byteLength kept := by omega
      have hn : n = byteLength (kept ++ old) + m := by
        rw [byteLength_append]
        omega
      have hmove : ∀ x : Nat, e.stop + (m + x) = start + (n + x) := by omega
      have hlater := @ih m (m + u) (by omega) (by omega) ?_ ?_
      · calc bytesBetween (kept ++ (old ++ rest)) n (n + u)
            = bytesBetween rest m (m + u) := by
              rw [hn, Nat.add_assoc, ← List.append_assoc, bytesBetween_append_right]
          _ = bytesBetween later (landing e.stop es m) (landing e.stop es m + u) := by
              rw [hlater, Nat.add_sub_cancel_left]
          _ = bytesBetween (kept ++ (e.newText ++ later)) (landing start (e :: es) n)
                (landing start (e :: es) n + (n + u - n)) := by
              rw [landing_after hafter hbehind, hm, Nat.add_sub_cancel_left,
                Nat.add_sub_cancel_left, hkept, ← byteLength_append, ← List.append_assoc,
                Nat.add_assoc, bytesBetween_append_right]
      · rw [← hm]
        exact houtside.2
      · rw [← hm, hmove]
        exact hnext.2

end Rewrites

/-- Edits of a text that follow one another and start and stop between its characters. -/
structure InOrder (source : List Char) (es : List Edit) : Prop where
  span : ∀ e ∈ es, e.start ≤ e.stop
  /-- An edit may start where the one before it stops. -/
  apart : es.IsChain fun a b => a.stop ≤ b.start
  atChar : ∀ e ∈ es, AtChar source e.start ∧ AtChar source e.stop

/-- What such edits make of the part of a text from the byte `start` on. -/
theorem exists_rewrites {front text : List Char} {start : Nat} {es : List Edit}
    (hfront : byteLength front = start) (horder : InOrder (front ++ text) es)
    (hfirst : ∀ e ∈ es.head?, start ≤ e.start) : ∃ later, Rewrites start text es later := by
  induction es generalizing front text start with
  | nil => exact ⟨text, .done start text⟩
  | cons e es ih =>
    obtain ⟨hspan, hapart, hchar⟩ := horder
    obtain ⟨hstart, hstop⟩ := hchar e List.mem_cons_self
    -- the edit keeps what is before its start and replaces what is before its stop
    obtain ⟨k, hk⟩ := Nat.exists_eq_add_of_le (hfirst e rfl)
    rw [hk, ← hfront, atChar_append_add_iff] at hstart
    obtain ⟨kept, text', rfl, rfl⟩ := hstart
    obtain ⟨m, hm⟩ := Nat.exists_eq_add_of_le (hspan e List.mem_cons_self)
    have hplace : e.start = byteLength (front ++ kept) := by
      rw [hk, byteLength_append, hfront]
    rw [hm, hplace, ← List.append_assoc, atChar_append_add_iff] at hstop
    obtain ⟨old, rest, rfl, rfl⟩ := hstop
    have hpassed : byteLength (front ++ kept ++ old) = e.stop := by
      rw [byteLength_append, ← hplace, hm]
    have horder' : InOrder (front ++ kept ++ old ++ rest) es := by
      refine ⟨fun x hx => hspan x (List.mem_cons_of_mem e hx), hapart.tail, ?_⟩
      intro x hx
      have hx' := hchar x (List.mem_cons_of_mem e hx)
      rwa [← List.append_assoc, ← List.append_assoc] at hx'
    have hnext : ∀ x ∈ es.head?, e.stop ≤ x.start := by
      cases es with
      | nil => exact nofun
      | cons x es =>
        rintro _ ⟨⟩
        exact (List.isChain_cons_cons.mp hapart).1
    obtain ⟨later, hlater⟩ := ih hpassed horder' hnext
    exact ⟨kept ++ (e.newText ++ later), .change kept old hk hm hlater⟩

/-- Edits in order can be applied, and the map of a cursor follows the text. Cursors keep their
order and stay within the new text. From a place that no edit replaces up to the next start of an
edit, the bytes of the text are found in the new one at the place to which a cursor is moved from
there. Both texts are shorter than half a word, as all texts in memory are. -/
theorem mapOffset?_follows (source : List Char) (es : List Edit) (horder : InOrder source es) :
    ∃ result, patch? source es = some result ∧
      (byteLength source < wordSize / 2 → byteLength result < wordSize / 2 →
        ∃ place : Nat → Nat,
          (∀ n ≤ byteLength source, mapOffset? es n = some (place n) ∧
            place n ≤ byteLength result) ∧
          (∀ m n, m ≤ n → n ≤ byteLength source → place m ≤ place n) ∧
          ∀ n stop, n ≤ stop → stop ≤ byteLength source → (∀ e ∈ es, n < e.start ∨ e.stop ≤ n) →
            (∀ e ∈ es, e.start ≤ n ∨ stop ≤ e.start) →
            bytesBetween source n stop = bytesBetween result (place n) (place n + (stop - n))) := by
  have hempty : byteLength ([] : List Char) = 0 := rfl
  have hwhole : InOrder ([] ++ source) es := horder
  obtain ⟨result, hrewrites⟩ := exists_rewrites hempty hwhole fun e _ => Nat.zero_le e.start
  refine ⟨result, hrewrites.patchFrom? hempty, ?_⟩
  intro hsource hresult
  refine ⟨landing 0 es, ?_, ?_, ?_⟩
  · intro n hn
    have hmap : mapFrom? (0 + n) (((0 : Nat) : Int) - (0 : Nat)) es =
        some (0 + landing 0 es n) := by
      apply hrewrites.mapFrom?_eq hn
      · omega
      · omega
    rw [Nat.zero_add, Nat.zero_add] at hmap
    exact ⟨hmap, hrewrites.landing_le hn⟩
  · intro m n hle _
    exact hrewrites.landing_mono hle
  · intro n stop hle hstop houtside hnext
    apply hrewrites.landing_follows hle hstop
    · simpa using houtside
    · simpa using hnext

/-- Two edits meet behind the first character: one puts a sign there, the other takes the next one
away. The digit is found behind the new sign. -/
theorem mapOffset?_follows_meeting :
    let es : List Edit := [⟨2, 2, "ü ".toList⟩, ⟨2, 3, []⟩, ⟨4, 5, "\n\n".toList⟩]
    InOrder "é=1\ny".toList es ∧
      ∃ result, patch? "é=1\ny".toList es = some result ∧
        byteLength "é=1\ny".toList < wordSize / 2 ∧ byteLength result < wordSize / 2 ∧
          mapOffset? es 3 = some 5 ∧
          bytesBetween "é=1\ny".toList 3 4 = bytesBetween result 5 6 := by
  intro es
  have horder : InOrder "é=1\ny".toList es := ⟨by decide, by decide, by decide⟩
  obtain ⟨result, hpatch, hplaces⟩ := mapOffset?_follows "é=1\ny".toList es horder
  have hresult : result = "éü 1\n\ny".toList := by
    have hcomputed : patch? "é=1\ny".toList es = some "éü 1\n\ny".toList := by decide
    exact Option.some.inj (hpatch.symm.trans hcomputed)
  have hshort : byteLength result < wordSize / 2 := by
    rw [hresult]
    decide
  obtain ⟨place, hplace, -, hfollows⟩ := hplaces (by decide) hshort
  obtain ⟨hmap, -⟩ := hplace 3 (by decide)
  have hfive : place 3 = 5 := by
    have hcomputed : mapOffset? es 3 = some 5 := by decide
    exact Option.some.inj (hmap.symm.trans hcomputed)
  have hbytes := hfollows 3 4 (by decide) (by decide) (by decide) (by decide)
  rw [hfive] at hmap hbytes
  exact ⟨horder, result, hpatch, by decide, hshort, hmap, hbytes⟩

end Edit

end ScratchFormat
