import ScratchFormat.Proofs.Landing
import ScratchFormat.Proofs.Settling

/-! Where the edits that format a text move a cursor. The new place is within the formatted text. It
is at a character if the cursor stands outside the replaced parts. Inside one the cursor keeps its
distance in bytes from the start of the part, and that may lead into the middle of a character. -/

namespace ScratchFormat

namespace Edit

/-- If the cursor stands in a replaced part, then as far from the start of the replacement, or where
the replacement ends before, is a character. -/
def KeepsChar (es : List Edit) (cursor : Nat) : Prop :=
  ∀ e ∈ es, e.start ≤ cursor → cursor < e.stop →
    AtChar e.newText (min (cursor - e.start) (byteLength e.newText))

/-- Edits that start behind the cursor do not replace the part it stands in. -/
theorem keepsChar_of_lt {es : List Edit} {cursor : Nat} (h : ∀ e ∈ es, cursor < e.start) :
    KeepsChar es cursor := by
  intro e he hstart
  exact absurd hstart (Nat.not_le.mpr (h e he))

theorem keepsChar_cons_iff (e : Edit) (es : List Edit) (cursor : Nat) :
    KeepsChar (e :: es) cursor ↔
      (e.start ≤ cursor → cursor < e.stop →
        AtChar e.newText (min (cursor - e.start) (byteLength e.newText))) ∧ KeepsChar es cursor :=
  List.forall_mem_cons

theorem keepsChar_cons_of_le {e : Edit} {es : List Edit} {cursor : Nat} (h : e.stop ≤ cursor) :
    KeepsChar (e :: es) cursor ↔ KeepsChar es cursor := by
  rw [keepsChar_cons_iff, and_iff_right]
  exact fun _ hstop => absurd hstop (Nat.not_lt.mpr h)

/-- The cursor is moved to a place in the new text, which starts at the byte `dest` of a larger one.
That place is at a character exactly when the part that the cursor stands in leaves it at one. -/
def Lands (es : List Edit) (later : List Char) (dest cursor : Nat) (moved : Option Nat) : Prop :=
  ∃ m, moved = some (dest + m) ∧ m ≤ byteLength later ∧ (AtChar later m ↔ KeepsChar es cursor)

namespace Rewrites

variable {start : Nat} {text later : List Char} {es : List Edit}

/-- A character of the text lands at a character, unless it is replaced and the replacement has none
there. -/
theorem atChar_landing_iff (h : Rewrites start text es later) {n : Nat} (hn : AtChar text n) :
    AtChar later (landing start es n) ↔ KeepsChar es (start + n) := by
  induction h generalizing n with
  | done => exact iff_of_true hn nofun
  | @change start kept old rest later e es hstart hstop hrest ih =>
    have hlater : ∀ x ∈ es, e.stop ≤ x.start := fun x hx => (hrest.bounds x hx).1
    rcases Nat.lt_or_ge (start + n) e.start with hbefore | hafter
    · -- what is kept before the first edit is at the front of both texts
      have hkept : n ≤ byteLength kept := by omega
      rw [landing_before hbefore, atChar_append_iff hkept, ← atChar_append_iff hkept (old ++ rest)]
      apply iff_of_true hn
      apply keepsChar_of_lt
      intro x hx
      rcases List.mem_cons.mp hx with rfl | hx
      · exact hbefore
      · have hbehind := hlater x hx
        omega
    have hkept : e.start - start = byteLength kept := by omega
    rcases Nat.lt_or_ge (start + n) e.stop with hinside | hbehind
    · -- no other edit replaces what the first one does
      have hothers : KeepsChar es (start + n) := by
        apply keepsChar_of_lt
        intro x hx
        have hbehind := hlater x hx
        omega
      rw [landing_inside hafter hinside, hkept, atChar_append_add_iff,
        atChar_append_iff (Nat.min_le_right _ _), keepsChar_cons_iff, and_iff_left hothers]
      exact ⟨fun hchar _ _ => hchar, fun hkeeps => hkeeps hafter hinside⟩
    · obtain ⟨k, hk⟩ := Nat.exists_eq_add_of_le hbehind
      have hplace : n = byteLength kept + (byteLength old + k) := by omega
      rw [hplace, atChar_append_add_iff, atChar_append_add_iff] at hn
      rw [landing_after hafter hbehind, hkept, Nat.add_assoc, atChar_append_add_iff,
        atChar_append_add_iff, hk, Nat.add_sub_cancel_left,
        keepsChar_cons_of_le (Nat.le_add_right _ _)]
      exact ih hn

/-- A cursor at a character of the text lands in the new text. -/
theorem lands (h : Rewrites start text es later) {dest n : Nat} (hn : AtChar text n)
    (hroom : start + byteLength text < wordSize / 2)
    (hroom' : dest + byteLength later < wordSize / 2) :
    Lands es later dest (start + n) (Edit.mapFrom? (start + n) ((dest : Int) - start) es) :=
  ⟨landing start es n, h.mapFrom?_eq hn.le hroom hroom', h.landing_le hn.le,
    h.atChar_landing_iff hn⟩

end Rewrites

end Edit

section

variable {ok : Char → Prop} {text : List Char}

theorem ok_joinLineEnds (h : ∀ c ∈ text, ok c) : ∀ c ∈ joinLineEnds text, ok c := by
  fun_induction joinLineEnds text with
  | case1 => exact h
  | case2 cs ih =>
    rw [List.forall_mem_cons, List.forall_mem_cons] at h
    exact List.forall_mem_cons.mpr ⟨h.2.1, ih h.2.2⟩
  | case3 c cs _ ih =>
    rw [List.forall_mem_cons] at h
    exact List.forall_mem_cons.mpr ⟨h.1, ih h.2⟩

/-- A formatted text has no characters that the text has not, apart from blanks and line feeds. -/
theorem ok_format (hblank : ok ' ') (htab : ok '\t') (hnewline : ok '\n') (style : Style)
    (h : ∀ c ∈ text, ok c) : ∀ c ∈ format style text, ok c := by
  have hiterate (n : Nat) : ∀ c ∈ (nextText style)^[n] (joinLineEnds text), ok c := by
    induction n with
    | zero => exact ok_joinLineEnds h
    | succ n ih =>
      rw [Function.iterate_succ_apply']
      exact ok_runStages hblank htab hnewline style Stage.all ih
  rcases format_cases style text with ⟨-, hempty⟩ | ⟨hsolid, -⟩
  · rw [hempty]
    nofun
  · rw [format_eq_iterate_joinLineEnds (by simp [hsolid])]
    exact hiterate maxPasses

end

namespace Edit

/-- The edits that format a text move a cursor at one of its characters to a place in the formatted
text. That place is at a character exactly when the replacement of the part that the cursor stands
in has one at the same distance, or ends before. In particular it is at one if the cursor stands
outside the replaced parts, and if all characters of the text have one byte. Both texts are shorter
than half a word, as all texts in memory are. -/
theorem mapOffset?_format (diff : List (List Char) → List (List Char) → List DiffOp) (style : Style)
    (source : List Char) (cursor : Nat) (hreturns : ReturnsFollowed source)
    (hdiff : Diff.IsScript (endedLines source) (endedLines (format style source))
      (diff (endedLines source) (endedLines (format style source))))
    (hsource : byteLength source < wordSize / 2)
    (hformatted : byteLength (format style source) < wordSize / 2)
    (hcursor : AtChar source cursor) :
    ∃ n, mapOffset? (betweenBy diff source (format style source)) cursor = some n ∧
      n ≤ byteLength (format style source) ∧
      (AtChar (format style source) n ↔
        KeepsChar (betweenBy diff source (format style source)) cursor) ∧
      ((∀ e ∈ betweenBy diff source (format style source), cursor < e.start ∨ e.stop ≤ cursor) →
        AtChar (format style source) n) ∧
      ((∀ c ∈ source, c.utf8Size = 1) → AtChar (format style source) n) := by
  have hrewrites := rewrites_betweenBy hreturns hdiff
  have hlands := @Rewrites.lands _ _ _ _ hrewrites 0 cursor hcursor (by omega) (by omega)
  rw [Nat.zero_add] at hlands
  obtain ⟨n, hmap, hn, hiff⟩ := hlands
  rw [Nat.zero_add] at hmap
  refine ⟨n, hmap, hn, hiff, ?_, ?_⟩
  · intro houtside
    apply hiff.mpr
    intro e he hstart hstop
    have hside := houtside e he
    omega
  · intro hone
    apply atChar_of_oneByte _ hn
    exact ok_format (by decide) (by decide) (by decide) style hone

theorem mapOffset?_format_nextLine :
    AtChar "x=é\ny = 2\n".toList 5 ∧
      ∃ n, mapOffset? (betweenBy Diff.script "x=é\ny = 2\n".toList
          (format .standard "x=é\ny = 2\n".toList)) 5 = some n ∧
        n ≤ byteLength (format .standard "x=é\ny = 2\n".toList) ∧
        AtChar (format .standard "x=é\ny = 2\n".toList) n := by
  have hformat : format .standard "x=é\ny = 2\n".toList = "x = é\n\ny = 2\n".toList := by
    decide +kernel
  have hlands := mapOffset?_format Diff.script .standard "x=é\ny = 2\n".toList 5 (by decide)
  rw [hformat] at hlands ⊢
  have hcursor : AtChar "x=é\ny = 2\n".toList 5 := by decide
  obtain ⟨n, hmap, hn, _, houtside, _⟩ := hlands (by decide) (by decide) (by decide) hcursor
  exact ⟨hcursor, n, hmap, hn, houtside (by decide)⟩

/-- The cursor stands between two letters. Five bytes on in the formatted line, which has two blanks
more, is the second byte of the accented letter. -/
theorem mapOffset?_format_cut :
    ReturnsFollowed "x=éab".toList ∧ AtChar "x=éab".toList 5 ∧
      format .standard "x=éab".toList = "x = éab\n".toList ∧
      mapOffset? (between "x=éab".toList (format .standard "x=éab".toList)) 5 = some 5 ∧
      ¬ AtChar (format .standard "x=éab".toList) 5 := by
  decide +kernel

end Edit

end ScratchFormat
