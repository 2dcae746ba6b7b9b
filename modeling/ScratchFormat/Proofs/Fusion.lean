import Mathlib.Data.List.TakeWhile
import ScratchFormat.Proofs.Alphabet
import ScratchFormat.Proofs.Lexing
import ScratchFormat.Proofs.Spacing

/-! Where setting the gaps of a line changes what the scanner sees in it: two characters of code
fuse into the beginning of a literal or a comment, or a literal that ends with a blank loses it.
Everywhere else the literals, the comments and the code between them stay what they are. -/

namespace ScratchFormat

namespace Gaps

/-- Whether `c`, in code after `prev` and before `cs`, comes to open a literal or a comment because
the gap behind it is closed: a question mark before a comma, or a brace before a minus sign that is
set off. -/
def joins (special : Option Nat) (prev : Option Char) (c : Char) (cs : List Char) : Bool :=
  cs.head?.any isIndent &&
    ((c == '?' && !prev.any isNameTail && (cs.dropWhile isIndent).head? == some ',') ||
      (c == '\x7b' && (cs.dropWhile isIndent).head? == some '-' &&
        setsOff (shift special (1 + (cs.takeWhile isIndent).length)) '-'
        (cs.dropWhile isIndent).tail))

def joinsInCode (special : Option Nat) (prev : Option Char) : List Char → Bool
  | [] => false
  | c :: cs => joins special prev c cs || joinsInCode (shift special 1) (some c) cs

/-- Whether a literal that ends with `b` loses it to the code that follows: a comma takes a blank
away, and an operator that is set off makes a space of a tab. -/
def breaks (b : Char) (code : List Char) : Bool :=
  isIndent b &&
    match code.dropWhile isIndent with
    | [] => false
    | c :: cs => c == ',' || (b == '\t' && setsOff none c cs)

def fusesInSegments (special : Option Nat) (prev : Option Char) : List Segment → Bool
  | [] => false
  | t :: ts =>
    (if t.kind = .code then joinsInCode special prev t.text
      else ts.head?.any fun u => u.kind = .code && t.text.getLast?.any (breaks · u.text)) ||
      fusesInSegments none t.text.getLast? ts

def lineSpecial (l : ScannedLine) : Option Nat :=
  match l.segments with
  | [] => none
  | t :: _ =>
    if l.startsInCode = true ∧ t.kind = .code then
      (special? (Role.ofCode l.codeText) (t.text.dropWhile isIndent)).map
        (· + (t.text.takeWhile isIndent).length)
    else none

/-- Whether the gaps of a line are set at all. -/
def isSet (l : ScannedLine) : Bool :=
  !(l.isBlank || l.isCommentOnly) && !(l.startsInCode && Role.ofCode l.codeText = .useClause)

/-- Whether something in a line fuses when its gaps are set. -/
def fuses (l : ScannedLine) : Bool := isSet l && fusesInSegments (lineSpecial l) none l.segments

theorem takeWhile_gap {gap : List Char} (hgap : ∀ c ∈ gap, isIndent c = true) {y : Char}
    (hy : isIndent y = false) (cs : List Char) :
    (gap ++ y :: cs).takeWhile isIndent = gap ∧ (gap ++ y :: cs).dropWhile isIndent = y :: cs := by
  constructor
  · rw [List.takeWhile_append_of_pos hgap, List.takeWhile_cons_of_neg (by simp [hy]),
      List.append_nil]
  · rw [List.dropWhile_append_of_pos hgap, List.dropWhile_cons_of_neg (by simp [hy])]

/-- Nothing joins where the next character stays. -/
theorem not_joined_of_head_eq {prev : Option Char} {y : Char} {old new : List Char}
    (h : new.head? = old.head?) : ¬ Joined prev y old new := by
  rintro (⟨_, _, hn, ho⟩ | ⟨_, hn, ho⟩)
  · exact ho (h ▸ hn)
  · exact ho (h ▸ hn)

/-- A gap that is empty joins nothing, and one that is not joins by the character behind it. -/
theorem joins_gap {special : Option Nat} {prev : Option Char} {y z : Char} {gap : List Char}
    (hgap : ∀ c ∈ gap, isIndent c = true) (hz : isIndent z = false) (cs : List Char) :
    joins special prev y (gap ++ z :: cs) = true ↔
      gap ≠ [] ∧ ((y = '?' ∧ prev.any isNameTail = false ∧ z = ',') ∨
        (y = '\x7b' ∧ z = '-' ∧ setsOff (shift special (1 + gap.length)) z cs = true)) := by
  obtain ⟨htake, hdrop⟩ := takeWhile_gap hgap hz cs
  rw [joins, htake, hdrop]
  cases gap with
  | nil => simp [hz]
  | cons b gap =>
    have hb : isIndent b = true := hgap b List.mem_cons_self
    simp only [List.cons_append, List.head?_cons, Option.any_some, hb, List.tail_cons,
      Bool.true_and, Bool.or_eq_true, Bool.and_eq_true, beq_iff_eq, Bool.not_eq_true',
      Option.some.injEq, ne_eq, reduceCtorEq, not_false_eq_true, true_and]
    constructor
    · rintro (⟨⟨hq, hp⟩, hz'⟩ | ⟨⟨hb', hz'⟩, hs⟩)
      · exact .inl ⟨hq, hp, hz'⟩
      · exact .inr ⟨hb', hz', hz' ▸ hs⟩
    · rintro (⟨hq, hp, hz'⟩ | ⟨hb', hz', hs⟩)
      · exact .inl ⟨⟨hq, hp⟩, hz'⟩
      · exact .inr ⟨⟨hb', hz'⟩, hz' ▸ hs⟩

/-- What joins across a gap is told by how the character behind it is laid. -/
theorem joined_iff_of_laid {special : Option Nat} {prev : Option Char} {y z : Char}
    {gap gap' rest : List Char} (hgap : ∀ c ∈ gap, isIndent c = true)
    (hlaid : Laid special false (some y) z gap rest gap') (old new : List Char) :
    Joined prev y (gap ++ z :: old) (gap' ++ z :: new) ↔
      gap ≠ [] ∧ ((y = '?' ∧ prev.any isNameTail = false ∧ z = ',') ∨
        (y = '\x7b' ∧ z = '-' ∧ setsOff special z rest = true)) := by
  have hblank : gap ≠ [] → (gap ++ z :: old).head? ≠ some ',' ∧
      (gap ++ z :: old).head? ≠ some '-' := by
    intro hne
    obtain ⟨b, bs, rfl⟩ := List.exists_cons_of_ne_nil hne
    have hb := hgap b List.mem_cons_self
    constructor <;> (rintro ⟨⟩; exact absurd hb (by decide))
  cases hlaid with
  | comma hcomma =>
    subst hcomma
    constructor
    · rintro (⟨hq, hp, _, ho⟩ | ⟨_, hn, _⟩)
      · refine ⟨fun hnil => ?_, .inl ⟨hq, hp, rfl⟩⟩
        subst hnil
        exact ho rfl
      · cases hn
    · rintro ⟨hne, ⟨hq, hp, _⟩ | ⟨_, hz, _⟩⟩
      · exact .inl ⟨hq, hp, rfl, (hblank hne).1⟩
      · cases hz
  | off hop hoff =>
    constructor
    · rintro (⟨rfl, _, hn, _⟩ | ⟨rfl, hn, ho⟩)
      · cases hn
      · cases hn
        have hne : gap ≠ [] := by
          rintro rfl
          exact ho rfl
        exact ⟨hne, .inr ⟨rfl, rfl, hoff rfl hne⟩⟩
    · rintro ⟨hne, ⟨_, _, rfl⟩ | ⟨rfl, rfl, _⟩⟩
      · exact absurd hop (by decide)
      · exact .inr ⟨rfl, rfl, (hblank hne).2⟩
  | kept _ hkept =>
    have hheads : (gap ++ z :: new).head? = (gap ++ z :: old).head? := by
      cases gap <;> rfl
    refine iff_of_false (not_joined_of_head_eq hheads) ?_
    rintro ⟨hne, ⟨_, _, rfl⟩ | ⟨_, rfl, hs⟩⟩
    · exact absurd rfl (hkept hne).1
    · rw [(hkept hne).2] at hs
      cases hs
  | after hdue => cases hdue

/-- What joins is told by the next characters, before and after. -/
theorem joined_iff {more due due' : Bool} {special : Option Nat} {prev : Option Char} {y : Char}
    {old new trail trail' rest new' : List Char} {x' : Option Char}
    (h : Spaced trail (shift special 1) due (some y) old new due' x')
    (hdue : due = true → ends y = true) (hpending : Pending more x' trail [] due' trail')
    (htrail' : ∀ c ∈ trail', isIndent c = true) (hrest : new'.head? = rest.head?) :
    Joined prev y (old ++ (trail ++ rest)) (new ++ (trail' ++ new')) ↔
      joins special prev y (old ++ trail) = true := by
  by_cases hy : y = '?' ∨ y = '\x7b'
  · have hfree : due = false := by
      cases due with
      | false => rfl
      | true => rcases hy with rfl | rfl <;> exact absurd (hdue rfl) (by decide)
    subst hfree
    cases h with
    | nil =>
      cases hpending with
      | kept =>
        -- only blanks follow in this stretch, and they are kept
        have hheads : (trail ++ new').head? = (trail ++ rest).head? := by
          rw [List.head?_append, List.head?_append, hrest]
        refine iff_of_false (not_joined_of_head_eq hheads) ?_
        simp [joins, List.dropWhile_eq_nil_iff.mpr htrail']
    | cons _ hgap _ hz hlaid =>
      rw [shift_shift] at hlaid
      simp only [List.append_assoc, List.cons_append]
      rw [joins_gap (hgap rfl) hz, joined_iff_of_laid (hgap rfl) hlaid]
  · rw [not_or] at hy
    constructor
    · rintro (⟨h, _⟩ | ⟨h, _⟩)
      · exact absurd h hy.1
      · exact absurd h hy.2
    · simp [joins, hy.1, hy.2]

/-- No quote comes to stand right behind a comma. -/
theorem head_behind_comma {more due' : Bool} {special : Option Nat}
    {old new trail trail' new' : List Char} {x' : Option Char}
    (h : Spaced trail special true (some ',') old new due' x')
    (hpending : Pending more x' trail [] due' trail') (hmore : more = false → new' = []) :
    (new ++ (trail' ++ new')).head? ≠ some '\'' := by
  cases h with
  | nil =>
    cases hpending with
    | due _ _ h =>
      rcases h with ⟨rfl, _⟩ | ⟨rfl, _, h⟩
      · simp
      · simp [hmore (h rfl)]
  | cons _ _ _ _ hlaid =>
    cases hlaid with
    | comma hy => subst hy; simp
    | off => simp [isOpener]
    | kept hdue => cases hdue
    | after _ h =>
      rcases h with rfl | ⟨rfl, hy⟩
      · simp
      · intro hq
        cases hq
        exact absurd hy (by decide)

/-- A gap that is laid is a gap that has moved. -/
theorem moved_of_laid {special : Option Nat} {due : Bool} {x prev : Option Char} {y : Char}
    {gap gap' rest : List Char} (h : Laid special due x y gap rest gap')
    (hprev : prev = x ∨ (x = none ∧ prev.all isSpace = true))
    (hends : due = true → prev.any ends = true) : Moved prev y gap gap' := by
  cases h with
  | comma hy => exact .comma hy
  | off hy =>
    split
    · rename_i hopen
      refine .opened hy ?_
      rcases hprev with rfl | ⟨rfl, hspace⟩
      · cases prev with
        | none => rfl
        | some c => simpa using .inl hopen
      · cases prev with
        | none => rfl
        | some c => simpa using .inr hspace
    · exact .spaced (.inl hy)
  | kept => exact .kept
  | after hdue h =>
    rcases h with rfl | ⟨rfl, hy⟩
    · exact .spaced (.inr (hends hdue))
    · exact .closer hy (hends hdue)

end Gaps

namespace Cursor

/-- Along a gap the scanner stays idle. -/
theorem idleAlong_gap {s : Cursor} {rest gap cs : List Char} (hg : ∀ c ∈ gap, isSpace c = true)
    (h : s.IdleAlong rest (gap ++ cs)) :
    (s.pause gap).IdleAlong rest cs ∧ s.run rest (gap ++ cs) = (s.pause gap).run rest cs := by
  induction gap generalizing s with
  | nil => exact ⟨h, rfl⟩
  | cons c gap ih =>
    obtain ⟨hs, h⟩ := h
    have hc := hg c List.mem_cons_self
    rw [advance_space hs hc] at h
    rw [List.cons_append, run, advance_space hs hc, pause_cons]
    exact ih (fun d hd => hg d (List.mem_cons_of_mem c hd)) h

theorem run_gap {s : Cursor} (hs : s.Idle) {gap : List Char} (hg : ∀ c ∈ gap, isSpace c = true)
    (rest cs : List Char) : s.run rest (gap ++ cs) = (s.pause gap).run rest cs := by
  induction gap generalizing s with
  | nil => rfl
  | cons c gap ih =>
    rw [List.cons_append, run, advance_space hs (hg c List.mem_cons_self), pause_cons]
    exact ih ⟨rfl, rfl⟩ fun d hd => hg d (List.mem_cons_of_mem c hd)

end Cursor

namespace Gaps

def Plain (cs : List Char) : Prop := ∀ c ∈ cs, c ≠ '?' ∧ c ≠ '\x7b'

theorem plain_of_isSpace {cs : List Char} (h : ∀ c ∈ cs, isSpace c = true) : Plain cs := by
  intro c hc
  refine ⟨?_, ?_⟩ <;> rintro rfl <;> exact absurd (h _ hc) (by decide)

theorem joins_of_ne {c : Char} (hc : c ≠ '?' ∧ c ≠ '\x7b') (special : Option Nat)
    (prev : Option Char) (cs : List Char) : joins special prev c cs = false := by
  simp [joins, hc.1, hc.2]

/-- Whether something joins behind some code is told from the end of that code. -/
theorem joinsInCode_append (special : Option Nat) (prev : Option Char) {front : List Char}
    (h : Plain front) (cs : List Char) :
    joinsInCode special prev (front ++ cs) =
      joinsInCode (shift special front.length) (front.getLast?.or prev) cs := by
  induction front generalizing special prev with
  | nil => simp
  | cons c front ih =>
    rw [List.cons_append, joinsInCode, joins_of_ne (h c List.mem_cons_self), Bool.false_or,
      ih _ _ (fun d hd => h d (List.mem_cons_of_mem c hd)), shift_shift, getLast?_cons_or,
      List.length_cons, Nat.add_comm 1]

theorem joinsInCode_blanks (special : Option Nat) (prev : Option Char) {cs : List Char}
    (h : ∀ c ∈ cs, isSpace c = true) : joinsInCode special prev cs = false := by
  have hplain := joinsInCode_append special prev (plain_of_isSpace h) []
  rwa [List.append_nil] at hplain

theorem breaks_blanks (b : Char) {cs : List Char} (h : ∀ c ∈ cs, isIndent c = true) :
    breaks b cs = false := by
  rw [breaks, List.dropWhile_eq_nil_iff.mpr h, Bool.and_false]

theorem breaks_gap (b : Char) {gap : List Char} (hgap : ∀ c ∈ gap, isIndent c = true) {y : Char}
    (hy : isIndent y = false) (cs : List Char) :
    breaks b (gap ++ y :: cs) = (isIndent b && (y == ',' || (b == '\t' && setsOff none y cs))) := by
  rw [breaks, (takeWhile_gap hgap hy cs).2]

theorem prev_pause (s : Cursor) (gap : List Char) :
    (s.pause gap).prev = gap.getLast?.or s.prev := by
  cases gap with
  | nil => rfl
  | cons c gap =>
    cases hl : (c :: gap).getLast? with
    | none => simp at hl
    | some d => simp [Cursor.pause, hl]

/-- One character of code, with the gap before it. -/
theorem respaced_char {more due due' : Bool} {special : Option Nat} {fused : Prop} {s : Cursor}
    {y : Char} {gap gap' old new trail trail' rest new' : List Char} {x' : Option Char}
    (hs : s.Idle) (hg : ∀ c ∈ gap, isSpace c = true) (hg' : ∀ c ∈ gap', isIndent c = true)
    (hmoved : Moved s.prev y gap gap') (hdue : due = true → ends y = true)
    (hcomma : y = ',' → due = true)
    (hspaced : Spaced trail (shift special 1) due (some y) old new due' x')
    (hpending : Pending more x' trail [] due' trail') (htrail' : ∀ c ∈ trail', isIndent c = true)
    (hrest : new'.head? = rest.head?) (hmore : more = false → new' = [])
    (h : Respaced fused ((s.pause gap).advance y (old ++ (trail ++ rest))).2
      (old ++ (trail ++ rest))
      (new ++ (trail' ++ new'))) :
    Respaced (joins special (s.pause gap).prev y (old ++ trail) = true ∨ fused) s
      (gap ++ y :: (old ++ (trail ++ rest))) (gap' ++ y :: (new ++ (trail' ++ new'))) := by
  have hquote : y = ',' → (new ++ (trail' ++ new')).head? ≠ some '\'' := by
    intro hy
    have hd := hcomma hy
    subst hy hd
    exact head_behind_comma hspaced hpending hmore
  have hset := Respaced.set hs hg (fun c hc => isSpace_of_isIndent (hg' c hc)) hmoved hquote h
  rwa [propext (joined_iff hspaced hdue hpending htrail' hrest)] at hset

/-- A stretch of code and what follows it. -/
theorem respaced_spaced {more due due' : Bool} {special : Option Nat} {x x' : Option Char}
    {old new trail trail' rest new' : List Char} {fused : Prop} {s : Cursor}
    (hspaced : Spaced trail special due x old new due' x')
    (hprev : s.prev = x ∨ (x = none ∧ s.prev.all isSpace = true))
    (hends : due = true → s.prev.any ends = true) (hidle : s.IdleAlong rest (old ++ trail))
    (htrail : ∀ c ∈ trail, isSpace c = true) (hpending : Pending more x' trail [] due' trail')
    (htrail' : ∀ c ∈ trail', isIndent c = true) (hrest : new'.head? = rest.head?)
    (hmore : more = false → new' = [])
    (h : Respaced fused (s.run (trail ++ rest) old) (trail ++ rest) (trail' ++ new')) :
    Respaced (joinsInCode special s.prev (old ++ trail) = true ∨ fused) s (old ++ (trail ++ rest))
      (new ++ (trail' ++ new')) := by
  induction hspaced generalizing s with
  | nil special due x =>
    rw [List.nil_append, joinsInCode_blanks special s.prev htrail]
    simpa [Cursor.run] using h
  | @cons special due due₁ due₂ x x₁ y gap gap' old new hg hgi hg' hy hlaid hdue
    hcomma hspaced ih =>
    rw [List.append_assoc, List.cons_append] at hidle
    obtain ⟨⟨hpause, hidle₁⟩, _⟩ := Cursor.idleAlong_gap hg hidle
    have hs := Cursor.idle_of_idleAlong hidle
    rw [List.append_assoc] at hidle₁
    rw [Cursor.run_gap hs hg, Cursor.run] at h
    have hprev₁ := Cursor.prev_advance (s.pause gap) y (old ++ (trail ++ rest))
    have hends₁ : due₁ = true →
        ((s.pause gap).advance y (old ++ (trail ++ rest))).2.prev.any ends = true := by
      intro hd
      rw [hprev₁]
      exact hdue hd
    rw [← shift_shift] at hspaced
    -- the rest of the stretch, from behind `y` on
    have hlater := ih (.inl hprev₁) hends₁ hidle₁ hpending h
    have hchar := respaced_char hs hg hg' (moved_of_laid hlaid hprev hends) hdue hcomma hspaced
      hpending htrail' hrest hmore hlater
    rw [hprev₁, ← or_assoc, ← Bool.or_eq_true] at hchar
    rw [List.append_assoc, List.cons_append,
      joinsInCode_append special s.prev (plain_of_isSpace hg), joinsInCode, shift_shift,
      List.append_assoc, List.append_assoc, List.cons_append, ← prev_pause]
    exact hchar

/-- A gap is due only behind a character that sets it. -/
theorem ends_run_of_spaced {trail old new : List Char} {special : Option Nat} {due due' : Bool}
    {x x' : Option Char} (h : Spaced trail special due x old new due' x') {s : Cursor}
    (hends : due = true → s.prev.any ends = true) (rest : List Char) :
    due' = true → (s.run rest old).prev.any ends = true := by
  induction h generalizing s with
  | nil => exact hends
  | @cons special due due₁ due₂ x x₁ y gap gap' old new hg hgi hg' hy hlaid hdue hcomma h ih =>
    rw [Cursor.run_append, Cursor.run]
    refine ih fun hd => ?_
    rw [Cursor.prev_advance]
    exact hdue hd

/-- Inside a literal or a comment everything is copied. -/
theorem respaced_copy {fused : Prop} {s : Cursor} {rest new text : List Char}
    (hbusy : s.BusyAlong rest text) (h : Respaced fused (s.run rest text) rest new) :
    Respaced fused s (text ++ rest) (text ++ new) := by
  induction text generalizing s with
  | nil => exact h
  | cons c text ih => exact .copied hbusy.1 (ih hbusy.2 h)

theorem not_joined_of_busy {fused : Prop} {s : Cursor} {prev : Option Char} {y : Char}
    {old new : List Char} (h : Respaced fused s old new) (hs : ¬ s.Idle) (hprev : s.prev = some y) :
    ¬ Joined prev y old new := by
  intro hjoined
  have hy : y ≠ '\\' := by
    rcases hjoined with ⟨rfl, _⟩ | ⟨rfl, _⟩ <;> decide
  refine not_joined_of_head_eq (h.head_eq hs fun _ _ hp => ?_) hjoined
  rw [hprev] at hp
  exact hy (Option.some.inj hp)

/-- All the text of a list of segments. -/
def flat (ts : List Segment) : List Char := ts.flatMap Segment.text

theorem flat_cons (t : Segment) (ts : List Segment) : flat (t :: ts) = t.text ++ flat ts := rfl

/-- The last character of a literal is copied, and code follows. -/
theorem respaced_closing {fused : Prop} {s : Cursor} {b : Char} {old new : List Char}
    (hm : s.mode = .charQuote) (ho : s.owed = 1) (hc : s.closing = true)
    (h : Respaced fused (.closed b) old new) : Respaced fused s (b :: old) (b :: new) := by
  refine .copied (fun hi => ?_) ?_
  · rw [hi.1] at hm
    cases hm
  · have hclosed : (s.advance b old).2 = .closed b := by
      simp [Cursor.advance, ho, hc]
    rwa [hclosed]

def SetsFrom (ts : List Segment) : Prop :=
  ∀ (s : Cursor) (base : List Char), Lexed s ts → s.Sound (flat ts) → s.prev = base.head? →
    (ts ≠ [] → s.owed = 0 ∧ ∀ c ∈ base.head?, isIndent c = false) →
    ∃ new, segments base ts = new.reverse ++ base ∧
      Respaced (fusesInSegments none s.prev ts = true) s (flat ts) new

def SetsFromBlank (ts : List Segment) : Prop :=
  ∀ (s : Cursor) (b : Char) (base : List Char), isIndent b = true → base.head? = some '\\' →
    s.mode = .charQuote → s.owed = 1 → s.closing = true → s.prev = some '\\' →
    Lexed (.closed b) ts →
    ∃ new, segments (b :: base) ts = new.reverse ++ base ∧
      Respaced ((ts.head?.any fun u => u.kind = .code && breaks b u.text) = true ∨
        fusesInSegments none (some b) ts = true) s (b :: flat ts) new

def SetsFromGap (ts : List Segment) : Prop :=
  ∀ (s : Cursor) (base gap gap' : List Char) (due : Bool) (x : Option Char),
    (∀ t ∈ ts.head?, t.kind ≠ .code) → s.IdleAlong (flat ts) gap →
    Lexed (s.run (flat ts) gap) ts → (s.run (flat ts) gap).Sound (flat ts) →
    (∀ c ∈ gap, isSpace c = true) → (∀ c ∈ gap', isIndent c = true) →
    Pending (!ts.isEmpty) x gap [] due gap' → (due = true → s.prev.any ends = true) →
    ∃ new, segments (gap'.reverse ++ base) ts = new.reverse ++ (gap'.reverse ++ base) ∧
      new.head? = (flat ts).head? ∧ (ts = [] → new = []) ∧
      ∀ prev, Respaced (fusesInSegments none prev ts = true) s (gap ++ flat ts) (gap' ++ new)

theorem setsFrom_nil : SetsFrom [] ∧ SetsFromBlank [] ∧ SetsFromGap [] := by
  refine ⟨?_, ?_, ?_⟩
  · intro s base _ _ _ _
    exact ⟨[], rfl, by simpa [fusesInSegments, flat] using Respaced.finished s⟩
  · intro s b base _ _ hm ho hc _ _
    refine ⟨[b], rfl, ?_⟩
    simpa [fusesInSegments, flat] using respaced_closing hm ho hc (.finished _)
  · intro s base gap gap' due x _ hidle _ _ hg hg' hpending _
    refine ⟨[], rfl, rfl, fun _ => rfl, fun prev => ?_⟩
    have hgap : gap' = gap ∨ gap' = [] := by
      cases hpending with
      | kept => exact .inl rfl
      | due _ _ h =>
        rcases h with ⟨_, h⟩ | ⟨h, _⟩
        · cases h rfl
        · exact .inr h
    have htrail := Respaced.trailing (Cursor.idle_of_idleAlong hidle) hg hgap
    simpa [fusesInSegments, flat] using htrail

/-- A literal or a comment ends with a blank only if that is escaped. -/
theorem token_last {s : Cursor} {c : Char} {text rest : List Char}
    (hs : s.Sound (c :: text ++ rest)) (howed : s.owed = 0)
    (hmark : (s.advance c (text ++ rest)).1.kind ≠ .code)
    (hbusy : (s.advance c (text ++ rest)).2.BusyAlong rest text)
    (hidle : (s.run rest (c :: text)).Idle) :
    (∀ b ∈ (c :: text).getLast?, isIndent b = false) ∨
      ∃ front b, text = front ++ [b] ∧ isIndent b = true ∧
        (s.run (b :: rest) (c :: front)).mode = .charQuote ∧
        (s.run (b :: rest) (c :: front)).owed = 1 ∧
        (s.run (b :: rest) (c :: front)).closing = true ∧
        (s.run (b :: rest) (c :: front)).prev = some '\\' ∧
        s.run rest (c :: text) = .closed b := by
  rcases List.eq_nil_or_concat text with rfl | ⟨front, b, rfl⟩
  · left
    intro b hb
    have hcb : c = b := Option.some.inj hb
    subst hcb
    refine Bool.eq_false_iff.mpr fun hblank => ?_
    by_cases hi : s.Idle
    · rw [Cursor.advance_space hi (isSpace_of_isIndent hblank)] at hmark
      exact hmark rfl
    · have hone := (Cursor.escaped_of_blank hs hi hidle hblank).2.1
      rw [howed] at hone
      cases hone
  · rw [List.concat_eq_append] at *
    rw [Cursor.busyAlong_append] at hbusy
    have hrun : s.run rest (c :: (front ++ [b])) =
        ((s.run (b :: rest) (c :: front)).advance b rest).2 := by
      rw [← List.cons_append, Cursor.run_append]
      rfl
    cases hblank : isIndent b with
    | false =>
      left
      intro d hd
      rw [← List.cons_append, List.getLast?_append] at hd
      cases hd
      exact hblank
    | true =>
      right
      have hstate : s.run (b :: rest) (c :: front) =
          (s.advance c (front ++ [b] ++ rest)).2.run ([b] ++ rest) front := by
        rw [Cursor.run, List.append_assoc]
        rfl
      have hsound : (s.run (b :: rest) (c :: front)).Sound (b :: rest) := by
        apply Cursor.sound_run
        simpa using hs
      rw [hrun] at hidle ⊢
      rw [← hstate] at hbusy
      obtain ⟨hm, ho, hc, hp, he⟩ := Cursor.escaped_of_blank hsound hbusy.2.1 hidle hblank
      exact ⟨front, b, rfl, hblank, hm, ho, hc, hp, he⟩

/-- Behind the first character of a literal or a comment. -/
theorem respaced_token {ts : List Segment} (hfrom : SetsFrom ts) (hblank : SetsFromBlank ts)
    {s : Cursor} {c : Char} {text : List Char} (out : List Char)
    (hs : s.Sound (c :: text ++ flat ts)) (howed : s.owed = 0)
    (hmark : (s.advance c (text ++ flat ts)).1.kind ≠ .code)
    (hbusy : (s.advance c (text ++ flat ts)).2.BusyAlong (flat ts) text)
    (hidle : ts ≠ [] → (s.run (flat ts) (c :: text)).Idle)
    (hlexed : Lexed (s.run (flat ts) (c :: text)) ts) :
    ∃ new, segments ((c :: text).reverse ++ out) ts = new.reverse ++ (c :: out) ∧
      Respaced
        ((ts.head?.any fun u => u.kind = .code && (c :: text).getLast?.any (breaks · u.text)) =
          true ∨ fusesInSegments none (c :: text).getLast? ts = true)
          (s.advance c (text ++ flat ts)).2
        (text ++ flat ts) new := by
  have hsound : (s.run (flat ts) (c :: text)).Sound (flat ts) := Cursor.sound_run hs
  have hprev := Cursor.prev_run s (flat ts) c text
  have hhead : ((c :: text).reverse ++ out).head? = (c :: text).getLast? :=
    head?_reverse_append [] c text out
  have hstart : ∀ front : List Char, (c :: front).reverse ++ out = front.reverse ++ (c :: out) := by
    intro front
    simp
  by_cases hlast : ts ≠ [] → ∀ b ∈ (c :: text).getLast?, isIndent b = false
  · -- nothing can be taken from the end, so the whole text is copied
    obtain ⟨new, hnew, hres⟩ := hfrom _ ((c :: text).reverse ++ out) hlexed hsound
      (hprev.trans hhead.symm) fun hne => ⟨(hidle hne).2, hhead ▸ hlast hne⟩
    refine ⟨text ++ new, ?_, ?_⟩
    · rw [hnew, hstart, List.reverse_append, List.append_assoc]
    · have hkeep : (ts.head?.any fun u =>
          u.kind = .code && (c :: text).getLast?.any (breaks · u.text)) = false := by
        cases ts with
        | nil => rfl
        | cons u us =>
          have hb := hlast (by simp)
          cases hl : (c :: text).getLast? with
          | none => simp at hl
          | some b => simp [breaks, hb b hl]
      rw [hkeep, ← hprev]
      simpa using respaced_copy hbusy hres
  · have hne : ts ≠ [] := fun h => hlast fun h' => absurd h h'
    rcases token_last hs howed hmark hbusy (hidle hne)
      with hkeep | ⟨front, b, rfl, hb, hm, ho, hc, hp, he⟩
    · exact absurd (fun _ => hkeep) hlast
    rw [he] at hlexed
    have hbase : ((c :: front).reverse ++ out).head? = some '\\' := by
      rw [show (c :: front).reverse = ([] ++ c :: front).reverse from rfl, head?_reverse_append,
        ← Cursor.prev_run s (b :: flat ts) c front, hp]
    obtain ⟨new, hnew, hres⟩ := hblank _ b ((c :: front).reverse ++ out) hb hbase hm ho hc hp hlexed
    refine ⟨front ++ new, ?_, ?_⟩
    · rw [List.reverse_append, List.append_assoc, ← hstart, ← hnew]
      simp
    · have hlast' : (c :: (front ++ [b])).getLast? = some b := by
        rw [← List.cons_append, List.getLast?_append]
        rfl
      rw [Cursor.busyAlong_append] at hbusy
      rw [hlast', List.append_assoc]
      rw [Cursor.run] at hres
      have hcopy := respaced_copy hbusy.1 (by simpa using hres)
      simpa using hcopy

/-- In front of a literal or a comment, what stands before does not matter. -/
theorem fusesInSegments_token {t : Segment} (ht : t.kind ≠ .code) (special : Option Nat)
    (prev : Option Char) (ts : List Segment) :
    fusesInSegments special prev (t :: ts) =
      ((ts.head?.any fun u => u.kind = .code && t.text.getLast?.any (breaks · u.text)) ||
        fusesInSegments none t.text.getLast? ts) := by
  rw [fusesInSegments, if_neg ht]

/-- From a pending gap on: the next segment decides what becomes of it. -/
theorem setsFromGap_cons {t : Segment} {ts : List Segment} (hfrom : SetsFrom ts)
    (hblank : SetsFromBlank ts) : SetsFromGap (t :: ts) := by
  intro s base gap gap' due x hkind hidle hlexed hsound hg hg' hpending hends
  have hs := Cursor.idle_of_idleAlong hidle
  rw [← List.append_nil gap] at hidle hlexed hsound
  obtain ⟨hpause, hrun⟩ := Cursor.idleAlong_gap hg hidle
  rw [Cursor.run] at hrun
  rw [hrun] at hlexed hsound
  cases hlexed with
  | code => exact absurd rfl (hkind _ rfl)
  | @token _ kind c text _ hne hmark hbusy hidle' hlater =>
    have hmark' : ((s.pause gap).advance c (text ++ flat ts)).1.kind ≠ .code := by
      rw [show flat ts = ts.flatMap Segment.text from rfl, hmark]
      exact hne
    obtain ⟨hchar, hbusy'⟩ := Cursor.opener_of_mark hpause hmark'
    obtain ⟨new, hnew, hres⟩ := respaced_token hfrom hblank (gap'.reverse ++ base) hsound hpause.2
      hmark' hbusy hidle' hlater
    have hmoved : Moved s.prev c gap gap' := by
      cases hpending with
      | kept => exact .kept
      | due _ _ h =>
        rcases h with ⟨rfl, _⟩ | ⟨_, _, h⟩
        · exact .spaced (.inr (hends rfl))
        · cases h rfl
    refine ⟨c :: new, ?_, rfl, (fun h => by cases h), fun prev => ?_⟩
    · rw [segments, if_neg hne, hnew]
      simp
    · rw [fusesInSegments_token hne]
      have hcomma : c = ',' → new.head? ≠ some '\'' := by
        rintro rfl
        exact absurd hchar (by decide)
      have hset :=
        Respaced.set hs hg (fun d hd => isSpace_of_isIndent (hg' d hd)) hmoved hcomma hres
      have hnot : ¬ Joined (s.pause gap).prev c (text ++ flat ts) new :=
        not_joined_of_busy hres hbusy' (Cursor.prev_advance _ c _)
      rw [propext (or_iff_right hnot)] at hset
      rw [Bool.or_eq_true]
      exact hset

/-- A stretch of code, from a pending gap on, and all segments behind it. -/
theorem respaced_stretch {ts : List Segment} (hafter : SetsFromGap ts) (special : Option Nat)
    (gap gap' : List Char) {s : Cursor} {due : Bool} {text front base : List Char}
    (hbase : ∀ c ∈ base.head?, isIndent c = false) (hg : ∀ c ∈ gap, isSpace c = true)
    (hg' : ∀ c ∈ gap', isIndent c = true)
    (hpending : Pending (!ts.isEmpty) base.head? gap text due gap')
    (hfront : due = false → gap ≠ [] → ∀ c ∈ front.head?, isIndent c = true)
    (hmarked : Marked special text) (hkind : ∀ t ∈ ts.head?, t.kind ≠ .code)
    (hprev : s.prev = base.head? ∨ (base.head? = none ∧ s.prev.all isSpace = true))
    (hends : due = true → s.prev.any ends = true) (hidle : s.IdleAlong (flat ts) (gap ++ text))
    (hlexed : Lexed (s.run (flat ts) (gap ++ text)) ts)
    (hsound : (s.run (flat ts) (gap ++ text)).Sound (flat ts)) (prev : Option Char) :
    ∃ new, segments (code (!ts.isEmpty) special 0 front (gap'.reverse ++ base) text) ts =
        new.reverse ++ base ∧
      Respaced (joinsInCode (special.map (· + gap.length)) s.prev (gap ++ text) = true ∨
        fusesInSegments none prev ts = true) s (gap ++ text ++ flat ts) new := by
  obtain ⟨front', hprogress⟩ := progress_code text hbase hg hg' hpending hfront hmarked
  generalize hout : code (!ts.isEmpty) special 0 front (gap'.reverse ++ base) text = out
    at hprogress ⊢
  cases hprogress with
  | @mk old new trail trail' _ _ due₁ hcs _ htrail htrail' _ hspaced hpending₁ =>
    rw [List.append_nil] at hcs hspaced
    rw [hcs] at hidle hlexed hsound ⊢
    rw [Cursor.run_append] at hlexed hsound
    have hends₁ := ends_run_of_spaced hspaced hends (trail ++ flat ts)
    obtain ⟨later, hlater, hhead, hnil, hres⟩ :=
      hafter _ (new.reverse ++ base) trail trail' due₁ _ hkind
      (Cursor.idleAlong_append hidle) hlexed hsound htrail htrail' hpending₁ hends₁
    refine ⟨new ++ (trail' ++ later), ?_, ?_⟩
    · rw [hlater]
      simp
    · rw [List.append_assoc]
      refine respaced_spaced hspaced hprev hends hidle htrail hpending₁ htrail' hhead ?_ (hres prev)
      intro hmore
      refine hnil ?_
      simpa using hmore

/-- Segment by segment, from where no gap is pending. -/
theorem setsFrom_cons {t : Segment} {ts : List Segment} (hfrom : SetsFrom ts)
    (hblank : SetsFromBlank ts) (hafter : SetsFromGap ts) : SetsFrom (t :: ts) := by
  intro s base hlexed hsound hprev hstart
  obtain ⟨howed, hbase⟩ := hstart (by simp)
  cases hlexed with
  | @code _ text _ hidle hnext hlater =>
    obtain ⟨new, hnew, hres⟩ := respaced_stretch hafter none [] [] hbase nofun nofun .kept
      (fun _ h => absurd rfl h) nofun hnext (.inl hprev) nofun hidle hlater
        (Cursor.sound_run hsound)
      text.getLast?
    refine ⟨new, hnew, ?_⟩
    rw [fusesInSegments, if_pos rfl, Bool.or_eq_true]
    simpa [flat] using hres
  | @token _ kind c text _ hne hmark hbusy hidle hlater =>
    have hmark' : (s.advance c (text ++ flat ts)).1.kind ≠ .code := by
      rw [show flat ts = ts.flatMap Segment.text from rfl, hmark]
      exact hne
    by_cases hs : s.Idle
    · have hgap : SetsFromGap (⟨kind, c :: text⟩ :: ts) := setsFromGap_cons hfrom hblank
      obtain ⟨new, hnew, _, _, hres⟩ := hgap s base [] [] false none (by simpa using hne) hs
        (.token hne hmark hbusy hidle hlater) hsound nofun nofun .kept nofun
      exact ⟨new, hnew, hres s.prev⟩
    · -- the line goes on inside what the line above left open
      obtain ⟨new, hnew, hres⟩ :=
        respaced_token hfrom hblank base hsound howed hmark' hbusy hidle hlater
      refine ⟨c :: new, ?_, ?_⟩
      · rw [segments, if_neg hne, hnew]
        simp
      · rw [fusesInSegments_token hne, Bool.or_eq_true]
        exact .copied hs hres

/-- An escaped blank before code: it is kept, or it is lost to the first character `y` of the
code. -/
theorem respaced_blank {fused : Prop} {special : Option Nat} {s : Cursor} {b y : Char}
    {gap gap' rest old new : List Char} (hb : isIndent b = true) (hm : s.mode = .charQuote)
    (ho : s.owed = 1) (hc : s.closing = true) (hp : s.prev = some '\\')
    (hgap : ∀ c ∈ gap, isIndent c = true)
    (hlaid : Laid special false (some '\\') y (b :: gap) rest gap')
    (h : ∀ kept : List Char, (∀ c ∈ kept, isIndent c = true) → Moved (some b) y gap kept →
      Respaced fused (.closed b) (gap ++ y :: old) (kept ++ y :: new)) :
    Respaced ((y == ',' || (b == '\t' && setsOff special y rest)) = true ∨ fused) s
      (b :: (gap ++ y :: old)) (gap' ++ y :: new) := by
  cases hlaid with
  | kept _ hkept =>
    obtain ⟨hne, hoff⟩ := hkept (by simp)
    simpa [hne, hoff] using respaced_closing hm ho hc (h gap hgap .kept)
  | comma hy =>
    have hne : y ≠ b := by
      rintro rfl
      rw [hy] at hb
      exact absurd hb (by decide)
    rw [eq_true (p := _ ∨ _) (.inl (by simp [hy]))]
    exact .broken hm ho hc hp hne (.inl hy)
  | off hop hoff =>
    have hne := ne_comma_of_isOperatorChar hop
    have hset := hoff rfl (by simp)
    simp only [isIndent, Bool.or_eq_true, beq_iff_eq] at hb
    rcases hb with rfl | rfl
    · simpa [hne, isOpener]
        using respaced_closing hm ho hc (h [] (fun _ h => by cases h) (.opened hop rfl))
    · rw [eq_true (p := _ ∨ _) (.inl (by simp [hset]))]
      exact .broken hm ho hc hp (by decide) (.inr rfl)
  | after hdue => cases hdue

/-- Code behind an escaped blank: the blank is kept, or it is lost to the first character of the
code. -/
theorem setsFromBlank_code {text : List Char} {ts : List Segment}
    (hafter : SetsFromGap ts) {s : Cursor} {b : Char} {base : List Char} (hb : isIndent b = true)
    (hbase : base.head? = some '\\') (hm : s.mode = .charQuote) (ho : s.owed = 1)
    (hc : s.closing = true) (hp : s.prev = some '\\')
    (hidle : (Cursor.closed b).IdleAlong (flat ts) text) (hnext : ∀ t ∈ ts.head?, t.kind ≠ .code)
    (hlexed : Lexed ((Cursor.closed b).run (flat ts) text) ts) (prev : Option Char) :
    ∃ new, segments (code (!ts.isEmpty) none 0 [] (b :: base) text) ts = new.reverse ++ base ∧
      Respaced (breaks b text = true ∨ joinsInCode none (some b) text = true ∨
        fusesInSegments none prev ts = true) s (b :: (text ++ flat ts)) new := by
  have hsound : ((Cursor.closed b).run (flat ts) text).Sound (flat ts) :=
    Cursor.sound_run (Cursor.sound_closed b _)
  have hbase' : ∀ c ∈ base.head?, isIndent c = false := by
    rw [hbase]
    rintro c ⟨⟩
    decide
  have hgap : ∀ c ∈ [b], isIndent c = true := by simpa using hb
  have hcode : ∃ front, Progress (!ts.isEmpty) none false [b] base text
      (code (!ts.isEmpty) none 0 [] ([b].reverse ++ base) text) front [] :=
    progress_code text hbase' (fun c hc => isSpace_of_isIndent (hgap c hc)) hgap .kept
      (fun _ _ _ h => by cases h) (fun _ h => by cases h)
  obtain ⟨front, hprogress⟩ := hcode
  rw [List.reverse_singleton, List.singleton_append] at hprogress
  generalize code (!ts.isEmpty) none 0 [] (b :: base) text = out at hprogress ⊢
  cases hprogress with
  | @mk old new trail trail' _ _ due hcs _ htrail htrail' _ hspaced hpending =>
    rw [List.append_nil] at hcs hspaced
    rw [hbase] at hspaced
    generalize (new.reverse ++ base).head? = x at hspaced hpending
    cases hspaced with
    | nil =>
      -- there are only blanks, and they are kept
      cases hpending with
      | kept =>
        rw [List.nil_append, List.singleton_append] at hcs
        subst hcs
        have hblanks : ∀ c ∈ text, isIndent c = true :=
          fun c hc => htrail' c (List.mem_cons_of_mem b hc)
        have hspaces : ∀ c ∈ text, isSpace c = true :=
          fun c hc => isSpace_of_isIndent (hblanks c hc)
        obtain ⟨later, hlater, _, _, hres⟩ :=
          hafter (.closed b) (b :: base) text text false none hnext
          hidle hlexed hsound hspaces hblanks .kept nofun
        refine ⟨b :: (text ++ later), by simpa using hlater, ?_⟩
        rw [breaks_blanks b hblanks, joinsInCode_blanks none (some b) hspaces]
        simpa using respaced_closing hm ho hc (hres prev)
    | @cons _ _ due₁ _ _ _ y gap gap' old new hg hgi hg' hy hlaid hdue hcomma hspaced =>
      obtain ⟨d, rfl⟩ : ∃ d, gap = b :: d := by
        cases gap with
        | nil =>
          cases hcs
          rw [hb] at hy
          cases hy
        | cons c d =>
          cases hcs
          exact ⟨d, rfl⟩
      change Spaced trail (shift none 1) due₁ (some y) old new due x at hspaced
      have hd : ∀ c ∈ d, isSpace c = true := fun c hc => hg c (List.mem_cons_of_mem b hc)
      have hdi : ∀ c ∈ d, isIndent c = true := fun c hc => hgi rfl c (List.mem_cons_of_mem b hc)
      have htext : text = d ++ y :: (old ++ trail) := by simpa using hcs
      subst htext
      obtain ⟨⟨_, hidle₁⟩, hrun⟩ := Cursor.idleAlong_gap hd hidle
      rw [hrun, Cursor.run, Cursor.run_append] at hlexed hsound
      rw [List.append_assoc] at hidle₁ hlexed hsound
      have hprev := Cursor.prev_advance ((Cursor.closed b).pause d) y (old ++ (trail ++ flat ts))
      have hends : due₁ = true →
          (((Cursor.closed b).pause d).advance y (old ++ (trail ++ flat ts))).2.prev.any
          ends = true := by
        intro h
        rw [hprev]
        exact hdue h
      obtain ⟨later, hlater, hhead, hnil, hres⟩ :=
        hafter _ ((gap' ++ y :: new).reverse ++ base) trail trail'
        due x hnext (Cursor.idleAlong_append hidle₁) hlexed hsound htrail htrail' hpending
        (ends_run_of_spaced hspaced hends (trail ++ flat ts))
      have hmore : (!ts.isEmpty) = false → later = [] := by
        intro h
        refine hnil ?_
        simpa using h
      -- what stands behind `y`, and then `y` with its gap less the blank
      have htail :=
        respaced_spaced hspaced (.inl hprev) hends hidle₁ htrail hpending htrail' hhead hmore
        (hres prev)
      have hkeep : ∀ kept : List Char, (∀ c ∈ kept, isIndent c = true) → Moved (some b) y d kept →
          Respaced (joinsInCode none (some b) (d ++ y :: (old ++ trail)) = true ∨
              fusesInSegments none prev ts = true) (.closed b)
              (d ++ y :: (old ++ (trail ++ flat ts)))
            (kept ++ y :: (new ++ (trail' ++ later))) := by
        intro kept hkept hmoved
        have hchar :=
          respaced_char (Cursor.idle_closed b) hd hkept hmoved hdue hcomma hspaced hpending
          htrail' hhead hmore htail
        rw [hprev, ← or_assoc, ← Bool.or_eq_true, prev_pause] at hchar
        rw [joinsInCode_append none (some b) (plain_of_isSpace hd)]
        exact hchar
      refine ⟨gap' ++ y :: (new ++ (trail' ++ later)), ?_, ?_⟩
      · rw [hlater]
        simp
      · rw [breaks_gap b hdi hy, hb, Bool.true_and, List.append_assoc, List.cons_append,
          List.append_assoc]
        exact respaced_blank hb hm ho hc hp hdi hlaid hkeep

/-- Segment by segment, from behind a blank. -/
theorem setsFromBlank_cons {t : Segment} {ts : List Segment} (hfrom : SetsFrom ts)
    (hblank : SetsFromBlank ts) (hafter : SetsFromGap ts) : SetsFromBlank (t :: ts) := by
  intro s b base hb hbase hm ho hc hp hlexed
  cases hlexed with
  | @code _ text _ hidle hnext hlater =>
    obtain ⟨new, hnew, hres⟩ :=
      setsFromBlank_code hafter hb hbase hm ho hc hp hidle hnext hlater text.getLast?
    refine ⟨new, hnew, ?_⟩
    rw [fusesInSegments, if_pos rfl, Bool.or_eq_true]
    simpa [flat] using hres
  | @token _ kind c text _ hne hmark hbusy hidle hlater =>
    have hgap : SetsFromGap (⟨kind, c :: text⟩ :: ts) := setsFromGap_cons hfrom hblank
    obtain ⟨new, hnew, _, _, hres⟩ :=
      hgap (.closed b) (b :: base) [] [] false none (by simpa using hne)
      (Cursor.idle_closed b) (.token hne hmark hbusy hidle hlater) (Cursor.sound_closed b _)
        nofun nofun .kept
      nofun
    refine ⟨b :: new, by simpa using hnew, ?_⟩
    simpa [hne] using respaced_closing hm ho hc (hres (some b))

/-- Every list of segments is set so, from wherever the scanner stands. -/
theorem setsFrom (ts : List Segment) : SetsFrom ts ∧ SetsFromBlank ts ∧ SetsFromGap ts := by
  induction ts with
  | nil => exact setsFrom_nil
  | cons t ts ih =>
    obtain ⟨hfrom, hblank, hafter⟩ := ih
    exact ⟨setsFrom_cons hfrom hblank hafter, setsFromBlank_cons hfrom hblank hafter,
      setsFromGap_cons hfrom hblank⟩

end Gaps

end ScratchFormat
