import ScratchFormat.Proofs.Respaced

/-! How the segments of a line come out of the scanner: it reads code idly, stays busy inside a
literal or a comment, and is idle again behind it. -/

namespace ScratchFormat

theorem Mode.kind_eq_code {m : Mode} : m.kind = .code ↔ m = .code := by
  cases m <;> simp [Mode.kind]

def Step.Fits (mode : Mode) (c : Char) (rest : List Char) : Step → Prop
  | .stay m n => m.kind = mode.kind ∧ n ≤ 1 ∧ (m = .code → n = 0)
  | .enter m n => mode = .code ∧ m ≠ .code ∧ n ≤ 2
  | .whole n => mode = .code ∧ questionLength? rest = some n
  | .leave n => mode ≠ .code ∧
      (n = 0 ∧ isIndent c = false ∨ n = 1 ∧ rest.head? = some '\x7d' ∨
        n = 2 ∧ ∃ rest', rest = '"' :: '"' :: rest')

/-- In code every step fits the character that it is made for. -/
theorem stepCode_fits (prev : Option Char) (c : Char) (rest : List Char) :
    (stepCode prev c rest).Fits .code c rest := by
  unfold stepCode
  split
  · split <;> simp [Step.Fits]
  split
  · split <;> simp [Step.Fits]
  split
  · split
    · simp [Step.Fits]
    · split
      · rename_i n hn
        exact ⟨rfl, hn⟩
      · simp [Step.Fits]
  split
  · simp [Step.Fits]
  split
  · simp [Step.Fits]
  split <;> simp [Step.Fits]

/-- Inside quotes every step fits the character that it is made for. -/
theorem stepQuoted_fits (mode : Mode) (quote : Char) (hm : mode ≠ .code)
    (hq : isIndent quote = false) (c : Char) (rest : List Char) :
    (stepQuoted mode quote c).Fits mode c rest := by
  unfold stepQuoted
  split
  · exact ⟨rfl, Nat.le_refl 1, fun h => absurd h hm⟩
  split
  · rename_i hc
    exact ⟨hm, .inl ⟨rfl, hc ▸ hq⟩⟩
  · exact ⟨rfl, Nat.zero_le 1, fun h => absurd h hm⟩

/-- Inside a nest every step fits the character that it is made for. -/
theorem stepNested_fits (mode : Nat → Mode) (opening closing : Char × Char)
    (hm : ∀ n, mode n ≠ .code) (hkind : ∀ m n, (mode m).kind = (mode n).kind)
    (hc : closing.2 = '\x7d') (depth : Nat) (c : Char) (rest : List Char) :
    (stepNested mode opening closing depth c rest).Fits (mode depth) c rest := by
  unfold stepNested
  split
  · exact ⟨hkind _ _, Nat.le_refl 1, fun h => absurd h (hm _)⟩
  split
  · rename_i hclose
    split
    · exact ⟨hm depth, .inr (.inl ⟨rfl, hc ▸ hclose.2⟩)⟩
    · exact ⟨hkind _ _, Nat.le_refl 1, fun h => absurd h (hm _)⟩
  · exact ⟨rfl, Nat.zero_le 1, fun h => absurd h (hm _)⟩

/-- Every step fits the mode and the character that it is made for. -/
theorem step_fits (mode : Mode) (prev : Option Char) (c : Char) (rest : List Char) :
    (step mode prev c rest).Fits mode c rest := by
  cases mode with
  | code => exact stepCode_fits prev c rest
  | charQuote => exact stepQuoted_fits .charQuote '\'' (by decide) (by decide) c rest
  | string => exact stepQuoted_fits .string '"' (by decide) (by decide) c rest
  | longString =>
    simp only [step]
    split
    · rename_i hc
      obtain ⟨rest', hr⟩ := List.isPrefixOf_iff_prefix.mp hc.2
      exact ⟨by decide, .inr (.inr ⟨rfl, rest', hr.symm⟩)⟩
    · exact ⟨rfl, Nat.zero_le 1, fun h => by cases h⟩
  | lineComment => exact ⟨rfl, Nat.zero_le 1, fun h => by cases h⟩
  | blockComment d =>
    exact stepNested_fits .blockComment _ ('-', '\x7d') (fun _ h => by cases h)
      (fun _ _ => rfl) rfl d c rest
  | docBlock d =>
    exact stepNested_fits .docBlock _ ('\x7d', '\x7d') (fun _ h => by cases h)
      (fun _ _ => rfl) rfl d c rest

namespace Cursor

/-- The scanner before `cs`: what it owes lies inside a literal or a comment, and the last character
owed is a blank only after a backslash. -/
structure Sound (s : Cursor) (cs : List Char) : Prop where
  owed_of_code : s.mode = .code → s.owed = 0
  code_of_fresh : s.fresh = true → s.mode = .code
  owed_le : s.owed ≤ 2
  last : s.closing = true → s.owed = 1 →
    (s.prev = some '\\' ∧ s.mode = .charQuote) ∨ ∀ c ∈ cs.head?, isIndent c = false
  last_two : s.closing = true → s.owed = 2 →
    (cs.head? = some '\\' ∧ s.mode = .charQuote) ∨ ∀ c ∈ cs[1]?, isIndent c = false

theorem sound_start (mode : Mode) (cs : List Char) : (start mode).Sound cs :=
  ⟨fun _ => rfl, nofun, Nat.zero_le 2, nofun, nofun⟩

theorem sound_closed (c : Char) (cs : List Char) : (closed c).Sound cs :=
  ⟨fun _ => rfl, fun _ => rfl, Nat.zero_le 2, nofun, nofun⟩

theorem idle_closed (c : Char) : (closed c).Idle := ⟨rfl, rfl⟩

/-- A literal of one character does not hold a blank. -/
theorem not_isIndent_of_questionLength? {cs : List Char} (h : questionLength? cs = some 1) :
    ∀ c ∈ cs.head?, isIndent c = false := by
  intro c hc
  obtain ⟨rest, rfl⟩ := List.head?_eq_some_iff.mp hc
  refine Bool.eq_false_iff.mpr fun hindent => ?_
  have hspace := isSpace_of_isIndent hindent
  unfold questionLength? at h
  split at h
  · cases h
  · cases h
  · rename_i heq
    cases heq
    rw [if_pos hspace] at h
    cases h
  · cases h

theorem head_of_questionLength? {cs : List Char} (h : questionLength? cs = some 2) :
    cs.head? = some '\\' := by
  unfold questionLength? at h
  split at h
  · rfl
  · cases h
  · split at h <;> cases h
  · cases h

theorem questionLength?_le {cs : List Char} {n : Nat} (h : questionLength? cs = some n) :
    n = 1 ∨ n = 2 := by
  unfold questionLength? at h
  split at h
  · cases h; exact .inr rfl
  · cases h
  · split at h
    · cases h
    · cases h; exact .inl rfl
  · cases h

/-- The scanner stays sound behind every character. -/
theorem sound_advance {s : Cursor} {c : Char} {cs : List Char} (hs : s.Sound (c :: cs)) :
    (s.advance c cs).2.Sound cs := by
  have hfits := step_fits s.mode s.prev c cs
  unfold advance
  split
  · rename_i n hn
    by_cases hlast : n = 0 ∧ s.closing = true
    · rw [if_pos hlast]
      exact sound_closed c cs
    · rw [if_neg hlast]
      refine ⟨fun hm => ?_, nofun, ?_, fun hc h1 => ?_, fun hc h2 => ?_⟩
      · have := hs.owed_of_code hm
        omega
      · have := hs.owed_le
        simp only
        omega
      · rcases hs.last_two hc (by simp only at h1; omega) with ⟨hhead, hm⟩ | hblank
        · exact .inl ⟨hhead, hm⟩
        · exact .inr (by simpa [List.head?_eq_getElem?] using hblank)
      · have := hs.owed_le
        simp only at h2
        omega
  · split
    · rename_i m n hstep
      rw [hstep] at hfits
      exact ⟨hfits.2.2, nofun, Nat.le_trans hfits.2.1 (by decide), nofun, nofun⟩
    · rename_i m n hstep
      rw [hstep] at hfits
      exact ⟨fun h => absurd h hfits.2.1, nofun, hfits.2.2, nofun, nofun⟩
    · rename_i n hstep
      rw [hstep] at hfits
      refine ⟨nofun, nofun, ?_, fun _ h1 => ?_, fun _ h2 => ?_⟩
      · have := questionLength?_le hfits.2
        simp only
        omega
      · simp only at h1
        subst h1
        exact .inr (not_isIndent_of_questionLength? hfits.2)
      · simp only at h2
        subst h2
        exact .inl ⟨head_of_questionLength? hfits.2, rfl⟩
    · exact sound_closed c cs
    · rename_i n hstep
      rw [hstep] at hfits
      obtain ⟨hm, hn⟩ := hfits
      refine ⟨fun h => absurd h hm, nofun, ?_, fun _ h1 => .inr ?_, fun _ h2 => .inr ?_⟩
      · simp only
        omega
      · simp only at h1
        rcases hn with ⟨h, _⟩ | ⟨_, hhead⟩ | ⟨h, _⟩
        · omega
        · intro d hd
          rw [hhead] at hd
          cases hd
          decide
        · omega
      · simp only at h2
        rcases hn with ⟨h, _⟩ | ⟨h, _⟩ | ⟨_, rest', rfl⟩
        · omega
        · omega
        · intro d hd
          cases hd
          decide

/-- An idle scanner goes on in code or opens a segment. -/
theorem mark_of_idle {s : Cursor} (hs : s.Idle) (c : Char) (cs : List Char) :
    ((s.advance c cs).1.kind = .code ∧ (s.advance c cs).1.fresh = s.fresh) ∨
      ((s.advance c cs).1.kind ≠ .code ∧ (s.advance c cs).1.fresh = true) := by
  have hfits := stepCode_fits s.prev c cs
  rw [advance_idle hs]
  cases hstep : stepCode s.prev c cs with
  | stay m n => exact .inl ⟨rfl, rfl⟩
  | enter m n =>
    rw [hstep] at hfits
    exact .inr ⟨fun h => hfits.2.1 (Mode.kind_eq_code.mp h), rfl⟩
  | whole n => exact .inr ⟨nofun, rfl⟩
  | leave n =>
    rw [hstep] at hfits
    exact absurd rfl hfits.1

/-- A busy scanner goes on with its segment. -/
theorem mark_of_busy {s : Cursor} {c : Char} {cs : List Char} (hs : s.Sound (c :: cs))
    (hbusy : ¬ s.Idle) :
    (s.advance c cs).1.kind = s.mode.kind ∧ (s.advance c cs).1.fresh = false := by
  have hmode : s.mode ≠ .code := fun hm => hbusy ⟨hm, hs.owed_of_code hm⟩
  have hfresh : s.fresh = false := Bool.eq_false_iff.mpr fun h => hmode (hs.code_of_fresh h)
  have hfits := step_fits s.mode s.prev c cs
  unfold advance
  split
  · exact ⟨rfl, rfl⟩
  · split
    · exact ⟨rfl, hfresh⟩
    · rename_i hstep
      rw [hstep] at hfits
      exact absurd hfits.1 hmode
    · rename_i hstep
      rw [hstep] at hfits
      exact absurd hfits.1 hmode
    · exact ⟨rfl, hfresh⟩
    · exact ⟨rfl, hfresh⟩

/-- Where the scanner stands behind a character: still in code, still inside a literal or a comment,
or idle because one has just ended. -/
theorem next_cases {s : Cursor} {c : Char} {cs : List Char} (hs : s.Sound (c :: cs)) :
    ((s.advance c cs).1.kind = .code ∧ (s.advance c cs).2.Idle ∧
        (s.advance c cs).2.fresh = false) ∨
      ((s.advance c cs).1.kind ≠ .code ∧ ¬ (s.advance c cs).2.Idle ∧
        (s.advance c cs).2.mode.kind = (s.advance c cs).1.kind) ∨
      ((s.advance c cs).1.kind ≠ .code ∧ (s.advance c cs).2 = closed c) := by
  have hfits := step_fits s.mode s.prev c cs
  have hbusy : ∀ {m : Mode}, m ≠ .code → m.kind ≠ .code := fun hm h => hm (Mode.kind_eq_code.mp h)
  unfold advance
  split
  · rename_i n hn
    have hm : s.mode ≠ .code := fun hm => by have := hs.owed_of_code hm; omega
    by_cases hlast : n = 0 ∧ s.closing = true
    · rw [if_pos hlast]
      exact .inr (.inr ⟨hbusy hm, rfl⟩)
    · rw [if_neg hlast]
      exact .inr (.inl ⟨hbusy hm, fun h => hm h.1, rfl⟩)
  · split
    · rename_i m n hstep
      rw [hstep] at hfits
      by_cases hm : m = .code
      · refine .inl ⟨?_, ⟨hm, hfits.2.2 hm⟩, rfl⟩
        rw [← hfits.1, hm]
        rfl
      · refine .inr (.inl ⟨?_, fun h => hm h.1, hfits.1⟩)
        exact hfits.1 ▸ hbusy hm
    · rename_i m n hstep
      rw [hstep] at hfits
      exact .inr (.inl ⟨hbusy hfits.2.1, fun h => hfits.2.1 h.1, rfl⟩)
    · exact .inr (.inl ⟨nofun, (fun h => nomatch h.1), rfl⟩)
    · rename_i hstep
      rw [hstep] at hfits
      exact .inr (.inr ⟨hbusy hfits.1, rfl⟩)
    · rename_i n hstep
      rw [hstep] at hfits
      exact .inr (.inl ⟨hbusy hfits.1, fun h => hfits.1 h.1, rfl⟩)

/-- A mark that is not fresh goes on with the segment of the mark before it. -/
theorem kind_of_not_fresh {s : Cursor} {c d : Char} {cs : List Char} (hs : s.Sound (c :: d :: cs))
    (h : ((s.advance c (d :: cs)).2.advance d cs).1.fresh = false) :
    ((s.advance c (d :: cs)).2.advance d cs).1.kind = (s.advance c (d :: cs)).1.kind := by
  rcases next_cases hs with ⟨hkind, hidle, _⟩ | ⟨_, hbusy, hkind⟩ | ⟨_, hclosed⟩
  · rcases mark_of_idle hidle d cs with ⟨hcode, _⟩ | ⟨_, hfresh⟩
    · rw [hcode, hkind]
    · rw [h] at hfresh
      cases hfresh
  · rw [(mark_of_busy (sound_advance hs) hbusy).1, hkind]
  · rw [hclosed] at h
    rcases mark_of_idle (idle_closed c) d cs with ⟨_, hfresh⟩ | ⟨_, hfresh⟩
    · rw [h] at hfresh
      cases hfresh
    · rw [h] at hfresh
      cases hfresh

end Cursor

inductive Grouped : List Mark → Prop
  | nil : Grouped []
  | single (m : Mark) : Grouped [m]
  | cons {m n : Mark} {ms : List Mark} (h : n.fresh = false → n.kind = m.kind)
    (hs : Grouped (n :: ms)) : Grouped (m :: n :: ms)

theorem grouped_marks {s : Cursor} {cs : List Char} (hs : s.Sound cs) : Grouped (s.marks cs) := by
  induction cs generalizing s with
  | nil => exact .nil
  | cons c cs ih =>
    have hnext := ih (Cursor.sound_advance hs)
    cases cs with
    | nil => exact .single _
    | cons d cs => exact .cons (Cursor.kind_of_not_fresh hs) hnext

theorem kind_of_ofMarks {m : Mark} {ms : List Mark} {t : Segment} {ts : List Segment}
    (h : Segment.ofMarks (m :: ms) = t :: ts) : t.kind = m.kind := by
  cases ms with
  | nil =>
    cases h
    rfl
  | cons n ms =>
    obtain ⟨u, us, _, hm⟩ := ofMarks_cons_cons m n ms
    rw [hm] at h
    split at h <;> cases h <;> rfl

theorem ofMarks_cons_of_fresh (m : Mark) {ms : List Mark} (h : ∀ n ∈ ms.head?, n.fresh = true) :
    Segment.ofMarks (m :: ms) = ⟨m.kind, [m.char]⟩ :: Segment.ofMarks ms := by
  cases ms with
  | nil => rfl
  | cons n ms =>
    obtain ⟨t, ts, hn, hm⟩ := ofMarks_cons_cons m n ms
    rw [hm, if_pos (h n rfl), hn]

/-- The marks of literals and comments make up the segments that are not code. -/
theorem filter_ofMarks {ms : List Mark} (h : Grouped ms) :
    (Segment.ofMarks ms).filter (fun t => t.kind != .code) = Segment.ofMarks (tokenMarks ms) ∧
      ∀ m ∈ ms.head?, (m.kind = .code ∨ m.fresh = true) →
        ∀ n ∈ (tokenMarks ms).head?, n.fresh = true := by
  induction h with
  | nil => exact ⟨rfl, nofun⟩
  | single m =>
    cases hm : m.kind <;> simp [Segment.ofMarks, tokenMarks, hm]
  | @cons m n ms hkind _ ih =>
    obtain ⟨ihs, ihf⟩ := ih
    obtain ⟨t, ts, hn, hm⟩ := ofMarks_cons_cons m n ms
    have ht : t.kind = n.kind := kind_of_ofMarks hn
    rw [hn] at ihs
    by_cases hcode : m.kind = .code
    · have htokens : tokenMarks (m :: n :: ms) = tokenMarks (n :: ms) := by
        simp [tokenMarks, hcode]
      have hfirst : n.kind = .code ∨ n.fresh = true := by
        cases hfresh : n.fresh with
        | true => exact .inr rfl
        | false => exact .inl ((hkind hfresh).trans hcode)
      rw [htokens, hm, ← ihs]
      refine ⟨?_, fun _ _ _ => ihf n rfl hfirst⟩
      split
      · simp [hcode]
      · rename_i hfresh
        have hncode : n.kind = .code := (hkind (by simpa using hfresh)).trans hcode
        simp [hcode, ht, hncode]
    · have htokens : tokenMarks (m :: n :: ms) = m :: tokenMarks (n :: ms) := by
        simp [tokenMarks, hcode]
      rw [htokens, hm]
      constructor
      · split
        · rename_i hfresh
          -- the next literal or comment starts a segment of its own
          rw [ofMarks_cons_of_fresh m (ihf n rfl (.inr hfresh)), ← ihs]
          simp [hcode]
        · rename_i hfresh
          have hnkind : n.kind = m.kind := hkind (by simpa using hfresh)
          have hn' : tokenMarks (n :: ms) = n :: tokenMarks ms := by
            simp [tokenMarks, hnkind, hcode]
          obtain ⟨u, us, hu, hmu⟩ := ofMarks_cons_cons m n (tokenMarks ms)
          rw [hn', hmu, if_neg hfresh]
          rw [hn', hu, List.filter_cons_of_pos (by simp [ht, hnkind, hcode])] at ihs
          cases ihs
          simp [hcode]
      · intro _ hm' h k hk
        cases hm'
        cases hk
        exact h.resolve_left hcode

def Segment.kinds (t : Segment) : List (Char × Kind) :=
  (if t.kind = .code then solid t.text else t.text).map fun c => (c, t.kind)

/-- Segments have the characters of the marks with their kinds. -/
theorem flatMap_kinds_ofMarks {ms : List Mark} (h : Grouped ms) :
    (Segment.ofMarks ms).flatMap Segment.kinds = kindsOf ms := by
  have hsingle : ∀ m : Mark, Segment.kinds ⟨m.kind, [m.char]⟩ = kindsOf [m] := by
    intro m
    cases hm : m.kind <;> cases hc : isSpace m.char <;>
      simp [Segment.kinds, kindsOf, Mark.seen, solid, hm, hc]
  induction h with
  | nil => rfl
  | single m => simp [Segment.ofMarks, hsingle]
  | @cons m n ms hkind _ ih =>
    obtain ⟨t, ts, hn, hm⟩ := ofMarks_cons_cons m n ms
    rw [hn, List.flatMap_cons] at ih
    rw [hm, kindsOf_cons, ← ih, ← hsingle]
    split
    · rfl
    · rename_i hfresh
      have ht : t.kind = m.kind := (kind_of_ofMarks hn).trans (hkind (by simpa using hfresh))
      rw [List.flatMap_cons, ← List.append_assoc]
      congr 1
      by_cases hcode : m.kind = .code
      · cases hc : isSpace m.char <;> simp [Segment.kinds, solid, ht, hcode, hc]
      · simp [Segment.kinds, ht, hcode]

namespace ScannedLine

/-- The literals and comments of a line. -/
def tokens (l : ScannedLine) : List Segment := l.segments.filter fun t => t.kind != .code

/-- The characters of a line with the kind of text that each belongs to. White space in code is left
out. -/
def kinds (l : ScannedLine) : List (Char × Kind) := l.segments.flatMap Segment.kinds

end ScannedLine

theorem tokens_scanLine (mode : Mode) (raw : List Char) :
    (scanLine mode raw).tokens = Segment.ofMarks (tokenMarks ((Cursor.start mode).marks raw)) :=
  (filter_ofMarks (grouped_marks (Cursor.sound_start mode raw))).1

theorem kinds_scanLine (mode : Mode) (raw : List Char) :
    (scanLine mode raw).kinds = kindsOf ((Cursor.start mode).marks raw) :=
  flatMap_kinds_ofMarks (grouped_marks (Cursor.sound_start mode raw))

namespace Cursor

/-- The scanner behind `cs`, which `rest` follows. -/
def run (s : Cursor) (rest : List Char) : List Char → Cursor
  | [] => s
  | c :: cs => run (s.advance c (cs ++ rest)).2 rest cs

def IdleAlong (s : Cursor) (rest : List Char) : List Char → Prop
  | [] => s.Idle
  | c :: cs => s.Idle ∧ IdleAlong (s.advance c (cs ++ rest)).2 rest cs

def BusyAlong (s : Cursor) (rest : List Char) : List Char → Prop
  | [] => True
  | c :: cs => ¬ s.Idle ∧ BusyAlong (s.advance c (cs ++ rest)).2 rest cs

theorem sound_run {s : Cursor} {rest cs : List Char} (hs : s.Sound (cs ++ rest)) :
    (s.run rest cs).Sound rest := by
  induction cs generalizing s with
  | nil => exact hs
  | cons c cs ih => exact ih (sound_advance hs)

end Cursor

namespace Cursor

theorem prev_advance (s : Cursor) (c : Char) (rest : List Char) :
    (s.advance c rest).2.prev = some c := by
  unfold advance
  split
  · split <;> rfl
  · split <;> rfl

theorem prev_run (s : Cursor) (rest : List Char) (c : Char) (cs : List Char) :
    (s.run rest (c :: cs)).prev = (c :: cs).getLast? := by
  induction cs generalizing s c with
  | nil => exact prev_advance s c rest
  | cons d cs ih =>
    rw [run, ih, List.getLast?_cons_cons]

theorem run_append (s : Cursor) (rest cs ds : List Char) :
    s.run rest (cs ++ ds) = (s.run (ds ++ rest) cs).run rest ds := by
  induction cs generalizing s with
  | nil => rfl
  | cons c cs ih => rw [List.cons_append, run, ih, run, List.append_assoc]

theorem idleAlong_append {s : Cursor} {rest cs ds : List Char} (h : s.IdleAlong rest (cs ++ ds)) :
    (s.run (ds ++ rest) cs).IdleAlong rest ds := by
  induction cs generalizing s with
  | nil => exact h
  | cons c cs ih =>
    rw [List.cons_append, IdleAlong, List.append_assoc] at h
    exact ih h.2

theorem idleAlong_front {s : Cursor} {rest cs ds : List Char} (h : s.IdleAlong rest (cs ++ ds)) :
    s.IdleAlong (ds ++ rest) cs := by
  induction cs generalizing s with
  | nil => cases ds with
    | nil => exact h
    | cons d ds => exact h.1
  | cons c cs ih =>
    rw [List.cons_append, IdleAlong, List.append_assoc] at h
    exact ⟨h.1, ih h.2⟩

theorem idle_of_idleAlong {s : Cursor} {rest cs : List Char}
    (h : s.IdleAlong rest cs) : s.Idle := by
  cases cs with
  | nil => exact h
  | cons c cs => exact h.1

theorem idle_run_of_idleAlong {s : Cursor} {rest cs : List Char} (h : s.IdleAlong rest cs) :
    (s.run rest cs).Idle := by
  induction cs generalizing s with
  | nil => exact h
  | cons c cs ih => exact ih h.2

theorem busyAlong_append {s : Cursor} {rest cs ds : List Char} :
    s.BusyAlong rest (cs ++ ds) ↔
      s.BusyAlong (ds ++ rest) cs ∧ (s.run (ds ++ rest) cs).BusyAlong rest ds := by
  induction cs generalizing s with
  | nil => simp [BusyAlong, run]
  | cons c cs ih =>
    rw [List.cons_append, BusyAlong, ih, BusyAlong, run, List.append_assoc, and_assoc]

/-- The characters that open a literal or a comment. -/
theorem opener_of_mark {s : Cursor} (hs : s.Idle) {c : Char} {cs : List Char}
    (h : (s.advance c cs).1.kind ≠ .code) :
    (c = '"' ∨ c = '\'' ∨ c = '?' ∨ c = '-' ∨ c = '\x7b') ∧ ¬ (s.advance c cs).2.Idle := by
  have hfits := stepCode_fits s.prev c cs
  rw [advance_idle hs] at h ⊢
  refine ⟨Decidable.byContradiction fun hc => ?_, ?_⟩
  · simp only [not_or] at hc
    have hstep : stepCode s.prev c cs = .stay .code 0 := by
      simp [stepCode, hc.1, hc.2.1, hc.2.2.1, hc.2.2.2.1, hc.2.2.2.2]
    rw [hstep] at h
    exact h rfl
  · cases hstep : stepCode s.prev c cs with
    | stay m n =>
      rw [hstep] at h
      exact absurd rfl h
    | enter m n =>
      rw [hstep] at hfits
      exact fun hi => hfits.2.1 hi.1
    | whole n => exact fun hi => by cases hi.1
    | leave n =>
      rw [hstep] at hfits
      exact absurd rfl hfits.1

/-- Only an escaped character literal ends with a blank. -/
theorem escaped_of_blank {s : Cursor} {b : Char} {rest : List Char} (hs : s.Sound (b :: rest))
    (hbusy : ¬ s.Idle) (hidle : (s.advance b rest).2.Idle) (hb : isIndent b = true) :
    s.mode = .charQuote ∧ s.owed = 1 ∧ s.closing = true ∧ s.prev = some '\\' ∧
      (s.advance b rest).2 = closed b := by
  have hfits := step_fits s.mode s.prev b rest
  have hmode : s.mode ≠ .code := fun hm => hbusy ⟨hm, hs.owed_of_code hm⟩
  unfold advance at hidle ⊢
  split at hidle
  · rename_i n hn
    by_cases hlast : n = 0 ∧ s.closing = true
    · have howed : s.owed = 1 := by omega
      rcases hs.last hlast.2 howed with ⟨hp, hm⟩ | hblank
      · refine ⟨hm, howed, hlast.2, hp, ?_⟩
        simp only [if_pos hlast]
      · rw [hblank b rfl] at hb
        cases hb
    · rw [if_neg hlast] at hidle
      exact absurd hidle.1 hmode
  · split at hidle
    · rename_i m n hstep
      rw [hstep] at hfits
      refine absurd ?_ hmode
      have hm : m = .code := hidle.1
      rw [← Mode.kind_eq_code, ← hfits.1, hm]
      rfl
    · rename_i m n hstep
      rw [hstep] at hfits
      exact absurd hfits.1 hmode
    · exact nomatch hidle.1
    · rename_i hstep
      rw [hstep] at hfits
      rcases hfits.2 with ⟨_, hblank⟩ | ⟨h, _⟩ | ⟨h, _⟩
      · rw [hblank] at hb
        cases hb
      · cases h
      · cases h
    · exact absurd hidle.1 hmode

end Cursor

inductive Lexed : Cursor → List Segment → Prop
  | nil (s : Cursor) : Lexed s []
  | code {s : Cursor} {text : List Char} {ts : List Segment}
    (hidle : s.IdleAlong (ts.flatMap Segment.text) text)
    (hnext : ∀ t ∈ ts.head?, t.kind ≠ .code)
    (h : Lexed (s.run (ts.flatMap Segment.text) text) ts) : Lexed s (⟨.code, text⟩ :: ts)
  | token {s : Cursor} {kind : Kind} {c : Char} {text : List Char} {ts : List Segment}
    (hkind : kind ≠ .code) (hmark : (s.advance c (text ++ ts.flatMap Segment.text)).1.kind = kind)
    (hbusy : Cursor.BusyAlong (s.advance c (text ++ ts.flatMap Segment.text)).2
      (ts.flatMap Segment.text) text)
    (hidle : ts ≠ [] → (s.run (ts.flatMap Segment.text) (c :: text)).Idle)
    (h : Lexed (s.run (ts.flatMap Segment.text) (c :: text)) ts) : Lexed s (⟨kind, c :: text⟩ :: ts)

theorem Lexed.of_code {s : Cursor} {text : List Char} {ts : List Segment}
    (h : Lexed s (⟨.code, text⟩ :: ts)) :
    s.IdleAlong (ts.flatMap Segment.text) text ∧ (∀ t ∈ ts.head?, t.kind ≠ .code) ∧
      Lexed (s.run (ts.flatMap Segment.text) text) ts := by
  cases h with
  | code hidle hnext h => exact ⟨hidle, hnext, h⟩
  | token hkind => exact absurd rfl hkind

/-- A character of code is read idly, and leaves the scanner idle. -/
theorem Cursor.idle_of_code {s : Cursor} {c : Char} {cs : List Char} (hs : s.Sound (c :: cs))
    (hkind : (s.advance c cs).1.kind = .code) :
    s.Idle ∧ (s.advance c cs).2.Idle ∧ (s.advance c cs).2.fresh = false := by
  refine ⟨Decidable.byContradiction fun hbusy => ?_, ?_⟩
  · rw [(Cursor.mark_of_busy hs hbusy).1, Mode.kind_eq_code] at hkind
    exact hbusy ⟨hkind, hs.owed_of_code hkind⟩
  · rcases Cursor.next_cases hs with ⟨_, h⟩ | ⟨h, _⟩ | ⟨h, _⟩
    · exact h
    · exact absurd hkind h
    · exact absurd hkind h

section Lexed

variable {s : Cursor} {c d : Char} {cs : List Char} {t : Segment} {ts : List Segment}

/-- A character before segments, the first of which begins behind it, is a segment of its own. -/
theorem Lexed.cons_segment (hs : s.Sound (c :: d :: cs))
    (htext : (t :: ts).flatMap Segment.text = d :: cs)
    (hkind : t.kind = ((s.advance c (d :: cs)).2.advance d cs).1.kind)
    (hfresh : ((s.advance c (d :: cs)).2.advance d cs).1.fresh = true)
    (h : Lexed (s.advance c (d :: cs)).2 (t :: ts)) :
    Lexed s (⟨(s.advance c (d :: cs)).1.kind, [c]⟩ :: t :: ts) := by
  by_cases hcode : (s.advance c (d :: cs)).1.kind = .code
  · obtain ⟨hidle, hidle', hlater⟩ := Cursor.idle_of_code hs hcode
    rw [hcode]
    refine .code ?_ ?_ ?_
    · rw [htext]
      exact ⟨hidle, hidle'⟩
    · intro u hu hucode
      cases hu
      rcases Cursor.mark_of_idle hidle' d cs with ⟨_, h⟩ | ⟨h, _⟩
      · rw [hfresh, hlater] at h
        cases h
      · exact h (hkind ▸ hucode)
    · rw [htext]
      exact h
  · refine .token hcode ?_ trivial (fun _ => ?_) ?_
    · rw [htext]
      rfl
    · rw [htext]
      refine Decidable.byContradiction fun hbusy => ?_
      have hgoes := (Cursor.mark_of_busy (Cursor.sound_advance hs) hbusy).2
      rw [hfresh] at hgoes
      cases hgoes
    · rw [htext]
      exact h

/-- A character before segments, the first of which it belongs to, is the first character of
that. -/
theorem Lexed.cons_char (hs : s.Sound (c :: d :: cs))
    (htext : (t :: ts).flatMap Segment.text = d :: cs)
    (hkind : t.kind = ((s.advance c (d :: cs)).2.advance d cs).1.kind)
    (hfresh : ((s.advance c (d :: cs)).2.advance d cs).1.fresh = false)
    (h : Lexed (s.advance c (d :: cs)).2 (t :: ts)) :
    Lexed s (⟨(s.advance c (d :: cs)).1.kind, c :: t.text⟩ :: ts) := by
  have hsame : t.kind = (s.advance c (d :: cs)).1.kind :=
    hkind.trans (Cursor.kind_of_not_fresh hs hfresh)
  rw [List.flatMap_cons] at htext
  rw [← hsame]
  cases h with
  | code hidle hnext h =>
    refine .code ?_ hnext ?_
    · refine ⟨(Cursor.idle_of_code hs hsame.symm).1, ?_⟩
      rw [htext]
      exact hidle
    · rw [Cursor.run, htext]
      exact h
  | token hne hmark hbusy hidle h =>
    refine .token hne ?_ ?_ ?_ ?_
    · rw [htext]
      exact hsame.symm
    · rw [htext]
      refine ⟨fun hi => ?_, hbusy⟩
      rcases Cursor.mark_of_idle hi d cs with ⟨h, _⟩ | ⟨_, h⟩
      · exact hne (hkind.trans h)
      · rw [hfresh] at h
        cases h
    · rw [Cursor.run, htext]
      exact hidle
    · rw [Cursor.run, htext]
      exact h

end Lexed

/-- The segments of marks are as the scanner cuts them. -/
theorem lexed_ofMarks {s : Cursor} {raw : List Char} (hs : s.Sound raw) :
    Lexed s (Segment.ofMarks (s.marks raw)) := by
  induction raw generalizing s with
  | nil => exact .nil s
  | cons c cs ih =>
    have hlexed := ih (Cursor.sound_advance hs)
    cases cs with
    | nil =>
      rw [Cursor.marks, Cursor.marks, ofMarks_singleton, advance_char]
      by_cases hkind : (s.advance c []).1.kind = .code
      · obtain ⟨hidle, hidle', _⟩ := Cursor.idle_of_code hs hkind
        rw [hkind]
        exact .code ⟨hidle, hidle'⟩ (fun _ h => by cases h) (.nil _)
      · exact .token hkind rfl trivial (fun h => absurd rfl h) (.nil _)
    | cons d cs =>
      rw [Cursor.marks] at hlexed
      rw [Cursor.marks, Cursor.marks]
      obtain ⟨t, ts, hn, hm⟩ := ofMarks_cons_cons (s.advance c (d :: cs)).1
        ((s.advance c (d :: cs)).2.advance d cs).1
          (((s.advance c (d :: cs)).2.advance d cs).2.marks cs)
      have htext : (t :: ts).flatMap Segment.text = d :: cs := by
        rw [← hn, ← Cursor.marks, ofMarks_flatMap_text, marks_map_char]
      rw [hn] at hlexed
      rw [hm, advance_char]
      split
      · rename_i hfresh
        exact hlexed.cons_segment hs htext (kind_of_ofMarks hn) hfresh
      · rename_i hfresh
        exact hlexed.cons_char hs htext (kind_of_ofMarks hn) (Bool.eq_false_iff.mpr hfresh)

/-- Behind the first of the segments the scanner goes on with the others. If there are some, it is
idle there. -/
theorem Lexed.behind {s : Cursor} {earlier ts : List Segment} (h : Lexed s (earlier ++ ts)) :
    Lexed (s.run (ts.flatMap Segment.text) (earlier.flatMap Segment.text)) ts ∧
      (earlier ≠ [] → ts ≠ [] →
        (s.run (ts.flatMap Segment.text) (earlier.flatMap Segment.text)).Idle) := by
  induction earlier generalizing s with
  | nil => exact ⟨h, fun hne => absurd rfl hne⟩
  | cons u earlier ih =>
    have hnext : Lexed (s.run ((earlier ++ ts).flatMap Segment.text) u.text) (earlier ++ ts) ∧
        (earlier ++ ts ≠ [] → (s.run ((earlier ++ ts).flatMap Segment.text) u.text).Idle) := by
      rw [List.cons_append] at h
      cases h with
      | code hidle _ h => exact ⟨h, fun _ => Cursor.idle_run_of_idleAlong hidle⟩
      | token hkind hmark hbusy hidle h => exact ⟨h, hidle⟩
    rw [List.flatMap_append] at hnext
    rw [List.flatMap_cons, Cursor.run_append]
    obtain ⟨hlexed, hidle⟩ := ih hnext.1
    refine ⟨hlexed, fun _ hts => ?_⟩
    by_cases hearlier : earlier = []
    · subst hearlier
      exact hnext.2 hts
    · exact hidle hearlier hts

end ScratchFormat
