import ScratchFormat.Proofs.Scan

/-! Two texts that differ in the blanks of their code, read by the scanner side by side. It sees the
same in both unless one of two things happens: two code characters come together that open a literal
or a comment, or a literal ends in a blank and loses it. -/

namespace ScratchFormat

namespace Cursor

def Idle (s : Cursor) : Prop := s.mode = .code ∧ s.owed = 0

instance (s : Cursor) : Decidable s.Idle := inferInstanceAs (Decidable (_ ∧ _))

def pause (s : Cursor) (gap : List Char) : Cursor :=
  if gap = [] then s else ⟨.code, 0, false, false, gap.getLast?⟩

theorem idle_pause {s : Cursor} (hs : s.Idle) (gap : List Char) : (s.pause gap).Idle := by
  unfold pause
  split
  · exact hs
  · exact ⟨rfl, rfl⟩

theorem pause_nil (s : Cursor) : s.pause [] = s := rfl

theorem pause_cons (s : Cursor) (c : Char) (gap : List Char) :
    s.pause (c :: gap) = Cursor.pause ⟨.code, 0, false, false, some c⟩ gap := by
  cases gap with
  | nil => rfl
  | cons d gap => simp [pause]

/-- What an idle scanner does with a character. -/
theorem advance_idle {s : Cursor} (hs : s.Idle) (c : Char) (rest : List Char) :
    s.advance c rest =
      match stepCode s.prev c rest with
      | .stay mode n => (⟨c, .code, s.fresh⟩, ⟨mode, n, false, false, some c⟩)
      | .enter mode n => (⟨c, mode.kind, true⟩, ⟨mode, n, false, false, some c⟩)
      | .whole n => (⟨c, .literal, true⟩, ⟨.charQuote, n, true, false, some c⟩)
      | .leave 0 => (⟨c, .code, s.fresh⟩, closed c)
      | .leave (n + 1) => (⟨c, .code, s.fresh⟩, ⟨.code, n + 1, true, false, some c⟩) := by
  obtain ⟨mode, owed, closing, fresh, prev⟩ := s
  obtain ⟨hm, ho⟩ := hs
  simp only at hm ho
  subst hm ho
  rfl

/-- White space leaves an idle scanner idle. -/
theorem advance_space {s : Cursor} (hs : s.Idle) {c : Char} (hc : isSpace c = true)
    (rest : List Char) :
    s.advance c rest = (⟨c, .code, s.fresh⟩, ⟨.code, 0, false, false, some c⟩) := by
  have hne : ∀ d, isSpace d = false → c ≠ d := by
    rintro d hd rfl
    rw [hc] at hd
    cases hd
  have hstep : stepCode s.prev c rest = .stay .code 0 := by
    unfold stepCode
    rw [if_neg (hne '"' (by decide)), if_neg (hne '\'' (by decide)), if_neg (hne '?' (by decide)),
      if_neg fun h => hne '-' (by decide) h.1, if_neg fun h => hne '\x7b' (by decide) h.1,
      if_neg fun h => hne '\x7b' (by decide) h.1]
  rw [advance_idle hs, hstep]

end Cursor

def Mark.seen (m : Mark) : Bool := m.kind != .code || !isSpace m.char

def kindsOf (ms : List Mark) : List (Char × Kind) :=
  (ms.filter Mark.seen).map fun m => (m.char, m.kind)

def tokenMarks (ms : List Mark) : List Mark := ms.filter fun m => m.kind != .code

theorem kindsOf_append (ms ns : List Mark) : kindsOf (ms ++ ns) = kindsOf ms ++ kindsOf ns := by
  simp [kindsOf]

theorem tokenMarks_append (ms ns : List Mark) :
    tokenMarks (ms ++ ns) = tokenMarks ms ++ tokenMarks ns :=
  List.filter_append ..

/-- White space in code is passed over. -/
theorem marks_gap {s : Cursor} (hs : s.Idle) {gap : List Char} (hg : ∀ c ∈ gap, isSpace c = true)
    (cs : List Char) :
    ∃ ms, s.marks (gap ++ cs) = ms ++ (s.pause gap).marks cs ∧ kindsOf ms = [] ∧
      tokenMarks ms = [] := by
  induction gap generalizing s with
  | nil => exact ⟨[], rfl, rfl, rfl⟩
  | cons c gap ih =>
    have hc : isSpace c = true := hg c List.mem_cons_self
    have hrest : ∀ d ∈ gap, isSpace d = true := fun d hd => hg d (List.mem_cons_of_mem c hd)
    obtain ⟨ms, hms, hk, ht⟩ := ih (s := ⟨.code, 0, false, false, some c⟩) ⟨rfl, rfl⟩ hrest
    refine ⟨⟨c, .code, s.fresh⟩ :: ms, ?_, ?_, ?_⟩
    · rw [List.cons_append, Cursor.marks, Cursor.advance_space hs hc, hms, Cursor.pause_cons,
        List.cons_append]
    · rw [← hk]
      simp [kindsOf, Mark.seen, hc]
    · rw [← ht]
      simp [tokenMarks]

theorem final_gap {s : Cursor} (hs : s.Idle) {gap : List Char} (hg : ∀ c ∈ gap, isSpace c = true)
    (cs : List Char) : s.final (gap ++ cs) = (s.pause gap).final cs := by
  induction gap generalizing s with
  | nil => rfl
  | cons c gap ih =>
    have hc : isSpace c = true := hg c List.mem_cons_self
    have hrest : ∀ d ∈ gap, isSpace d = true := fun d hd => hg d (List.mem_cons_of_mem c hd)
    rw [List.cons_append, Cursor.final, Cursor.advance_space hs hc, Cursor.pause_cons]
    exact ih ⟨rfl, rfl⟩ hrest

def ends (c : Char) : Bool := c == ',' || (isOperatorChar c && c != '!')

inductive Moved (x : Option Char) (y : Char) (gap : List Char) : List Char → Prop
  | kept : Moved x y gap gap
  | comma (hy : y = ',') : Moved x y gap []
  | closer (hy : isCloser y = true) (hx : x.any ends = true) : Moved x y gap []
  | opened (hy : isOperatorChar y = true) (hx : x.all (fun c => isOpener c || isSpace c) = true) :
    Moved x y gap []
  | spaced (h : isOperatorChar y = true ∨ x.any ends = true) : Moved x y gap [' ']

def Joined (prev : Option Char) (y : Char) (old new : List Char) : Prop :=
  (y = '?' ∧ prev.any isNameTail = false ∧ new.head? = some ',' ∧ old.head? ≠ some ',') ∨
    (y = '\x7b' ∧ new.head? = some '-' ∧ old.head? ≠ some '-')

/-- `new` is `old` with other gaps in its code, as the scanner at `s` reads `old`. The proposition
says whether something joins or breaks on the way. -/
inductive Respaced : Prop → Cursor → List Char → List Char → Prop
  | finished (s : Cursor) : Respaced False s [] []
  | trailing {s : Cursor} {gap gap' : List Char} (hs : s.Idle) (hg : ∀ c ∈ gap, isSpace c = true)
    (hgap : gap' = gap ∨ gap' = []) : Respaced False s gap gap'
  | copied {fused : Prop} {s : Cursor} {y : Char} {old new : List Char} (hs : ¬ s.Idle)
    (h : Respaced fused (s.advance y old).2 old new) : Respaced fused s (y :: old) (y :: new)
  | broken {s : Cursor} {b b' : Char} {old new : List Char} (hm : s.mode = .charQuote)
    (ho : s.owed = 1) (hc : s.closing = true) (hp : s.prev = some '\\') (hb : b' ≠ b)
    (hb' : b' = ',' ∨ b' = ' ') : Respaced True s (b :: old) (b' :: new)
  | set {fused : Prop} {s : Cursor} {gap gap' : List Char} {y : Char} {old new : List Char}
    (hs : s.Idle) (hg : ∀ c ∈ gap, isSpace c = true) (hg' : ∀ c ∈ gap', isSpace c = true)
    (hmoved : Moved s.prev y gap gap') (hcomma : y = ',' → new.head? ≠ some '\'')
    (h : Respaced fused ((s.pause gap).advance y old).2 old new) :
    Respaced (Joined (s.pause gap).prev y old new ∨ fused) s (gap ++ y :: old) (gap' ++ y :: new)

/-- No white space is an ASCII letter or digit. -/
theorem isNameTail_of_isSpace {c : Char} (h : isSpace c = true) : isNameTail c = false := by
  have hrange : c.toNat < 48 ∨ 122 < c.toNat := by
    rcases Nat.lt_or_ge c.toNat 48 with hlo | hlo
    · exact .inl hlo
    · refine .inr (Nat.lt_of_not_le fun hhi => ?_)
      have hn : isSpace c = false := by
        simp only [isSpace, inRanges]
        grind
      rw [h] at hn
      cases hn
  exact isNameTail_eq_false hrange (ne_of_isSpace h (by decide)) (ne_of_isSpace h (by decide))

theorem isNameTail_of_ends {c : Char} (h : ends c = true) : isNameTail c = false := by
  have hmem : c ∈ ",+-*/<>=|&:^%~$".toList := by
    simp [ends, isOperatorChar] at h ⊢
    grind
  have hall : (",+-*/<>=|&:^%~$".toList.all fun d => !isNameTail d) = true := by decide
  simpa using List.all_eq_true.mp hall c hmem

/-- Whether a name ends before a quote or a question mark does not hang on the gap before it. -/
theorem isNameTail_pause {s : Cursor} {y : Char} {gap gap' : List Char}
    (hg : ∀ c ∈ gap, isSpace c = true) (hy : y = '\'' ∨ y = '?')
    (h : Moved s.prev y gap gap') :
    (s.pause gap').prev.any isNameTail = (s.pause gap).prev.any isNameTail := by
  have hop : isOperatorChar y = false := by rcases hy with rfl | rfl <;> decide
  cases h with
  | kept => rfl
  | comma h => rcases hy with rfl | rfl <;> cases h
  | closer h => rcases hy with rfl | rfl <;> exact absurd h (by decide)
  | opened h => rw [hop] at h; cases h
  | spaced h =>
    have hx : s.prev.any ends = true := h.resolve_left (by rw [hop]; exact Bool.false_ne_true)
    have hnew : (s.pause [' ']).prev.any isNameTail = false := rfl
    rw [hnew]
    unfold Cursor.pause
    split
    · obtain ⟨x, hp, he⟩ := (Option.any_eq_true _ _).mp hx
      rw [hp]
      exact (isNameTail_of_ends he).symm
    · rename_i hne
      rw [List.getLast?_eq_some_getLast hne]
      exact (isNameTail_of_isSpace (hg _ (List.getLast_mem hne))).symm

/-- A quote is closed behind one character, or behind a backslash and one character. -/
theorem closesQuote_iff (cs : List Char) :
    closesQuote cs = true ↔ (∃ c rest, cs = '\\' :: c :: '\'' :: rest) ∨
      ∃ c rest, c ≠ '\\' ∧ c ≠ '\'' ∧ cs = c :: '\'' :: rest := by
  constructor
  · intro h
    unfold closesQuote at h
    split at h
    · exact .inl ⟨_, _, rfl⟩
    · cases h
    · cases h
    · rename_i c rest _ hback hquote
      exact .inr ⟨c, rest, fun hc => hback hc, fun hc => hquote hc, rfl⟩
    · cases h
  · rintro (⟨c, rest, rfl⟩ | ⟨c, rest, hback, hquote, rfl⟩)
    · rfl
    · unfold closesQuote
      split <;> simp_all

namespace Respaced

variable {fused : Prop} {s : Cursor} {old new : List Char}

/-- Inside a literal or a comment the texts agree, except for the blank at the end of an escaped
character literal. -/
theorem of_not_idle (h : Respaced fused s old new) (hs : ¬ s.Idle)
    (hp : s.closing = true → s.owed = 1 → s.prev ≠ some '\\') :
    (old = [] ∧ new = []) ∨ ∃ y old' new', old = y :: old' ∧ new = y :: new' ∧
      Respaced fused (s.advance y old').2 old' new' := by
  cases h with
  | finished => exact .inl ⟨rfl, rfl⟩
  | trailing hi => exact absurd hi hs
  | copied _ h => exact .inr ⟨_, _, _, rfl, rfl, h⟩
  | broken _ ho hc hprev => exact absurd hprev (hp hc ho)
  | set hi => exact absurd hi hs

/-- Nothing is put at the end of a text. -/
theorem eq_nil (h : Respaced fused s old new) (hold : old = []) : new = [] := by
  cases h with
  | finished => rfl
  | trailing _ _ hgap =>
    rcases hgap with rfl | rfl
    · exact hold
    · rfl
  | copied => cases hold
  | broken => cases hold
  | set => simp at hold

theorem eq_nil_of_new (h : Respaced fused s old new) (hs : ¬ s.Idle) (hnew : new = []) :
    old = [] := by
  cases h with
  | finished => rfl
  | trailing hi => exact absurd hi hs
  | copied => cases hnew
  | broken => cases hnew
  | set hi => exact absurd hi hs

/-- A character that is never set stands at the front of the new text only if it stands there in the
old. -/
theorem head_of_head (h : Respaced fused s old new) {q : Char} (hspace : isSpace q = false)
    (hcomma : q ≠ ',') (hop : isOperatorChar q = false) (hcloser : isCloser q = false)
    (hq : new.head? = some q) : old.head? = some q := by
  have hblank : q ≠ ' ' := by rintro rfl; exact absurd hspace (by decide)
  cases h with
  | finished => exact hq
  | trailing _ _ hgap =>
    rcases hgap with rfl | rfl
    · exact hq
    · cases hq
  | copied _ _ => exact hq
  | broken _ _ _ _ _ hb' =>
    cases hq
    rcases hb' with rfl | rfl <;> contradiction
  | set _ _ _ hmoved =>
    cases hmoved with
    | kept =>
      rw [List.head?_append] at hq ⊢
      exact hq
    | comma hy => cases hq; exact absurd hy hcomma
    | closer hy => cases hq; rw [hcloser] at hy; cases hy
    | opened hy => cases hq; rw [hop] at hy; cases hy
    | spaced => cases hq; exact absurd rfl hblank

/-- Two minus signs come together only where they stand together. -/
theorem minus_of_minus (h : Respaced fused s old new) (hs : s.Idle) (hprev : s.prev = some '-')
    (hq : new.head? = some '-') : old.head? = some '-' := by
  cases h with
  | finished => exact hq
  | trailing _ _ hgap =>
    rcases hgap with rfl | rfl
    · exact hq
    · cases hq
  | copied hb => exact absurd hs hb
  | broken hm => rw [hs.1] at hm; cases hm
  | set _ _ _ hmoved =>
    rw [hprev] at hmoved
    cases hmoved with
    | kept =>
      rw [List.head?_append] at hq ⊢
      exact hq
    | comma hy => cases hq; cases hy
    | closer hy => cases hq; exact absurd hy (by decide)
    | opened _ hx => exact absurd hx (by decide)
    | spaced => cases hq

/-- A backslash in code is never set. -/
theorem backslash_of_backslash (h : Respaced fused s old ('\\' :: new)) (hs : s.Idle) :
    ∃ fused' old', old = '\\' :: old' ∧
      Respaced fused' ⟨.code, 0, false, false, some '\\'⟩ old' new := by
  generalize hnew : '\\' :: new = new₀ at h
  cases h with
  | finished => cases hnew
  | trailing _ hg hgap =>
    rcases hgap with rfl | rfl
    · exact absurd (hg '\\' (by rw [← hnew]; exact List.mem_cons_self)) (by decide)
    · cases hnew
  | copied hb => exact absurd hs hb
  | broken hm => rw [hs.1] at hm; cases hm
  | @set _ _ gap _ y old' new' _ hg _ hmoved _ h =>
    cases hmoved with
    | kept =>
      cases gap with
      | nil =>
        cases hnew
        rw [Cursor.advance_idle (Cursor.idle_pause hs []), show stepCode _ '\\' old' = .stay .code 0
          by simp [stepCode]] at h
        exact ⟨_, old', rfl, h⟩
      | cons d gap =>
        cases hnew
        exact absurd (hg '\\' List.mem_cons_self) (by decide)
    | comma hy => cases hnew; cases hy
    | closer hy => cases hnew; exact absurd hy (by decide)
    | opened hy => cases hnew; exact absurd hy (by decide)
    | spaced => cases hnew

/-- A quote that stands second in the new text stands second in the old. -/
theorem quote_second (h : Respaced fused s old new) (hs : s.Idle)
    (hprev : s.prev = some '\'' ∨ s.prev = some '\\') {c : Char} {rest : List Char}
    (hnew : new = c :: '\'' :: rest) : ∃ rest', old = c :: '\'' :: rest' := by
  have hends : s.prev.any ends = false := by rcases hprev with h | h <;> rw [h] <;> decide
  have hopen : s.prev.all (fun c => isOpener c || isSpace c) = false := by
    rcases hprev with h | h <;> rw [h] <;> decide
  cases h with
  | finished => cases hnew
  | trailing _ _ hgap =>
    rcases hgap with rfl | rfl
    · exact ⟨rest, hnew⟩
    · cases hnew
  | copied hb => exact absurd hs hb
  | broken hm => rw [hs.1] at hm; cases hm
  | @set _ _ gap _ y old' new' _ hg _ hmoved hcomma h =>
    cases hmoved with
    | kept =>
      match gap with
      | [] =>
        cases hnew
        have hhead := h.head_of_head (by decide) (by decide) (by decide) (by decide) rfl
        obtain ⟨rest', rfl⟩ := List.head?_eq_some_iff.mp hhead
        exact ⟨rest', rfl⟩
      | [d] =>
        cases hnew
        exact ⟨old', rfl⟩
      | d :: e :: _ =>
        cases hnew
        exact absurd (hg '\'' (by simp)) (by decide)
    | comma hy =>
      cases hnew
      exact absurd rfl (hcomma hy)
    | closer _ hx => rw [hends] at hx; cases hx
    | opened _ hx => rw [hopen] at hx; cases hx
    | spaced hx =>
      cases hnew
      rw [hends] at hx
      exact absurd hx (by decide)

/-- A question mark that is no literal in the old text becomes one only before a comma. -/
theorem questionLength?_eq_none (h : Respaced fused s old new) (hs : s.Idle)
    (hprev : s.prev = some '?') (hold : questionLength? old = none)
    (hcomma : new.head? = some ',' → old.head? = some ',') : questionLength? new = none := by
  have hfront : ∀ {c : Char} (rest : List Char), isSpace c = true →
      questionLength? (c :: rest) = none := by
    intro c rest hc
    unfold questionLength?
    split
    · rename_i heq
      cases heq
      exact absurd hc (by decide)
    · rfl
    · rename_i heq
      cases heq
      rw [if_pos hc]
    · rfl
  cases h with
  | finished => exact hold
  | trailing _ _ hgap =>
    rcases hgap with rfl | rfl
    · exact hold
    · rfl
  | copied hb => exact absurd hs hb
  | broken hm => rw [hs.1] at hm; cases hm
  | @set _ _ gap _ y old' new' _ hg _ hmoved _ h =>
    rw [hprev] at hmoved
    cases hmoved with
    | kept =>
      cases gap with
      | cons d gap => exact hfront _ (hg d List.mem_cons_self)
      | nil =>
        -- the same character follows, and after a backslash both texts end
        by_cases hy : y = '\\'
        · subst hy
          cases old' with
          | cons c cs => cases hold
          | nil =>
            rw [h.eq_nil rfl]
            rfl
        · simp only [List.nil_append] at hold ⊢
          rw [questionLength?.eq_3 _ _ (by simp [hy]) (by simp [hy])] at hold ⊢
          exact hold
    | comma hy =>
      subst hy
      have hhead := hcomma rfl
      cases gap with
      | nil => cases hold
      | cons d gap =>
        cases hhead
        exact absurd (hg ',' List.mem_cons_self) (by decide)
    | closer _ hx => exact absurd hx (by decide)
    | opened _ hx => exact absurd hx (by decide)
    | spaced => rfl

/-- A text that the scanner is about to read inside a literal or a comment starts the same. -/
theorem head_eq (h : Respaced fused s old new) (hs : ¬ s.Idle)
    (hp : s.closing = true → s.owed = 1 → s.prev ≠ some '\\') : new.head? = old.head? := by
  rcases h.of_not_idle hs hp with ⟨rfl, rfl⟩ | ⟨y, _, _, rfl, rfl, _⟩ <;> rfl

theorem minus_comment (h : Respaced fused (s.advance '-' old).2 old new) (hs : s.Idle) :
    new.head? = some '-' ↔ old.head? = some '-' := by
  by_cases hold : old.head? = some '-'
  · have hstep : stepCode s.prev '-' old = .enter .lineComment 0 := by simp [stepCode, hold]
    rw [Cursor.advance_idle hs, hstep] at h
    rw [h.head_eq (by simp [Cursor.Idle]) (by simp)]
  · have hstep : stepCode s.prev '-' old = .stay .code 0 := by simp [stepCode, hold]
    rw [Cursor.advance_idle hs, hstep] at h
    exact ⟨h.minus_of_minus ⟨rfl, rfl⟩ rfl, fun h => absurd h hold⟩

/-- Where no dash joins a brace, other gaps behind it neither make a comment nor take one away. -/
theorem brace_comment (h : Respaced fused (s.advance '\x7b' old).2 old new) (hs : s.Idle)
    (hjoin : new.head? = some '-' → old.head? = some '-') :
    (new.head? = some '-' ↔ old.head? = some '-') ∧
      (new.head? = some '\x7b' ↔ old.head? = some '\x7b') := by
  by_cases hminus : old.head? = some '-'
  · have hstep : stepCode s.prev '\x7b' old = .enter (.blockComment 1) 1 := by
      simp [stepCode, hminus]
    rw [Cursor.advance_idle hs, hstep] at h
    rw [h.head_eq (by simp [Cursor.Idle]) (by simp)]
    exact ⟨Iff.rfl, Iff.rfl⟩
  · by_cases hbrace : old.head? = some '\x7b'
    · have hstep : stepCode s.prev '\x7b' old = .enter (.docBlock 1) 1 := by
        simp [stepCode, hbrace]
      rw [Cursor.advance_idle hs, hstep] at h
      rw [h.head_eq (by simp [Cursor.Idle]) (by simp)]
      exact ⟨Iff.rfl, Iff.rfl⟩
    · refine ⟨⟨hjoin, fun h => absurd h hminus⟩, ?_, fun h => absurd h hbrace⟩
      exact h.head_of_head (by decide) (by decide) (by decide) (by decide)

/-- Other gaps behind two quotes do not make a long string of them. -/
theorem quotes_ahead (h : Respaced fused (s.advance '"' old).2 old new) (hs : s.Idle) :
    ['"', '"'].isPrefixOf new = ['"', '"'].isPrefixOf old := by
  have hquote : ∀ {cs : List Char}, ['"', '"'].isPrefixOf cs = true ↔
      ∃ rest, cs = '"' :: '"' :: rest := by
    intro cs
    rw [List.isPrefixOf_iff_prefix]
    exact ⟨fun ⟨rest, hr⟩ => ⟨rest, hr.symm⟩, fun ⟨rest, hr⟩ => ⟨rest, hr.symm⟩⟩
  rw [Bool.eq_iff_iff, hquote, hquote]
  by_cases hold : ['"', '"'].isPrefixOf old = true
  · have hstep : stepCode s.prev '"' old = .enter .longString 2 := by simp [stepCode, hold]
    rw [Cursor.advance_idle hs, hstep] at h
    obtain ⟨rest, rfl⟩ := hquote.mp hold
    rcases h.of_not_idle (by simp [Cursor.Idle]) (by simp) with ⟨h, _⟩ | ⟨_, _, new', ho, rfl, h⟩
    · cases h
    · cases ho
      rcases h.of_not_idle (by simp [Cursor.Idle, Cursor.advance]) (by simp [Cursor.advance]) with
        ⟨h, _⟩ | ⟨_, _, new'', ho, rfl, _⟩
      · cases h
      · cases ho
        exact ⟨fun _ => ⟨rest, rfl⟩, fun _ => ⟨new'', rfl⟩⟩
  · have hstep : stepCode s.prev '"' old = .enter .string 0 := by simp [stepCode, hold]
    rw [Cursor.advance_idle hs, hstep] at h
    refine ⟨?_, fun ho => absurd (hquote.mpr ho) hold⟩
    rintro ⟨rest, rfl⟩
    rcases h.of_not_idle (by simp [Cursor.Idle]) (by simp) with ⟨_, h⟩ | ⟨_, old', _, rfl, hn, h⟩
    · cases h
    · cases hn
      -- the empty string ends here, and no quote is set next to it
      have hhead := h.head_of_head (by decide) (by decide) (by decide) (by decide) rfl
      obtain ⟨rest', rfl⟩ := List.head?_eq_some_iff.mp hhead
      exact ⟨rest', rfl⟩

/-- Other gaps behind a single quote do not change whether it is closed. -/
theorem quote_closes (h : Respaced fused (s.advance '\'' old).2 old new) (hs : s.Idle)
    (hname : s.prev.any isNameTail = false) : closesQuote new = closesQuote old := by
  rw [Bool.eq_iff_iff]
  by_cases hold : closesQuote old = true
  · have hstep : stepCode s.prev '\'' old = .enter .charQuote 0 := by
      simp [stepCode, hold, hname]
    rw [Cursor.advance_idle hs, hstep] at h
    refine ⟨fun _ => hold, fun _ => (closesQuote_iff new).mpr ?_⟩
    rcases (closesQuote_iff old).mp hold with ⟨c, rest, rfl⟩ | ⟨c, rest, hback, hquote, rfl⟩
    · left
      rcases h.of_not_idle (by simp [Cursor.Idle]) (by simp) with ⟨h, _⟩ | ⟨_, _, _, ho, rfl, h⟩
      · cases h
      cases ho
      rcases h.of_not_idle (by simp [Cursor.Idle, Cursor.advance, step, stepQuoted])
        (by simp [Cursor.advance, step, stepQuoted]) with ⟨h, _⟩ | ⟨_, _, _, ho, rfl, h⟩
      · cases h
      cases ho
      rcases h.of_not_idle (by simp [Cursor.Idle, Cursor.advance, step, stepQuoted])
        (by simp [Cursor.advance, step, stepQuoted]) with ⟨h, _⟩ | ⟨_, _, new', ho, rfl, h⟩
      · cases h
      cases ho
      exact ⟨c, new', rfl⟩
    · right
      rcases h.of_not_idle (by simp [Cursor.Idle]) (by simp) with ⟨h, _⟩ | ⟨_, _, _, ho, rfl, h⟩
      · cases h
      cases ho
      rcases h.of_not_idle (by simp [Cursor.Idle, Cursor.advance, step, stepQuoted, hback, hquote])
        (by simp [Cursor.advance, step, stepQuoted, hback, hquote]) with
        ⟨h, _⟩ | ⟨_, _, new', ho, rfl, h⟩
      · cases h
      cases ho
      exact ⟨c, new', hback, hquote, rfl⟩
  · have hstep : stepCode s.prev '\'' old = .stay .code 0 := by
      simp [stepCode, hold]
    rw [Cursor.advance_idle hs, hstep] at h
    refine ⟨fun hnew => (closesQuote_iff old).mpr ?_, fun h => absurd h hold⟩
    rcases (closesQuote_iff new).mp hnew with ⟨c, rest, rfl⟩ | ⟨c, rest, hback, hquote, rfl⟩
    · left
      obtain ⟨_, old', rfl, hnext⟩ := h.backslash_of_backslash ⟨rfl, rfl⟩
      obtain ⟨rest', rfl⟩ := hnext.quote_second ⟨rfl, rfl⟩ (.inr rfl) rfl
      exact ⟨c, rest', rfl⟩
    · right
      obtain ⟨rest', rfl⟩ := h.quote_second ⟨rfl, rfl⟩ (.inl rfl) rfl
      exact ⟨c, rest', hback, hquote, rfl⟩

/-- Where no comma joins a question mark, other gaps behind it do not change its literal. -/
theorem question_length (h : Respaced fused (s.advance '?' old).2 old new) (hs : s.Idle)
    (hname : s.prev.any isNameTail = false)
    (hjoin : new.head? = some ',' → old.head? = some ',') :
    questionLength? new = questionLength? old := by
  cases hold : questionLength? old with
  | none =>
    have hstep : stepCode s.prev '?' old = .stay .code 0 := by simp [stepCode, hold, hname]
    rw [Cursor.advance_idle hs, hstep] at h
    exact h.questionLength?_eq_none ⟨rfl, rfl⟩ rfl hold hjoin
  | some n =>
    have hstep : stepCode s.prev '?' old = .whole n := by simp [stepCode, hold, hname]
    rw [Cursor.advance_idle hs, hstep] at h
    rcases h.of_not_idle (by simp [Cursor.Idle]) (by simp) with
      ⟨rfl, _⟩ | ⟨c, old', new', rfl, rfl, hnext⟩
    · cases hold
    by_cases hc : c = '\\'
    · subst hc
      cases old' with
      | nil => cases hold
      | cons d old' =>
        cases hold
        -- what the backslash escapes may change, but something stands there
        cases new' with
        | cons d' new' => rfl
        | nil =>
          cases hnext.eq_nil_of_new (by simp [Cursor.Idle, Cursor.advance]) rfl
    · rw [questionLength?.eq_3 _ _ (by simp [hc]) (by simp [hc])] at hold ⊢
      exact hold

/-- Reading a character in code, after a gap that may have changed, does the same in both texts. -/
theorem stepCode_eq {s' : Cursor} {y : Char} (h : Respaced fused (s.advance y old).2 old new)
    (hs : s.Idle) (hname : y = '\'' ∨ y = '?' →
      s'.prev.any isNameTail = s.prev.any isNameTail) (hjoin : ¬ Joined s.prev y old new) :
    stepCode s'.prev y new = stepCode s.prev y old := by
  by_cases hstring : y = '"'
  · subst hstring
    simp [stepCode, h.quotes_ahead hs]
  by_cases hquote : y = '\''
  · subst hquote
    have hn := hname (.inl rfl)
    cases hp : s.prev.any isNameTail with
    | true => simp [stepCode, hn, hp]
    | false => simp [stepCode, hn, hp, h.quote_closes hs hp]
  by_cases hquestion : y = '?'
  · subst hquestion
    have hn := hname (.inr rfl)
    cases hp : s.prev.any isNameTail with
    | true => simp [stepCode, hn, hp]
    | false =>
      have hlength := h.question_length hs hp fun hnew => Decidable.byContradiction fun hold =>
        hjoin (.inl ⟨rfl, hp, hnew, hold⟩)
      simp [stepCode, hn, hp, hlength]
  by_cases hminus : y = '-'
  · subst hminus
    simp [stepCode, h.minus_comment hs]
  by_cases hbrace : y = '\x7b'
  · subst hbrace
    have hheads := h.brace_comment hs fun hnew => Decidable.byContradiction fun hold =>
      hjoin (.inr ⟨rfl, hnew, hold⟩)
    simp [stepCode, hheads.1, hheads.2]
  simp [stepCode, hstring, hquote, hquestion, hminus, hbrace]

/-- The end of a long string is seen at the same place. -/
theorem two_quotes (h : Respaced fused s old new) (hm : s.mode = .longString)
    (hp : s.prev = some '"') (hc : s.closing = true → s.owed = 2) :
    ['"', '"'].isPrefixOf new = ['"', '"'].isPrefixOf old := by
  have hs : ∀ {t : Cursor}, t.mode = .longString → ¬ t.Idle := by
    intro t ht hi
    rw [hi.1] at ht
    cases ht
  rcases h.of_not_idle (hs hm) (by simp [hp]) with ⟨rfl, rfl⟩ | ⟨y, old', new', rfl, rfl, hnext⟩
  · rfl
  by_cases hy : y = '"'
  · subst hy
    have hmode : (s.advance '"' old').2.mode = .longString ∧
        (s.advance '"' old').2.prev = some '"' := by
      unfold Cursor.advance
      split
      · rename_i n hn
        rw [if_neg fun hlast => by have := hc hlast.2; omega]
        exact ⟨hm, rfl⟩
      · rw [hm]
        simp only [step]
        split <;> rename_i hstep <;> split at hstep <;> cases hstep <;> exact ⟨rfl, rfl⟩
    have hhead : new'.head? = old'.head? :=
      hnext.head_eq (hs hmode.1) (by simp [hmode.2])
    cases new' <;> cases old' <;> simp_all [List.isPrefixOf]
  · have hy' : ('"' == y) = false := beq_eq_false_iff_ne.mpr (Ne.symm hy)
    simp [List.isPrefixOf, hy']

/-- A nested comment is left, if at all, with both characters of its closing pair. -/
theorem stepNested_eq {mode : Nat → Mode} {opening closing : Char × Char} {depth : Nat} {y : Char}
    (hmode : ∀ n, mode n ≠ .code) (hclosing : closing.1 ≠ '\\') {closes fresh : Bool}
    {prev : Option Char}
    (hstep : step (mode depth) prev y old = stepNested mode opening closing depth y old)
    (h : Respaced fused (Cursor.advance ⟨mode depth, 0, closes, fresh, prev⟩ y old).2 old new) :
    stepNested mode opening closing depth y new = stepNested mode opening closing depth y old := by
  have hcases : (∃ k n, stepNested mode opening closing depth y old = .stay (mode k) n) ∨
      (stepNested mode opening closing depth y old = .leave 1 ∧ y = closing.1) := by
    unfold stepNested
    split
    · exact .inl ⟨_, _, rfl⟩
    · split
      · rename_i hy
        split
        · exact .inr ⟨rfl, hy.1⟩
        · exact .inl ⟨_, _, rfl⟩
      · exact .inl ⟨_, _, rfl⟩
  have hhead : new.head? = old.head? := by
    rcases hcases with ⟨k, n, hk⟩ | ⟨hk, hy⟩
    · simp only [Cursor.advance, hstep, hk] at h
      exact h.head_eq (fun hi => hmode k hi.1) nofun
    · simp only [Cursor.advance, hstep, hk] at h
      refine h.head_eq (fun hi => hmode depth hi.1) ?_
      intro _ _ hp
      exact hclosing (hy ▸ Option.some.inj hp)
  simp only [stepNested, hhead]

/-- Reading a character inside a literal or a comment does the same in both texts. -/
theorem advance_eq {y : Char} (h : Respaced fused (s.advance y old).2 old new) (hs : ¬ s.Idle) :
    s.advance y new = s.advance y old := by
  obtain ⟨mode, owed, closing, fresh, prev⟩ := s
  cases owed with
  | succ n => rfl
  | zero =>
    have hstep : step mode prev y new = step mode prev y old := by
      cases mode with
      | code => exact absurd ⟨rfl, rfl⟩ hs
      | charQuote => rfl
      | string => rfl
      | lineComment => rfl
      | longString =>
        simp only [step]
        by_cases hy : y = '"'
        · subst hy
          have hquotes : ['"', '"'].isPrefixOf new = ['"', '"'].isPrefixOf old := by
            by_cases hold : ['"', '"'].isPrefixOf old = true
            · simp only [Cursor.advance, step, hold, and_self, if_true] at h
              rw [h.two_quotes rfl rfl fun _ => rfl, hold]
            · simp only [Cursor.advance, step, hold] at h
              rw [h.two_quotes rfl rfl nofun]
          rw [hquotes]
        · simp [hy]
      | blockComment d => exact h.stepNested_eq nofun (by decide) rfl
      | docBlock d => exact h.stepNested_eq nofun (by decide) rfl
    simp only [Cursor.advance, hstep]

/-- Characters that are read alike in code leave the scanner in the same place, and are seen
alike. -/
theorem advance_alike {s' : Cursor} {y : Char} (hs : s.Idle) (hs' : s'.Idle)
    (hstep : stepCode s'.prev y new = stepCode s.prev y old) :
    (s'.advance y new).2 = (s.advance y old).2 ∧
      kindsOf [(s'.advance y new).1] = kindsOf [(s.advance y old).1] ∧
      tokenMarks [(s'.advance y new).1] = tokenMarks [(s.advance y old).1] := by
  -- in code only the mark's freshness can differ, which neither view shows
  have hcode : ∀ fresh fresh', kindsOf [⟨y, .code, fresh⟩] = kindsOf [⟨y, .code, fresh'⟩] := by
    intro fresh fresh'
    cases hy : isSpace y <;> simp [kindsOf, Mark.seen, hy]
  rw [Cursor.advance_idle hs', Cursor.advance_idle hs, hstep]
  split
  · exact ⟨rfl, hcode _ _, rfl⟩
  · exact ⟨rfl, rfl, rfl⟩
  · exact ⟨rfl, rfl, rfl⟩
  · exact ⟨rfl, hcode _ _, rfl⟩
  · exact ⟨rfl, hcode _ _, rfl⟩

/-- Where characters join, the first of them was code before and is not any more. -/
theorem kind_of_joined {s' : Cursor} {y : Char} (h : Respaced fused (s.advance y old).2 old new)
    (hs : s.Idle) (hs' : s'.Idle) (hname : y = '\'' ∨ y = '?' →
      s'.prev.any isNameTail = s.prev.any isNameTail) (hjoin : Joined s.prev y old new) :
    (s.advance y old).1.kind = .code ∧ (s'.advance y new).1.kind ≠ .code ∧
      isSpace y = false := by
  rcases hjoin with ⟨rfl, hp, hnew, hold⟩ | ⟨rfl, hnew, hold⟩
  · have hp' : s'.prev.any isNameTail = false := (hname (.inr rfl)).trans hp
    have hold' : questionLength? old = none := by
      cases hlength : questionLength? old with
      | none => rfl
      | some n =>
        have hstep : stepCode s.prev '?' old = .whole n := by simp [stepCode, hp, hlength]
        rw [Cursor.advance_idle hs, hstep] at h
        have hhead := h.head_eq (by
          cases n with
          | zero => simp [Cursor.Idle]
          | succ n => simp [Cursor.Idle]) (by simp)
        rw [hnew] at hhead
        exact absurd hhead.symm hold
    obtain ⟨new', rfl⟩ := List.head?_eq_some_iff.mp hnew
    have hstep : stepCode s.prev '?' old = .stay .code 0 := by simp [stepCode, hp, hold']
    have hstep' : stepCode s'.prev '?' (',' :: new') = .whole 1 := by
      simp only [stepCode, hp']
      rfl
    rw [Cursor.advance_idle hs, Cursor.advance_idle hs', hstep, hstep']
    exact ⟨rfl, nofun, by decide⟩
  · have hbrace : old.head? ≠ some '\x7b' := by
      intro hbrace
      have hstep : stepCode s.prev '\x7b' old = .enter (.docBlock 1) 1 := by simp [stepCode, hbrace]
      rw [Cursor.advance_idle hs, hstep] at h
      have hhead := h.head_eq (by simp [Cursor.Idle]) (by simp)
      rw [hnew, hbrace] at hhead
      cases hhead
    have hstep : stepCode s.prev '\x7b' old = .stay .code 0 := by simp [stepCode, hold, hbrace]
    have hstep' : stepCode s'.prev '\x7b' new = .enter (.blockComment 1) 1 := by
      simp [stepCode, hnew]
    rw [Cursor.advance_idle hs, Cursor.advance_idle hs', hstep, hstep']
    exact ⟨rfl, nofun, by decide⟩

end Respaced

theorem kindsOf_cons (m : Mark) (ms : List Mark) : kindsOf (m :: ms) = kindsOf [m] ++ kindsOf ms :=
  kindsOf_append [m] ms

theorem tokenMarks_cons (m : Mark) (ms : List Mark) :
    tokenMarks (m :: ms) = tokenMarks [m] ++ tokenMarks ms :=
  tokenMarks_append [m] ms

theorem kindsOf_ne {m m' : Mark} (hm : m.seen = true) (hm' : m'.seen = true)
    (h : (m.char, m.kind) ≠ (m'.char, m'.kind)) (ms ms' : List Mark) :
    kindsOf (m :: ms) ≠ kindsOf (m' :: ms') := by
  intro he
  simp only [kindsOf, List.filter_cons_of_pos hm, List.filter_cons_of_pos hm', List.map_cons,
    List.cons.injEq] at he
  exact h he.1

/-- What the scanner sees in two texts that differ in their gaps: the same, unless something joins
or breaks. -/
structure Alike (s : Cursor) (old new : List Char) : Prop where
  tokens : tokenMarks (s.marks new) = tokenMarks (s.marks old)
  kinds : kindsOf (s.marks new) = kindsOf (s.marks old)
  final : s.final new = s.final old

namespace Alike

theorem refl (s : Cursor) (cs : List Char) : Alike s cs cs := ⟨rfl, rfl, rfl⟩

/-- White space at the end does not show. -/
theorem trailing {s : Cursor} {gap : List Char} (hs : s.Idle) (hg : ∀ c ∈ gap, isSpace c = true) :
    Alike s gap [] := by
  obtain ⟨ms, hms, hk, ht⟩ := marks_gap hs hg []
  rw [List.append_nil, Cursor.marks, List.append_nil] at hms
  have hfinal := final_gap hs hg []
  rw [List.append_nil, Cursor.final, (Cursor.idle_pause hs gap).1] at hfinal
  refine ⟨?_, ?_, ?_⟩
  · rw [hms, ht]
    rfl
  · rw [hms, hk]
    rfl
  · rw [hfinal, Cursor.final, hs.1]

theorem copied {s : Cursor} {y : Char} {old new : List Char}
    (hadvance : s.advance y new = s.advance y old) (h : Alike (s.advance y old).2 old new) :
    Alike s (y :: old) (y :: new) := by
  obtain ⟨ht, hk, hfinal⟩ := h
  refine ⟨?_, ?_, ?_⟩
  · rw [Cursor.marks, Cursor.marks, hadvance, tokenMarks_cons, ht, ← tokenMarks_cons]
  · rw [Cursor.marks, Cursor.marks, hadvance, kindsOf_cons, hk, ← kindsOf_cons]
  · rw [Cursor.final, Cursor.final, hadvance, hfinal]

/-- A gap before a character does not show, if the character is read as before. -/
theorem set {s : Cursor} {gap gap' : List Char} {y : Char} {old new : List Char} (hs : s.Idle)
    (hg : ∀ c ∈ gap, isSpace c = true) (hg' : ∀ c ∈ gap', isSpace c = true)
    (hstep : stepCode (s.pause gap').prev y new = stepCode (s.pause gap).prev y old)
    (h : Alike ((s.pause gap).advance y old).2 old new) :
    Alike s (gap ++ y :: old) (gap' ++ y :: new) := by
  obtain ⟨hnext, hkind, htoken⟩ :=
    Respaced.advance_alike (Cursor.idle_pause hs gap) (Cursor.idle_pause hs gap') hstep
  obtain ⟨ms, hms, hk, ht⟩ := marks_gap hs hg (y :: old)
  obtain ⟨ms', hms', hk', ht'⟩ := marks_gap hs hg' (y :: new)
  rw [Cursor.marks] at hms hms'
  refine ⟨?_, ?_, ?_⟩
  · rw [hms, hms', tokenMarks_append, tokenMarks_append, ht, ht', tokenMarks_cons, htoken,
      hnext, h.tokens, ← tokenMarks_cons]
  · rw [hms, hms', kindsOf_append, kindsOf_append, hk, hk', kindsOf_cons, hkind, hnext, h.kinds,
      ← kindsOf_cons]
  · rw [final_gap hs hg, final_gap hs hg', Cursor.final, Cursor.final, hnext, h.final]

end Alike

theorem kindsOf_gap {s : Cursor} (hs : s.Idle) {gap : List Char} (hg : ∀ c ∈ gap, isSpace c = true)
    (cs : List Char) :
    kindsOf (s.marks (gap ++ cs)) = kindsOf ((s.pause gap).marks cs) := by
  obtain ⟨ms, hms, hk, -⟩ := marks_gap hs hg cs
  rw [hms, kindsOf_append, hk, List.nil_append]

/-- Texts with other gaps are read alike unless something in them fuses, and otherwise they are
not. -/
theorem Respaced.alike {fused : Prop} {s : Cursor} {old new : List Char}
    (h : Respaced fused s old new) :
    (¬ fused → Alike s old new) ∧ (fused → kindsOf (s.marks new) ≠ kindsOf (s.marks old)) := by
  induction h with
  | finished s => exact ⟨fun _ => .refl s [], False.elim⟩
  | @trailing s gap gap' hs hg hgap =>
    refine ⟨fun _ => ?_, False.elim⟩
    rcases hgap with rfl | rfl
    · exact .refl s gap'
    · exact .trailing hs hg
  | @copied fused s y old new hs h ih =>
    have hadvance := h.advance_eq hs
    refine ⟨fun hf => .copied hadvance (ih.1 hf), fun hf he => ?_⟩
    rw [Cursor.marks, Cursor.marks, hadvance, kindsOf_cons _ (Cursor.marks _ new),
      kindsOf_cons _ (Cursor.marks _ old)] at he
    exact ih.2 hf (List.append_cancel_left he)
  | @broken s b b' old new hm ho hc hp hb hb' =>
    refine ⟨fun hf => absurd trivial hf, fun _ => ?_⟩
    have hmark : ∀ c rest, (s.advance c rest).1 = ⟨c, .literal, false⟩ := by
      intro c rest
      simp [Cursor.advance, ho, hm, Mode.kind]
    rw [Cursor.marks, Cursor.marks, hmark, hmark]
    exact kindsOf_ne rfl rfl (by simpa using hb) _ _
  | @set fused s gap gap' y old new hs hg hg' hmoved hcomma h ih =>
    have hidle := Cursor.idle_pause hs gap
    have hidle' := Cursor.idle_pause hs gap'
    have hname : y = '\'' ∨ y = '?' →
        (s.pause gap').prev.any isNameTail = (s.pause gap).prev.any isNameTail :=
      fun hy => isNameTail_pause hg hy hmoved
    by_cases hjoin : Joined (s.pause gap).prev y old new
    · -- the character opens a literal or a comment that it did not open before
      refine ⟨fun hf => absurd (.inl hjoin) hf, fun _ => ?_⟩
      obtain ⟨hcode, hother, hy⟩ := h.kind_of_joined hidle hidle' hname hjoin
      rw [kindsOf_gap hs hg, kindsOf_gap hs hg', Cursor.marks, Cursor.marks]
      refine kindsOf_ne ?_ ?_ ?_ _ _
      · simp [Mark.seen, hother]
      · simp [Mark.seen, advance_char, hy]
      · rw [hcode]
        simp [hother]
    · have hstep : stepCode (s.pause gap').prev y new = stepCode (s.pause gap).prev y old :=
        h.stepCode_eq hidle hname hjoin
      obtain ⟨hnext, hkind, -⟩ := Respaced.advance_alike hidle hidle' hstep
      refine ⟨fun hf => .set hs hg hg' hstep (ih.1 fun hfused => hf (.inr hfused)), ?_⟩
      rintro (hj | hfused)
      · exact absurd hj hjoin
      · rw [kindsOf_gap hs hg, kindsOf_gap hs hg', Cursor.marks, Cursor.marks,
          kindsOf_cons _ (Cursor.marks _ new), kindsOf_cons _ (Cursor.marks _ old), hkind, hnext]
        exact fun he => ih.2 hfused (List.append_cancel_left he)

end ScratchFormat
