import ScratchFormat.Proofs.Lexing

/-! Blanks at the two ends of a line, and cuts inside it. The scanner passes over blanks in front,
and what stands behind a blank, or behind a place where it is idle, does not change how it reads
what comes before. -/

namespace ScratchFormat

/-- In every mode white space belongs to what the scanner is inside of. -/
theorem step_space (mode : Mode) (prev : Option Char) {c : Char} (hc : isSpace c = true)
    (rest : List Char) : step mode prev c rest = .stay mode 0 := by
  have hne : ∀ d, isSpace d = false → c ≠ d := fun d hd => ne_of_isSpace hc hd
  have hquote := hne '"' (by decide)
  have htick := hne '\'' (by decide)
  have hback := hne '\\' (by decide)
  have hminus := hne '-' (by decide)
  have hopen := hne '\x7b' (by decide)
  have hclose := hne '\x7d' (by decide)
  cases mode with
  | code => simp [step, stepCode, hquote, htick, hne '?' (by decide), hminus, hopen]
  | charQuote => simp [step, stepQuoted, hback, htick]
  | string => simp [step, stepQuoted, hback, hquote]
  | longString => simp [step, hquote]
  | lineComment => rfl
  | blockComment d => simp [step, stepNested, hopen, hminus]
  | docBlock d => simp [step, stepNested, hopen, hclose]

/-- Of the character before it a step only sees whether a name ends there. -/
theorem step_congr (mode : Mode) {prev prev' : Option Char}
    (h : prev.any isNameTail = prev'.any isNameTail) (c : Char) (rest : List Char) :
    step mode prev c rest = step mode prev' c rest := by
  cases mode <;> simp only [step, stepCode, h]

namespace Cursor

structure Agrees (s t : Cursor) : Prop where
  mode : s.mode = t.mode
  owed : s.owed = t.owed
  closing : s.owed ≠ 0 → s.closing = t.closing
  name : s.prev.any isNameTail = t.prev.any isNameTail

/-- Scanners that agree mark a character as the same kind, and agree behind it. -/
theorem Agrees.advance {s t : Cursor} (h : s.Agrees t) (c : Char) (rest : List Char) :
    (s.advance c rest).2 = (t.advance c rest).2 ∧
      (s.advance c rest).1.kind = (t.advance c rest).1.kind := by
  have hstep := step_congr t.mode h.name c rest
  unfold Cursor.advance
  rw [h.mode, h.owed, hstep]
  cases howed : t.owed with
  | zero => cases step t.mode t.prev c rest with
    | leave n => cases n <;> exact ⟨rfl, rfl⟩
    | _ => exact ⟨rfl, rfl⟩
  | succ n =>
    have hclosing := h.closing (by rw [h.owed, howed]; exact Nat.succ_ne_zero n)
    rw [hclosing]
    exact ⟨rfl, rfl⟩

/-- Scanners in code agree unless a name ends before just one of them. -/
theorem Idle.agrees {s t : Cursor} (hs : s.Idle) (ht : t.Idle)
    (h : s.prev.any isNameTail = t.prev.any isNameTail) : s.Agrees t :=
  ⟨hs.1.trans ht.1.symm, hs.2.trans ht.2.symm, fun ho => absurd hs.2 ho, h⟩

theorem Agrees.final {s t : Cursor} (h : s.Agrees t) (cs : List Char) :
    s.final cs = t.final cs := by
  cases cs with
  | nil => exact h.mode
  | cons c cs => rw [Cursor.final, Cursor.final, (h.advance c cs).1]

theorem final_append (s : Cursor) (cs ds : List Char) :
    s.final (cs ++ ds) = (s.run ds cs).final ds := by
  induction cs generalizing s with
  | nil => rfl
  | cons c cs ih => rw [List.cons_append, final, ih, run]

theorem final_eq_mode_run (s : Cursor) (cs : List Char) : s.final cs = (s.run [] cs).mode := by
  rw [← List.append_nil cs, final_append, List.append_nil]
  rfl

end Cursor

/-- A mark of something other than comments and white space. -/
def Mark.shown (m : Mark) : Bool := m.kind != .comment && !isSpace m.char

theorem Mark.shown_of_isSpace {m : Mark} (h : isSpace m.char = true) : m.shown = false := by
  simp [Mark.shown, h]

namespace Cursor

def shows (s : Cursor) (cs : List Char) : Bool := (s.marks cs).any Mark.shown

theorem shows_cons (s : Cursor) (c : Char) (cs : List Char) :
    s.shows (c :: cs) = ((s.advance c cs).1.shown || (s.advance c cs).2.shows cs) := rfl

theorem Agrees.shows {s t : Cursor} (h : s.Agrees t) (cs : List Char) :
    s.shows cs = t.shows cs := by
  cases cs with
  | nil => rfl
  | cons c cs =>
    obtain ⟨hnext, hkind⟩ := h.advance c cs
    rw [shows_cons, shows_cons, hnext, Mark.shown, Mark.shown, advance_char, advance_char, hkind]

theorem shows_eq_false_of_isSpace (s : Cursor) {cs : List Char} (h : ∀ c ∈ cs, isSpace c = true) :
    s.shows cs = false := by
  rw [shows, List.any_eq_false]
  intro m hm
  have hmem : m.char ∈ cs := by
    rw [← marks_map_char s cs]
    exact List.mem_map_of_mem hm
  rw [Mark.shown_of_isSpace (h _ hmem)]
  exact Bool.false_ne_true

end Cursor

/-- Whether all segments of a line are comments or blank is told by its characters with their
kinds. -/
theorem ScannedLine.all_segments_iff (l : ScannedLine) :
    (l.segments.all fun t => t.kind = .comment || isBlankText t.text) = true ↔
      ∀ x ∈ l.kinds, x.2 = .comment ∨ isSpace x.1 = true := by
  have hsegment : ∀ t : Segment, (t.kind = .comment || isBlankText t.text) = true ↔
      ∀ x ∈ t.kinds, x.2 = .comment ∨ isSpace x.1 = true := by
    intro t
    cases ht : t.kind with
    | comment => simp [Segment.kinds, ht]
    | code =>
      simp only [Segment.kinds, ht, if_true, List.forall_mem_map, reduceCtorEq, decide_false,
        Bool.false_or, false_or, isBlankText_iff]
      constructor
      · intro h c hc
        rw [h] at hc
        cases hc
      · intro h
        refine List.eq_nil_iff_forall_not_mem.mpr fun c hc => ?_
        have hsolid := (List.mem_filter.mp hc).2
        simp [h c hc] at hsolid
    | literal => simp [Segment.kinds, ht, isBlankText]
  simp only [List.all_eq_true, hsegment, ScannedLine.kinds, List.mem_flatMap,
    forall_exists_index, and_imp]
  constructor
  · exact fun h x t ht hx => h t ht x hx
  · exact fun h t ht x hx => h x t ht hx

theorem ScannedLine.isBlank_scanLine (mode : Mode) (raw : List Char) :
    (scanLine mode raw).isBlank = isBlankText raw := by
  rw [Bool.eq_iff_iff, isBlank, isBlankText]
  conv => rhs; rw [← segments_flatMap_text mode raw]
  simp only [isBlankText, List.all_eq_true, List.mem_flatMap, forall_exists_index, and_imp]
  constructor
  · exact fun h c t ht hc => h t ht c hc
  · exact fun h t ht c hc => h c t ht hc

/-- A line has only comments and blanks if the scanner shows nothing else. -/
theorem ScannedLine.all_segments_scanLine (mode : Mode) (raw : List Char) :
    ((scanLine mode raw).segments.all fun t => t.kind = .comment || isBlankText t.text) =
      !(Cursor.start mode).shows raw := by
  rw [Bool.eq_iff_iff, all_segments_iff, kinds_scanLine, Bool.not_eq_true', Cursor.shows,
    List.any_eq_false]
  simp only [kindsOf, List.mem_map, List.mem_filter, forall_exists_index, and_imp]
  constructor
  · intro h m hm hshown
    simp only [Mark.shown, Bool.and_eq_true, bne_iff_ne, ne_eq, Bool.not_eq_true'] at hshown
    have hseen : m.seen = true := by simp [Mark.seen, hshown.2]
    rcases h _ m hm hseen rfl with hk | hc
    · exact hshown.1 hk
    · rw [hshown.2] at hc
      cases hc
  · rintro h x m hm - rfl
    have hm' := h m hm
    simp only [Mark.shown, Bool.and_eq_true, bne_iff_ne, ne_eq, Bool.not_eq_true', not_and,
      Bool.not_eq_false] at hm'
    exact Decidable.or_iff_not_imp_left.mpr hm'

theorem ScannedLine.isCommentOnly_scanLine (mode : Mode) (raw : List Char) :
    (scanLine mode raw).isCommentOnly = (!isBlankText raw && !(Cursor.start mode).shows raw) := by
  rw [isCommentOnly, isBlank_scanLine, all_segments_scanLine]

/-- A line of code is one that starts in code and shows some. -/
theorem ScannedLine.isCodeLine_scanLine (mode : Mode) (raw : List Char) :
    (scanLine mode raw).isCodeLine = (mode = .code && (Cursor.start mode).shows raw) := by
  rw [isCodeLine, isCommentOnly_scanLine, isBlank_scanLine]
  cases hblank : isBlankText raw with
  | true =>
    have hshows := (Cursor.start mode).shows_eq_false_of_isSpace (List.all_eq_true.mp hblank)
    simp [hshows]
  | false =>
    simp only [startsInCode, Bool.not_false, Bool.and_true, Bool.true_and, Bool.not_not]
    rfl

theorem mode_of_isCodeLine {mode : Mode} {raw : List Char}
    (h : (scanLine mode raw).isCodeLine = true) : mode = .code := by
  rw [ScannedLine.isCodeLine_scanLine, Bool.and_eq_true] at h
  exact of_decide_eq_true h.1

namespace Cursor

theorem advance_space_of_owed {s : Cursor} (ho : s.owed = 0) {c : Char} (hc : isSpace c = true)
    (rest : List Char) : (s.advance c rest).2 = ⟨s.mode, 0, false, false, some c⟩ := by
  unfold advance
  rw [ho, step_space s.mode s.prev hc]

/-- The scanner behind white space reads on as before it. -/
theorem agrees_run_space {s : Cursor} (ho : s.owed = 0) (hp : s.prev.any isNameTail = false)
    {bs : List Char} (hb : ∀ b ∈ bs, isSpace b = true) (rest : List Char) :
    (s.run rest bs).Agrees s := by
  induction bs generalizing s with
  | nil => exact ⟨rfl, rfl, fun _ => rfl, rfl⟩
  | cons b bs ih =>
    have hspace := hb b List.mem_cons_self
    rw [run, advance_space_of_owed ho hspace]
    have hname : (some b).any isNameTail = false := isNameTail_of_isSpace hspace
    have hlater := ih (s := ⟨s.mode, 0, false, false, some b⟩) rfl hname fun d hd =>
      hb d (List.mem_cons_of_mem b hd)
    refine ⟨hlater.mode, hlater.owed.trans ho.symm, fun h => absurd hlater.owed h, ?_⟩
    rw [hlater.name, hp]
    exact hname

theorem final_space_append {s : Cursor} (ho : s.owed = 0) (hp : s.prev.any isNameTail = false)
    {bs : List Char} (hb : ∀ b ∈ bs, isSpace b = true) (cs : List Char) :
    s.final (bs ++ cs) = s.final cs := by
  rw [final_append]
  exact (agrees_run_space ho hp hb cs).final cs

/-- White space in front shows nothing. -/
theorem shows_space_append {s : Cursor} (ho : s.owed = 0) (hp : s.prev.any isNameTail = false)
    {bs : List Char} (hb : ∀ b ∈ bs, isSpace b = true) (cs : List Char) :
    s.shows (bs ++ cs) = s.shows cs := by
  have hrun : ∀ (t : Cursor) (as : List Char), (∀ b ∈ as, isSpace b = true) →
      t.shows (as ++ cs) = (t.run cs as).shows cs := by
    intro t as has
    induction as generalizing t with
    | nil => rfl
    | cons a as ih =>
      rw [List.cons_append, shows_cons, run,
        Mark.shown_of_isSpace (by rw [advance_char]; exact has a List.mem_cons_self), Bool.false_or,
        ih _ fun d hd => has d (List.mem_cons_of_mem a hd)]
  rw [hrun s bs hb]
  exact (agrees_run_space ho hp hb cs).shows cs

end Cursor

/-- A line may be indented in any way: it ends in the same mode. -/
theorem endsIn_space_append (mode : Mode) {bs : List Char} (hb : ∀ b ∈ bs, isSpace b = true)
    (cs : List Char) : (scanLine mode (bs ++ cs)).endsIn = (scanLine mode cs).endsIn :=
  Cursor.final_space_append (s := .start mode) rfl rfl hb cs

/-- A blank line ends as it starts. -/
theorem endsIn_of_isSpace (mode : Mode) {bs : List Char} (hb : ∀ b ∈ bs, isSpace b = true) :
    (scanLine mode bs).endsIn = mode := by
  have h := endsIn_space_append mode hb []
  rwa [List.append_nil] at h

section Ahead

variable {b : Char} (hb : isSpace b = true)
include hb

theorem head?_append_space {d : Char} (hd : isSpace d = false) (cs rest : List Char) :
    (cs ++ b :: rest).head? = some d ↔ cs.head? = some d := by
  cases cs with
  | nil => simpa using ne_of_isSpace hb hd
  | cons c cs => rfl

theorem twoQuotes_append_space (cs rest : List Char) :
    ['"', '"'].isPrefixOf (cs ++ b :: rest) = ['"', '"'].isPrefixOf cs := by
  have hne : b ≠ '"' := ne_of_isSpace hb (by decide)
  match cs with
  | [] => simp [List.isPrefixOf, hne.symm]
  | [c] => simp [List.isPrefixOf, hne.symm]
  | c :: d :: cs => simp [List.isPrefixOf]

/-- A quote is not closed by white space behind the text, or what follows it. -/
theorem closesQuote_append_space (cs : List Char) {rest : List Char} (hr : rest.head? ≠ some '\'') :
    closesQuote (cs ++ b :: rest) = closesQuote cs := by
  have hne : b ≠ '\'' := ne_of_isSpace hb (by decide)
  have hback : b ≠ '\\' := ne_of_isSpace hb (by decide)
  rw [Bool.eq_iff_iff, closesQuote_iff, closesQuote_iff]
  match cs with
  | [] => cases rest <;> simp_all
  | [c] => cases rest <;> simp_all
  | [c, d] => simp_all
  | c :: d :: e :: cs => simp

/-- White space behind a text does not change the length of a literal. -/
theorem questionLength?_append_space {cs : List Char} (h : cs ≠ ['\\']) (rest : List Char) :
    questionLength? (cs ++ b :: rest) = questionLength? cs := by
  have hback : b ≠ '\\' := ne_of_isSpace hb (by decide)
  match cs with
  | [] =>
    rw [List.nil_append]
    unfold questionLength?
    split <;> simp_all
  | [c] =>
    have hc : c ≠ '\\' := by simpa using h
    simp [questionLength?, hc]
  | c :: d :: cs => by_cases hc : c = '\\' <;> simp [questionLength?, hc]

/-- What stands behind white space is not seen from before it, unless the white space is an escaped
character. -/
theorem step_append_space (mode : Mode) (prev : Option Char) (c : Char) (cs : List Char)
    {rest : List Char} (hr : rest.head? ≠ some '\'') :
    step mode prev c (cs ++ b :: rest) = step mode prev c cs ∨ mode = .code ∧ c = '?' ∧
      cs = ['\\'] := by
  by_cases hlit : mode = .code ∧ c = '?' ∧ cs = ['\\']
  · exact .inr hlit
  refine .inl ?_
  have hminus := head?_append_space hb (d := '-') (by decide) cs rest
  have hopen := head?_append_space hb (d := '\x7b') (by decide) cs rest
  have hclose := head?_append_space hb (d := '\x7d') (by decide) cs rest
  have hquotes := twoQuotes_append_space hb cs rest
  cases mode with
  | code =>
    simp only [step, stepCode, hquotes, closesQuote_append_space hb cs hr, hminus, hopen]
    by_cases hq : c = '?'
    · rw [questionLength?_append_space hb fun h => hlit ⟨rfl, hq, h⟩]
    · simp only [hq, if_false]
  | longString => simp only [step, hquotes]
  | blockComment d => simp only [step, stepNested, hminus, hclose]
  | docBlock d => simp only [step, stepNested, hopen, hclose]
  | _ => rfl

end Ahead

/-- The literal of a question mark does not go beyond the text. -/
theorem length_of_questionLength? {cs : List Char} {n : Nat} (h : questionLength? cs = some n) :
    n ≤ cs.length := by
  unfold questionLength? at h
  split at h
  · cases h
    simp
  · cases h
  · split at h
    · cases h
    · cases h
      simp
  · cases h

namespace Cursor

def Ends (s : Cursor) (cs : List Char) : Prop := s.closing = true → s.owed ≤ cs.length

/-- What is owed behind a closing quote stays within the text. -/
theorem Ends.advance {s : Cursor} {c : Char} {cs : List Char} (h : s.Ends (c :: cs)) :
    (s.advance c cs).2.Ends cs := by
  have hfits := step_fits s.mode s.prev c cs
  unfold Cursor.advance
  split
  · rename_i n hn
    split
    · exact nofun
    · intro hc
      have := h hc
      rw [hn, List.length_cons] at this
      exact Nat.le_of_succ_le_succ this
  · -- what a step is to close it has seen in full
    split
    · exact nofun
    · exact nofun
    · rename_i n hstep
      rw [hstep] at hfits
      exact fun _ => length_of_questionLength? hfits.2
    · exact nofun
    · rename_i n hstep
      rw [hstep] at hfits
      intro _
      rcases hfits.2 with ⟨hn, _⟩ | ⟨hn, hhead⟩ | ⟨hn, rest, rfl⟩
      · cases hn
      · obtain ⟨rest, rfl⟩ := List.head?_eq_some_iff.mp hhead
        simp only [List.length_cons]
        omega
      · simp only [List.length_cons]
        omega

/-- White space behind a text leaves the mode that it ends in. -/
theorem mode_advance_space {s : Cursor} (h : s.Ends []) {b : Char} (hb : isSpace b = true)
    (rest : List Char) :
    (s.advance b rest).2.mode = s.mode ∧ (s.advance b rest).2.closing = false := by
  cases ho : s.owed with
  | zero => rw [advance_space_of_owed ho hb]; exact ⟨rfl, rfl⟩
  | succ n =>
    have hc : s.closing = false := Bool.eq_false_iff.mpr fun hc => by
      have := h hc
      rw [ho] at this
      cases this
    simp [advance, ho, hc]

theorem mode_run_space {s : Cursor} (h : s.closing = false) {bs : List Char}
    (hb : ∀ b ∈ bs, isSpace b = true) (rest : List Char) : (s.run rest bs).mode = s.mode := by
  induction bs generalizing s with
  | nil => rfl
  | cons b bs ih =>
    obtain ⟨hmode, hclosing⟩ := mode_advance_space (fun hc => nomatch h.symm.trans hc)
      (hb b List.mem_cons_self) (bs ++ rest)
    rw [run, ih hclosing fun d hd => hb d (List.mem_cons_of_mem b hd), hmode]

/-- The scanner reads a character before white space as if the line ended there, unless the white
space is an escaped character. -/
theorem advance_append_space (s : Cursor) (c : Char) (cs : List Char) {b : Char}
    (hb : isSpace b = true) {rest : List Char} (hr : rest.head? ≠ some '\'') :
    s.advance c (cs ++ b :: rest) = s.advance c cs ∨
      (s.Idle ∧ s.prev.any isNameTail = false) ∧ c = '?' ∧ cs = ['\\'] := by
  cases ho : s.owed with
  | succ n => exact .inl (by simp [advance, ho])
  | zero =>
    rcases step_append_space hb s.mode s.prev c cs hr with hstep | ⟨hm, rfl, rfl⟩
    · exact .inl (by simp [advance, ho, hstep])
    · cases hname : s.prev.any isNameTail with
      | true => exact .inl (by simp [advance, ho, hm, step, stepCode, hname])
      | false => exact .inr ⟨⟨⟨hm, ho⟩, rfl⟩, rfl, rfl⟩

/-- Up to white space the scanner reads as if the line ended there. It may take the white space for
an escaped character; then it is in code before the end of the line and behind the white space. -/
theorem run_append_space {s : Cursor} {cs : List Char} (h : s.Ends cs) {b : Char}
    (hb : isSpace b = true) {rest : List Char} (hr : rest.head? ≠ some '\'') :
    (s.run (b :: rest) cs = s.run [] cs ∧ (s.run [] cs).Ends []) ∨
      ((s.run [] cs).mode = .code ∧ s.run rest (cs ++ [b]) = closed b) := by
  induction cs generalizing s with
  | nil => exact .inl ⟨rfl, h⟩
  | cons c cs ih =>
    rcases s.advance_append_space c cs hb hr with hsame | ⟨⟨⟨hm, ho⟩, hname⟩, rfl, rfl⟩
    · have hlater := ih h.advance
      simp only [List.cons_append, run, List.append_nil, List.append_assoc, List.nil_append, hsame]
        at hlater ⊢
      exact hlater
    · exact .inr ⟨by simp [run, advance, ho, hm, step, stepCode, hname, questionLength?],
        by simp [run, advance, ho, hm, step, stepCode, hname, questionLength?]⟩

/-- White space behind a text, whatever follows it, leaves the scanner in the mode that it has at
the end of the text. -/
theorem mode_run_append_space {s : Cursor} {cs : List Char} (h : s.Ends cs) {bs : List Char}
    (hb : ∀ b ∈ bs, isSpace b = true) {rest : List Char} (hne : bs ≠ [] ∨ rest = [])
    (hr : rest.head? ≠ some '\'') : (s.run rest (cs ++ bs)).mode = (s.run [] cs).mode := by
  cases bs with
  | nil =>
    obtain rfl : rest = [] := hne.resolve_left (absurd rfl)
    rw [List.append_nil]
  | cons b bs =>
    have hspace := hb b List.mem_cons_self
    have hmore : ∀ d ∈ bs, isSpace d = true := fun d hd => hb d (List.mem_cons_of_mem b hd)
    have hhead : (bs ++ rest).head? ≠ some '\'' := by
      cases bs with
      | nil => exact hr
      | cons d bs =>
        intro heq
        cases heq
        exact absurd (hmore _ List.mem_cons_self) (by decide)
    have hsplit : s.run rest (cs ++ b :: bs) = (s.run (bs ++ rest) (cs ++ [b])).run rest bs := by
      rw [← run_append, List.append_assoc, List.singleton_append]
    rw [hsplit]
    rcases run_append_space h hspace hhead with ⟨hsame, hends⟩ | ⟨hcode, hclosed⟩
    · have hone : s.run (bs ++ rest) (cs ++ [b]) = ((s.run [] cs).advance b (bs ++ rest)).2 := by
        rw [run_append, List.singleton_append, hsame]
        rfl
      obtain ⟨hmode, hclosing⟩ := mode_advance_space hends hspace (bs ++ rest)
      rw [hone, mode_run_space hclosing hmore, hmode]
    · rw [hclosed, mode_run_space rfl hmore, hcode]
      rfl

theorem final_append_space {s : Cursor} {cs : List Char} (h : s.Ends cs) {bs : List Char}
    (hb : ∀ b ∈ bs, isSpace b = true) : s.final (cs ++ bs) = s.final cs := by
  rw [final_eq_mode_run, final_eq_mode_run]
  exact mode_run_append_space h hb (.inr rfl) (by simp)

/-- White space at the end shows nothing. -/
theorem shows_append_space {s : Cursor} {cs bs : List Char} (hb : ∀ b ∈ bs, isSpace b = true) :
    s.shows (cs ++ bs) = s.shows cs := by
  induction cs generalizing s with
  | nil => exact s.shows_eq_false_of_isSpace hb
  | cons c cs ih =>
    cases bs with
    | nil => rw [List.append_nil]
    | cons b bs =>
      have hhead : bs.head? ≠ some '\'' := fun heq =>
        absurd (hb _ (List.mem_cons_of_mem b (List.mem_of_mem_head? heq))) (by decide)
      rcases s.advance_append_space c cs (hb b List.mem_cons_self) hhead
        with hsame | ⟨⟨hs, hname⟩, rfl, rfl⟩
      · rw [List.cons_append, shows_cons, hsame, ih, shows_cons]
      · -- the question mark shows, whether it opens a literal or not
        have hshown : ∀ ahead, (s.advance '?' ahead).1.shown = true := by
          intro ahead
          rw [advance_idle hs]
          cases hlen : questionLength? ahead <;> simp [stepCode, hname, hlen, Mark.shown] <;> decide
        rw [List.cons_append, shows_cons, shows_cons, hshown, hshown, Bool.true_or, Bool.true_or]

/-- What the scanner still owes keeps it in its mode. -/
theorem mode_run_of_lt_owed {s : Cursor} {cs : List Char} (h : cs.length < s.owed)
    (rest : List Char) : (s.run rest cs).mode = s.mode := by
  induction cs generalizing s with
  | nil => rfl
  | cons c cs ih =>
    obtain ⟨n, hn⟩ := Nat.exists_eq_succ_of_ne_zero (Nat.ne_zero_of_lt h)
    rw [hn, List.length_cons] at h
    have hnext : (s.advance c (cs ++ rest)).2 = ⟨s.mode, n, s.closing, false, some c⟩ := by
      have hpos : n ≠ 0 := by omega
      simp [advance, hn, hpos]
    rw [run, hnext]
    exact ih (by simp only; omega)

theorem owed_le_of_idle {s : Cursor} {cs rest : List Char} (h : (s.run rest cs).Idle)
    (hm : s.mode ≠ .code) : s.owed ≤ cs.length :=
  Nat.le_of_not_lt fun hlt => hm ((mode_run_of_lt_owed hlt rest).symm.trans h.1)

end Cursor

theorem twoQuotes_append (cs rest : List Char) :
    ['"', '"'].isPrefixOf (cs ++ rest) = ['"', '"'].isPrefixOf cs ∨
      ['"', '"'].isPrefixOf (cs ++ rest) = true ∧ cs.length < 2 := by
  match cs with
  | [] => cases h : ['"', '"'].isPrefixOf rest <;> simp [h]
  | [c] => cases h : ['"', '"'].isPrefixOf (c :: rest) <;> simp [h, List.isPrefixOf]
  | c :: d :: cs => exact .inl (by simp [List.isPrefixOf])

/-- More text behind a quote changes whether it closes only if one character at most stood behind
it, escaped or not. -/
theorem closesQuote_append (cs rest : List Char) :
    closesQuote (cs ++ rest) = closesQuote cs ∨
      closesQuote (cs ++ rest) = true ∧
        (cs = [] ∨ (∃ c, c ≠ '\'' ∧ cs = [c]) ∨ ∃ c, cs = ['\\', c]) := by
  have hlonger : closesQuote cs = true → closesQuote (cs ++ rest) = true := by
    rw [closesQuote_iff, closesQuote_iff]
    rintro (⟨c, later, rfl⟩ | ⟨c, later, hback, hquote, rfl⟩)
    · exact .inl ⟨c, later ++ rest, rfl⟩
    · exact .inr ⟨c, later ++ rest, hback, hquote, rfl⟩
  cases hnow : closesQuote (cs ++ rest) with
  | false => exact .inl (Bool.eq_false_iff.mpr fun h => by rw [hlonger h] at hnow; cases hnow).symm
  | true =>
    rw [closesQuote_iff] at hnow
    match cs with
    | [] => exact .inr ⟨rfl, .inl rfl⟩
    | [c] =>
      refine .inr ⟨rfl, .inr (.inl ⟨c, ?_, rfl⟩)⟩
      rintro rfl
      rcases hnow with ⟨_, _, heq⟩ | ⟨_, _, -, hquote, heq⟩
      · cases heq
      · cases heq
        exact hquote rfl
    | [c, d] =>
      by_cases hc : c = '\\'
      · exact .inr ⟨rfl, .inr (.inr ⟨d, by rw [hc]⟩)⟩
      · refine .inl (Eq.symm ?_)
        rw [closesQuote_iff]
        simpa [hc] using hnow
    | c :: d :: e :: cs =>
      refine .inl (Eq.symm ?_)
      rw [closesQuote_iff]
      simpa using hnow

theorem head?_append_or (cs rest : List Char) : (cs ++ rest).head? = cs.head? ∨ cs = [] := by
  cases cs with
  | nil => exact .inr rfl
  | cons c cs => exact .inl rfl

/-- More text behind a question mark changes its literal only if that takes up some of it. -/
theorem questionLength?_append (cs rest : List Char) :
    questionLength? (cs ++ rest) = questionLength? cs ∨
      ∃ n, questionLength? (cs ++ rest) = some n ∧ cs.length < n := by
  match cs with
  | [] =>
    cases h : questionLength? rest with
    | none => exact .inl h
    | some n =>
      have := Cursor.questionLength?_le h
      exact .inr ⟨n, h, by simp only [List.length_nil]; omega⟩
  | [c] =>
    by_cases hc : c = '\\'
    · subst hc
      cases rest with
      | nil => exact .inl rfl
      | cons d rest => exact .inr ⟨2, rfl, by decide⟩
    · exact .inl (by simp [questionLength?, hc])
  | c :: d :: cs => exact .inl (by by_cases hc : c = '\\' <;> simp [questionLength?, hc])

namespace Cursor

/-- A step in code that sees beyond `cs` leaves the scanner busy there. -/
theorem stepCode_cut {s : Cursor} (hs : s.Idle) {c : Char} {cs rest : List Char}
    (h : ((s.advance c (cs ++ rest)).2.run rest cs).Idle) :
    stepCode s.prev c (cs ++ rest) = stepCode s.prev c cs := by
  rw [advance_idle hs] at h
  by_cases hquote : c = '"'
  · have hstep : ∀ ahead, stepCode s.prev c ahead =
        if ['"', '"'].isPrefixOf ahead then .enter .longString 2 else .enter .string 0 := by
      simp [stepCode, hquote]
    rcases twoQuotes_append cs rest with heq | ⟨hlong, hlt⟩
    · rw [hstep, hstep, heq]
    · rw [hstep, if_pos hlong] at h
      exact absurd hlt (Nat.not_lt.mpr (owed_le_of_idle h (fun hm => by cases hm)))
  by_cases htick : c = '\''
  · have hstep : ∀ ahead, stepCode s.prev c ahead =
        if s.prev.any isNameTail || !closesQuote ahead then
          .stay .code 0 else .enter .charQuote 0 := by
      simp [stepCode, htick]
    rcases closesQuote_append cs rest with heq | ⟨hcloses, hshort⟩
    · rw [hstep, hstep, heq]
    · cases hname : s.prev.any isNameTail with
      | true => simp [hstep, hname]
      | false =>
        -- the closing quote comes only behind the cut
        rw [hstep, hname, hcloses] at h
        rcases hshort with rfl | ⟨d, hd, rfl⟩ | ⟨d, rfl⟩
        · cases h.1
        · by_cases hback : d = '\\' <;> simp [run, advance, step, stepQuoted, hd, hback, Idle] at h
        · simp [run, advance, step, stepQuoted, Idle] at h
  by_cases hquestion : c = '?'
  · have hstep : ∀ ahead, stepCode s.prev c ahead =
        if s.prev.any isNameTail then .stay .code 0
        else (questionLength? ahead).elim (.stay .code 0) .whole := by
      intro ahead
      cases hlen : questionLength? ahead <;> simp [stepCode, hquestion, hlen]
    rcases questionLength?_append cs rest with heq | ⟨n, hn, hlt⟩
    · rw [hstep, hstep, heq]
    · cases hname : s.prev.any isNameTail with
      | true => simp [hstep, hname]
      | false =>
        rw [hstep, hname, hn] at h
        exact absurd hlt (Nat.not_lt.mpr (owed_le_of_idle h (fun hm => by cases hm)))
  rcases head?_append_or cs rest with heq | rfl
  · simp only [stepCode, hquote, htick, hquestion, if_false, heq]
  · -- across the cut only a comment can open
    have hfits := stepCode_fits s.prev c rest
    rw [List.nil_append] at h ⊢
    have hnone : stepCode s.prev c [] = .stay .code 0 := by
      simp [stepCode, hquote, htick, hquestion]
    rw [hnone]
    cases hstep : stepCode s.prev c rest with
    | stay mode n =>
      rw [hstep] at h
      obtain ⟨hm, hn⟩ := h
      simp only [run] at hm hn
      rw [hm, hn]
    | enter mode n =>
      rw [hstep] at h hfits
      exact absurd h.1 hfits.2.1
    | whole n =>
      rw [hstep] at h
      cases h.1
    | leave n =>
      rw [hstep] at hfits
      exact absurd rfl hfits.1

/-- Inside a nest the scanner is not idle behind any character. -/
theorem not_idle_advance_nested {s : Cursor} (ho : s.owed = 0) {mode : Nat → Mode}
    (hm : ∀ n, mode n ≠ .code) {opening closing : Char × Char} {depth : Nat} {c : Char}
    {rest : List Char} (hmode : s.mode = mode depth)
    (hstep : step s.mode s.prev c rest = stepNested mode opening closing depth c rest) :
    ¬ (s.advance c rest).2.Idle := by
  simp only [advance, ho, hstep, stepNested]
  by_cases hopen : c = opening.1 ∧ rest.head? = some opening.2
  · rw [if_pos hopen]
    exact fun h => hm _ h.1
  by_cases hclose : c = closing.1 ∧ rest.head? = some closing.2
  · rw [if_neg hopen, if_pos hclose]
    by_cases hlast : depth ≤ 1
    · rw [if_pos hlast]
      exact fun h => hm depth (hmode.symm.trans h.1)
    · rw [if_neg hlast]
      exact fun h => hm _ h.1
  · rw [if_neg hopen, if_neg hclose]
    exact fun h => hm _ h.1

/-- A step that sees beyond `cs` leaves the scanner busy there. -/
theorem step_cut {s : Cursor} (ho : s.owed = 0) {c : Char} {cs rest : List Char}
    (h : ((s.advance c (cs ++ rest)).2.run rest cs).Idle) :
    step s.mode s.prev c (cs ++ rest) = step s.mode s.prev c cs := by
  cases hm : s.mode with
  | code => exact stepCode_cut ⟨hm, ho⟩ h
  | longString =>
    rcases twoQuotes_append cs rest with heq | ⟨hlong, hlt⟩
    · simp only [step, heq]
    · by_cases hc : c = '"'
      · simp only [advance, ho, hm, step, hc, hlong, and_self, if_true] at h
        exact absurd hlt (Nat.not_lt.mpr (owed_le_of_idle h (fun hm => by cases hm)))
      · simp only [step, hc, false_and]
  | blockComment d =>
    rcases head?_append_or cs rest with heq | rfl
    · simp only [step, stepNested, heq]
    · exact absurd h (not_idle_advance_nested ho (fun _ => Mode.noConfusion) hm (by rw [hm]; rfl))
  | docBlock d =>
    rcases head?_append_or cs rest with heq | rfl
    · simp only [step, stepNested, heq]
    · exact absurd h (not_idle_advance_nested ho (fun _ => Mode.noConfusion) hm (by rw [hm]; rfl))
  | _ => rfl

/-- A character is read in the same way if the line is cut at a place where the scanner is idle. -/
theorem advance_cut {s : Cursor} {c : Char} {cs rest : List Char}
    (h : ((s.advance c (cs ++ rest)).2.run rest cs).Idle) :
    s.advance c cs = s.advance c (cs ++ rest) := by
  cases ho : s.owed with
  | succ n => simp [advance, ho]
  | zero => simp only [advance, ho, step_cut ho h]

/-- At a place where the scanner is idle the line may be cut. -/
theorem run_cut {s : Cursor} {cs rest : List Char} (h : (s.run rest cs).Idle) :
    s.run [] cs = s.run rest cs := by
  induction cs generalizing s with
  | nil => rfl
  | cons c cs ih =>
    rw [run, List.append_nil, advance_cut h, run]
    exact ih h

end Cursor

end ScratchFormat
