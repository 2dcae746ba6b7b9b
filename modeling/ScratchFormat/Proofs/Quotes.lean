import ScratchFormat.Proofs.Partition
import ScratchFormat.Proofs.Rescan

/-! Quoted characters. A quote opens a literal only after a look ahead has found the quote that
closes it. What is read then, character by character and with a rule of its own for escapes, ends at
that very place, so no quoted character is left open at the end of a line. -/

namespace ScratchFormat

open Gaps (flat flat_cons prev_run_start)

inductive QuotedChar : List Char → Prop
  | plain {c : Char} (hback : c ≠ '\\') (hquote : c ≠ '\'') : QuotedChar ['\'', c, '\'']
  | escaped (c : Char) : QuotedChar ['\'', '\\', c, '\'']

/-- What stands between the quotes is one of the two texts that the look ahead steps over, and no
quote is first. -/
theorem QuotedChar.exists_inner {text : List Char} (h : QuotedChar text) :
    ∃ inner, text = '\'' :: (inner ++ ['\'']) ∧
      ((∃ c, inner = ['\\', c]) ∨ ∃ c, c ≠ '\\' ∧ inner = [c]) ∧
      ∀ post, (inner ++ post).head? ≠ some '\'' := by
  cases h with
  | @plain c hback hquote =>
    exact ⟨[c], rfl, .inr ⟨c, hback, rfl⟩, fun _ h => hquote (Option.some.inj h)⟩
  | escaped c =>
    exact ⟨['\\', c], rfl, .inl ⟨c, rfl⟩, fun _ h => absurd (Option.some.inj h) (by decide)⟩

/-- The look ahead finds a closing quote if a quoted character stands there. -/
theorem closesQuote_iff_quotedChar (cs : List Char) :
    closesQuote cs = true ↔ ∃ body rest, QuotedChar ('\'' :: body) ∧ cs = body ++ rest := by
  rw [closesQuote_iff]
  constructor
  · rintro (⟨c, rest, rfl⟩ | ⟨c, rest, hback, hquote, rfl⟩)
    · exact ⟨_, rest, .escaped c, rfl⟩
    · exact ⟨_, rest, .plain hback hquote, rfl⟩
  · rintro ⟨body, rest, hquoted, rfl⟩
    cases hquoted with
    | plain hback hquote => exact .inr ⟨_, rest, hback, hquote, rfl⟩
    | escaped c => exact .inl ⟨c, rest, rfl⟩

/-- What a step does outside quoted characters. It goes into one only if the text ahead closes it,
and takes a literal as a whole only if all of it is on the line. -/
def Step.Foresees (rest : List Char) : Step → Prop
  | .stay mode _ => mode ≠ .charQuote
  | .enter mode n => mode = .charQuote → n = 0 ∧ closesQuote rest = true
  | .whole n => 0 < n ∧ n ≤ rest.length
  | .leave _ => True

/-- In code a quote is entered only if the look ahead closes it. -/
theorem foresees_stepCode (prev : Option Char) (c : Char) (rest : List Char) :
    (stepCode prev c rest).Foresees rest := by
  unfold stepCode
  split
  · split <;> rintro ⟨⟩
  split
  · split
    · rintro ⟨⟩
    · -- the only way in, and the text ahead has been looked at
      rename_i hcloses
      simp only [Bool.or_eq_true, not_or, Bool.not_eq_true', Bool.not_eq_false] at hcloses
      exact fun _ => ⟨rfl, hcloses.2⟩
  split
  · split
    · rintro ⟨⟩
    · split
      · -- a character behind a question mark, whose length was measured on the text ahead
        rename_i n hn
        obtain ⟨ds, ys, rfl, rfl, hne⟩ := Bytewise.eq_append_of_questionLength? hn
        refine ⟨List.length_pos_iff.mpr hne, ?_⟩
        rw [List.length_append]
        exact Nat.le_add_right _ _
      · rintro ⟨⟩
  split
  · rintro ⟨⟩
  split
  · rintro ⟨⟩
  split <;> rintro ⟨⟩

theorem foresees_stepNested (mode : Nat → Mode) (hmode : ∀ n, mode n ≠ .charQuote)
    (opening closing : Char × Char) (depth : Nat) (c : Char) (rest : List Char) :
    (stepNested mode opening closing depth c rest).Foresees rest := by
  unfold stepNested
  split
  · exact hmode _
  split
  · split
    · trivial
    · exact hmode _
  · exact hmode _

/-- In no mode but a quoted character's own is a quote entered that the look ahead does not
close. -/
theorem foresees_step {mode : Mode} (hmode : mode ≠ .charQuote) (prev : Option Char) (c : Char)
    (rest : List Char) :
    (step mode prev c rest).Foresees rest := by
  cases mode with
  | code => exact foresees_stepCode prev c rest
  | charQuote => exact absurd rfl hmode
  | string =>
    rw [step, stepQuoted]
    split
    · rintro ⟨⟩
    split
    · trivial
    · rintro ⟨⟩
  | longString =>
    rw [step]
    split
    · trivial
    · rintro ⟨⟩
  | lineComment => rintro ⟨⟩
  | blockComment depth =>
    exact foresees_stepNested .blockComment (fun _ => by rintro ⟨⟩) _ _ depth c rest
  | docBlock depth => exact foresees_stepNested .docBlock (fun _ => by rintro ⟨⟩) _ _ depth c rest

namespace Cursor

inductive Closes : Cursor → List Char → Prop
  | outside {s : Cursor} {cs : List Char} (hmode : s.mode ≠ .charQuote) : Closes s cs
  /-- In a literal that was taken as a whole. -/
  | owing {s : Cursor} {cs : List Char} (hclosing : s.closing = true) (hpos : 0 < s.owed)
    (hlen : s.owed ≤ cs.length) : Closes s cs
  | opened {fresh : Bool} {prev : Option Char} {cs : List Char} (h : closesQuote cs = true) :
    Closes ⟨.charQuote, 0, false, fresh, prev⟩ cs
  | escaped (fresh : Bool) (prev : Option Char) (c : Char) (cs : List Char) :
    Closes ⟨.charQuote, 1, false, fresh, prev⟩ (c :: '\'' :: cs)
  | last (fresh : Bool) (prev : Option Char) (cs : List Char) :
    Closes ⟨.charQuote, 0, false, fresh, prev⟩ ('\'' :: cs)

/-- What the look ahead has promised is kept behind every character. -/
theorem closes_advance {s : Cursor} {c : Char} {cs : List Char} (h : s.Closes (c :: cs)) :
    (s.advance c cs).2.Closes cs := by
  cases h with
  | outside hmode =>
    have hstep := foresees_step hmode s.prev c cs
    unfold advance
    split
    · split
      · exact .outside (by rintro ⟨⟩)
      · exact .outside hmode
    · split <;> rename_i heq <;> rw [heq] at hstep
      · exact .outside hstep
      · rename_i mode n
        by_cases hquote : mode = .charQuote
        · obtain ⟨rfl, hcloses⟩ := hstep hquote
          subst hquote
          exact .opened hcloses
        · exact .outside hquote
      · exact .owing rfl hstep.1 hstep.2
      · exact .outside (by rintro ⟨⟩)
      · exact .outside hmode
  | owing hclosing hpos hlen =>
    -- one character less is owed, and behind the last one the literal is closed
    rw [List.length_cons] at hlen
    unfold advance
    split
    · rename_i n hn
      by_cases hlast : n = 0
      · rw [if_pos ⟨hlast, hclosing⟩]
        exact .outside (by rintro ⟨⟩)
      · rw [if_neg fun h => hlast h.1]
        exact .owing hclosing (Nat.pos_of_ne_zero hlast) (by simp only; omega)
    · omega
  | opened hcloses =>
    -- what the look ahead found decides which way the character is read
    rcases (closesQuote_iff _).mp hcloses with ⟨d, rest, h⟩ | ⟨d, rest, hback, hquote, h⟩
    · obtain ⟨rfl, rfl⟩ := List.cons.inj h
      exact .escaped _ _ d rest
    · obtain ⟨rfl, rfl⟩ := List.cons.inj h
      simp only [advance, step, stepQuoted, if_neg hback, if_neg hquote]
      exact .last _ _ rest
  | escaped fresh prev c rest => exact .last _ _ rest
  | last fresh prev rest => exact .outside (by rintro ⟨⟩)

theorem closes_final {s : Cursor} {cs : List Char} (h : s.Closes cs) : s.final cs ≠ .charQuote := by
  induction cs generalizing s with
  | nil =>
    cases h with
    | outside hmode => exact hmode
    | owing hclosing hpos hlen => exact absurd hlen (Nat.not_le_of_gt hpos)
    | opened hcloses => cases hcloses
  | cons c cs ih => exact ih (closes_advance h)

end Cursor

theorem Mode.Starts.ne_charQuote {m : Mode} (h : m.Starts) : m ≠ .charQuote := by
  rintro rfl
  cases h

theorem endsIn_ne_charQuote {mode : Mode} (hmode : mode ≠ .charQuote) (raw : List Char) :
    (scanLine mode raw).endsIn ≠ .charQuote :=
  Cursor.closes_final (.outside hmode)

namespace Cursor

/-- The scanner in code, at a single quote. -/
theorem advance_quote {s : Cursor} (hidle : s.Idle) (rest : List Char) :
    s.advance '\'' rest =
      if s.prev.any isNameTail || !closesQuote rest then
        (⟨'\'', .code, s.fresh⟩, ⟨.code, 0, false, false, some '\''⟩)
      else (⟨'\'', .literal, true⟩, ⟨.charQuote, 0, false, false, some '\''⟩) := by
  rw [advance_idle hidle]
  cases hname : s.prev.any isNameTail <;> cases hcloses : closesQuote rest <;>
    simp [stepCode, hname, hcloses, Mode.kind]

theorem not_idle_of_charQuote {s : Cursor} (hmode : s.mode = .charQuote) : ¬ s.Idle := by
  rintro ⟨hcode, -⟩
  rw [hmode] at hcode
  cases hcode

/-- Behind its opening quote a quoted character keeps the scanner busy up to its end and no
further. -/
theorem busyAlong_quotedChar {body : List Char} (h : QuotedChar ('\'' :: body)) (prev : Option Char)
    (rest : List Char) :
    BusyAlong ⟨.charQuote, 0, false, false, prev⟩ rest body ∧
      (run ⟨.charQuote, 0, false, false, prev⟩ rest body).Idle := by
  cases h with
  | @plain c hback hquote =>
    have hfirst : (advance ⟨.charQuote, 0, false, false, prev⟩ c ('\'' :: rest)).2 =
        ⟨.charQuote, 0, false, false, some c⟩ := by
      simp only [advance, step, stepQuoted, if_neg hback, if_neg hquote]
    rw [BusyAlong, List.singleton_append, hfirst, run, List.singleton_append, hfirst]
    exact ⟨⟨not_idle_of_charQuote rfl, not_idle_of_charQuote rfl, trivial⟩, rfl, rfl⟩
  | escaped c =>
    exact ⟨⟨not_idle_of_charQuote rfl, not_idle_of_charQuote rfl, not_idle_of_charQuote rfl,
      trivial⟩, rfl, rfl⟩

/-- A stretch along which the scanner is busy, and behind which it is idle, is the only one. -/
theorem eq_of_busyAlong {s : Cursor} {as bs later later' : List Char}
    (htext : as ++ later = bs ++ later') (has : s.BusyAlong later as)
    (hidle : later ≠ [] → (s.run later as).Idle) (hbs : s.BusyAlong later' bs)
    (hidle' : (s.run later' bs).Idle) : as = bs := by
  -- along both stretches at once: the scanner cannot be idle behind one of them and busy inside the other
  induction as generalizing s bs with
  | nil =>
    cases bs with
    | nil => rfl
    | cons b bs =>
      have hmore : later ≠ [] := by
        rintro rfl
        cases htext
      exact absurd (hidle hmore) hbs.1
  | cons a as ih =>
    cases bs with
    | nil => exact absurd hidle' has.1
    | cons b bs =>
      obtain ⟨rfl, hrest⟩ : a = b ∧ as ++ later = bs ++ later' := List.cons.inj htext
      rw [BusyAlong, hrest] at has
      rw [run, hrest] at hidle
      exact congrArg (a :: ·) (ih hrest has.2 hidle hbs.2 hidle')

end Cursor

/-- Where the scanner is busy the segment goes on that it is busy with. -/
theorem Lexed.kind_of_busy {s : Cursor} {t : Segment} {ts : List Segment} (h : Lexed s (t :: ts))
    (hsound : s.Sound (flat (t :: ts))) (hbusy : ¬ s.Idle) : t.kind = s.mode.kind := by
  cases h with
  | code hidle => exact absurd (Cursor.idle_of_idleAlong hidle) hbusy
  | token hkind hmark => exact hmark.symm.trans (Cursor.mark_of_busy hsound hbusy).1

/-- A literal that a quote opens is a quoted character. -/
theorem Lexed.quotedChar {s : Cursor} {t : Segment} {ts : List Segment} (h : Lexed s (t :: ts))
    (hidle : s.Idle) (hkind : t.kind = .literal) (hquote : t.text.head? = some '\'') :
    QuotedChar t.text := by
  cases h with
  | code => cases hkind
  | @token _ kind c text _ hcode hmark hbusy hnext hrest =>
    obtain rfl : c = '\'' := Option.some.inj hquote
    obtain rfl : kind = .literal := hkind
    rw [Cursor.advance_quote hidle] at hmark hbusy
    rw [Cursor.run, Cursor.advance_quote hidle] at hnext
    split at hmark
    · cases hmark
    · rename_i hopens
      rw [if_neg hopens] at hbusy hnext
      simp only [Bool.or_eq_true, not_or, Bool.not_eq_true', Bool.not_eq_false] at hopens
      obtain ⟨body, rest, hquoted, htext⟩ := (closesQuote_iff_quotedChar _).mp hopens.2
      obtain ⟨hall, hend⟩ := Cursor.busyAlong_quotedChar hquoted (some '\'') rest
      have hlater : ts.flatMap Segment.text ≠ [] → ts ≠ [] := by
        rintro hne rfl
        exact hne rfl
      have hbody : text = body :=
        Cursor.eq_of_busyAlong htext hbusy (fun hne => hnext (hlater hne)) hall hend
      exact hbody ▸ hquoted

/-- A quote that is left in code belongs to a name, or nothing closes it. -/
theorem Lexed.quote_in_code {s : Cursor} {pre post : List Char} {ts : List Segment}
    (h : Lexed s (⟨.code, pre ++ '\'' :: post⟩ :: ts)) :
    (s.run ('\'' :: post ++ ts.flatMap Segment.text) pre).prev.any isNameTail = true ∨
      closesQuote (post ++ ts.flatMap Segment.text) = false := by
  have halong := Cursor.idleAlong_append h.of_code.1
  have hnext := Cursor.idle_of_idleAlong halong.2
  rw [Cursor.advance_quote halong.1] at hnext
  split at hnext
  · rename_i hstays
    simpa using hstays
  · exact absurd hnext (Cursor.not_idle_of_charQuote rfl)

namespace Bytewise

/-- The look ahead from an opening quote ends behind the closing one. -/
theorem quoteEnd?_quotedChar {text : List Char} (h : QuotedChar text) (pre post : List Char)
    (hroom : byteLength (pre ++ (text ++ post)) + 4 < wordSize) :
    quoteEnd? (pre ++ (text ++ post)) (byteLength pre) =
      some (some (byteLength (pre ++ text))) := by
  obtain ⟨inner, rfl, hinner, hfirst⟩ := h.exists_inner
  have hstop : byteLength (pre ++ '\'' :: (inner ++ ['\''])) = byteLength pre + 1 +
      byteLength inner + 1 := by
    rw [byteLength_ascii rfl, byteLength_append, ← Nat.add_assoc]
    rfl
  have hlength : byteLength (pre ++ ('\'' :: (inner ++ ['\'']) ++ post)) =
      byteLength pre + 1 + byteLength inner + 1 + byteLength post := by
    rw [← List.append_assoc, byteLength_append, hstop]
  have hline : pre ++ ('\'' :: (inner ++ ['\'']) ++ post) = pre ++ '\'' ::
      (inner ++ '\'' :: post) := by simp
  -- the closing quote is one byte long, so it is found as that byte
  have hbyte : (Utf8.encode (pre ++ '\'' :: (inner ++ '\'' :: post)))[byteLength pre + 1 +
      byteLength inner]? = some (UInt8.ofNat '\''.toNat) := by
    have hsplit : pre ++ '\'' :: (inner ++ '\'' :: post) = (pre ++ '\'' :: inner) ++ '\'' ::
        post := by simp
    rw [getElem?_encode_iff rfl, hsplit, ← byteLength_ascii (q := '\'') rfl,
      ahead_append (List.all_eq_true.mp rfl)]
    rfl
  rw [hlength] at hroom
  rw [hstop, hline, quoteEnd?, add?_eq (by omega)]
  simp only [Option.bind_eq_bind, Option.bind_some, sliceFrom?_ascii (q := '\'') rfl]
  rw [if_neg (hfirst _), charEnd?_char hinner _ (by omega)]
  simp only [Option.bind_some]
  rw [if_pos hbyte, add?_eq (by omega)]
  rfl

/-- The look ahead finds nothing where nothing closes the quote. -/
theorem quoteEnd?_eq_none (pre : List Char) {post : List Char} (hcloses : closesQuote post = false)
    (hroom : byteLength (pre ++ '\'' :: post) + 4 < wordSize) :
    quoteEnd? (pre ++ '\'' :: post) (byteLength pre) = some none := by
  obtain ⟨stop, hstop, hsome⟩ := quoteEnd?_eq pre post hroom
  rw [hcloses, Option.isSome_eq_false_iff, Option.isNone_iff_eq_none] at hsome
  rw [hstop, hsome]

end Bytewise

namespace ScannedLine

/-- A single quote opens the literal `t`, which comes behind `earlier`. What goes on with a string
of the line above is not opened on this line, whatever it begins with. -/
structure OpensQuote (l : ScannedLine) (earlier : List Segment) (t : Segment) : Prop where
  literal : t.kind = .literal
  quote : t.text.head? = some '\''
  here : earlier = [] → l.startsIn ≠ .longString

/-- No quoted character is left open in a line: each literal that a quote opens is a whole one. -/
structure QuotesClose (l : ScannedLine) : Prop where
  ends : l.endsIn ≠ .charQuote
  quoted : ∀ earlier t later, l.segments = earlier ++ t :: later → l.OpensQuote earlier t →
    QuotedChar t.text

/-- The look ahead tells where the literals of a line end. It finds nothing to close a quote that is
left in code, unless the quote belongs to a name. -/
structure QuotesForeseen (l : ScannedLine) : Prop where
  closes : ∀ earlier t later, l.segments = earlier ++ t :: later → l.OpensQuote earlier t →
    Bytewise.quoteEnd? l.raw (byteLength (flat earlier)) =
    some (some (byteLength (flat earlier ++ t.text)))
  stays : ∀ earlier pre post later, l.segments = earlier ++ ⟨.code, pre ++ '\'' :: post⟩ :: later →
    Bytewise.nameBefore? l.raw (byteLength (flat earlier ++ pre)) = some true ∨
      Bytewise.quoteEnd? l.raw (byteLength (flat earlier ++ pre)) = some none

end ScannedLine

section Line

variable {mode : Mode} {raw : List Char} {earlier later : List Segment}

theorem lexed_behind {ts : List Segment} (h : (scanLine mode raw).segments = earlier ++ ts) :
    Lexed ((Cursor.start mode).run (flat ts) (flat earlier)) ts ∧
      (earlier ≠ [] → ts ≠ [] → ((Cursor.start mode).run (flat ts) (flat earlier)).Idle) := by
  have hlexed : Lexed (.start mode) (earlier ++ ts) :=
    h ▸ lexed_ofMarks (Cursor.sound_start mode raw)
  exact hlexed.behind

theorem raw_eq_behind {ts : List Segment} (h : (scanLine mode raw).segments = earlier ++ ts) :
    raw = flat earlier ++ flat ts := by
  have hwhole := segments_flatMap_text mode raw
  rw [h, List.flatMap_append] at hwhole
  exact hwhole.symm

/-- A literal that a quote opens is a whole quoted character. -/
theorem quotedChar_of_opensQuote (hmode : mode.Starts) {t : Segment}
    (h : (scanLine mode raw).segments = earlier ++ t :: later)
    (hopens : (scanLine mode raw).OpensQuote earlier t) : QuotedChar t.text := by
  obtain ⟨hlexed, hidle⟩ := lexed_behind h
  apply hlexed.quotedChar ?_ hopens.literal hopens.quote
  by_cases hearlier : earlier = []
  · subst hearlier
    refine Decidable.byContradiction fun hbusy => ?_
    -- the first segment goes on with what the line begins in, and the only literal is a string
    have hkind := hlexed.kind_of_busy (Cursor.sound_start mode _) hbusy
    rw [hopens.literal] at hkind
    cases hmode with
    | code => exact hbusy ⟨rfl, rfl⟩
    | longString => exact hopens.here rfl rfl
    | blockComment hdepth => cases hkind
    | docBlock hdepth => cases hkind
  · exact hidle hearlier (List.cons_ne_nil t later)

theorem closes_of_opensQuote (hmode : mode.Starts)
    (hroom : byteLength raw + 4 < wordSize) {t : Segment}
    (h : (scanLine mode raw).segments = earlier ++ t :: later)
    (hopens : (scanLine mode raw).OpensQuote earlier t) :
    Bytewise.quoteEnd? raw (byteLength (flat earlier)) =
      some (some (byteLength (flat earlier ++ t.text))) := by
  have hraw := raw_eq_behind h
  rw [flat_cons] at hraw
  rw [hraw] at hroom ⊢
  exact Bytewise.quoteEnd?_quotedChar (quotedChar_of_opensQuote hmode h hopens) (flat earlier)
    (flat later) hroom

/-- A quote that stays in code stands behind a name, or nothing closes it. -/
theorem stays_in_code (hroom : byteLength raw + 4 < wordSize) {pre post : List Char}
    (h : (scanLine mode raw).segments = earlier ++ ⟨.code, pre ++ '\'' :: post⟩ :: later) :
    Bytewise.nameBefore? raw (byteLength (flat earlier ++ pre)) = some true ∨
      Bytewise.quoteEnd? raw (byteLength (flat earlier ++ pre)) = some none := by
  have hraw : raw = flat earlier ++ pre ++ '\'' :: (post ++ flat later) := by
    rw [raw_eq_behind h, flat_cons]
    simp
  have hprev :
      (((Cursor.start mode).run (flat (⟨.code, pre ++ '\'' :: post⟩ :: later)) (flat earlier)).run
        ('\'' :: post ++ flat later) pre).prev = (flat earlier ++ pre).getLast? := by
    have hjoin : flat (⟨.code, pre ++ '\'' :: post⟩ :: later) = pre ++
        ('\'' :: post ++ flat later) := by
      rw [flat_cons, List.append_assoc]
    rw [hjoin, ← Cursor.run_append, prev_run_start]
  rcases (lexed_behind h).1.quote_in_code with hname | hopen
  · left
    rw [hraw, Bytewise.nameBefore?_append]
    exact congrArg some (hprev ▸ hname)
  · right
    rw [hraw] at hroom ⊢
    exact Bytewise.quoteEnd?_eq_none _ hopen hroom

end Line

theorem quotesClose_scanLine {mode : Mode} (hmode : mode.Starts) (raw : List Char) :
    (scanLine mode raw).QuotesClose where
  ends := endsIn_ne_charQuote hmode.ne_charQuote raw
  quoted _ _ _ := quotedChar_of_opensQuote hmode

theorem quotesForeseen_scanLine {mode : Mode} (hmode : mode.Starts) {raw : List Char}
    (hroom : byteLength raw + 4 < wordSize) : (scanLine mode raw).QuotesForeseen where
  closes _ _ _ := closes_of_opensQuote hmode hroom
  stays _ _ _ _ := stays_in_code hroom

/-- On lines that are fed to the scanner one after another every quoted character is closed: no line
ends inside one, and a literal that a quote opens is the quote, one character, possibly escaped, and
a quote again. It ends where the look ahead from its opening quote says, and a quote that is left in
code belongs to a name, or the look ahead finds nothing that closes it. So it is for a scanner that
walks from byte to byte too, as long as the lines fit in memory and comments do not nest deeper than
its counter goes. -/
theorem scanFrom_quotes_close (ls : List (List Char)) :
    (∀ l ∈ scanFrom .code ls, l.QuotesClose ∧
      (byteLength l.raw + 4 < wordSize → l.QuotesForeseen)) ∧
      ((∀ l ∈ ls, byteLength l + 4 < wordSize) → (ls.flatMap solid).length < 4294967296 →
        Bytewise.scanFrom? .code ls = some (scanFrom .code ls)) := by
  constructor
  · intro l hl
    have hstarts : l.startsIn.Starts := (lossless_scanFrom .code ls l hl).1
    rw [(mem_scanFrom hl).1]
    exact ⟨quotesClose_scanLine hstarts l.raw, quotesForeseen_scanLine hstarts⟩
  · intro hroom hdepth
    apply Bytewise.scanFrom?_eq hroom
    simpa [Bytewise.depthOf] using hdepth

/-- Two bytes between quotes, an escaped quote and an escaped character of two bytes. On the line
below, which begins in a string, a quote is part of the string; behind it one belongs to a name and
one delays what follows. -/
theorem scanFrom_quotes_close_escaped :
    let ls := ["t = 'é' ++ '\\'' ++ '\\é' \"\"\"".toList, "' it's \"\"\" go' 'run".toList]
    let first := scanLine .code "t = 'é' ++ '\\'' ++ '\\é' \"\"\"".toList
    let second := scanLine .longString "' it's \"\"\" go' 'run".toList
    first ∈ scanFrom .code ls ∧ first.QuotesClose ∧ second ∈ scanFrom .code ls ∧
      second.QuotesClose ∧ byteLength second.raw + 4 < wordSize ∧ second.QuotesForeseen ∧
      (∀ l ∈ ls, byteLength l + 4 < wordSize) ∧ (ls.flatMap solid).length < 4294967296 ∧
      Bytewise.scanFrom? .code ls = some (scanFrom .code ls) := by
  intro ls first second
  obtain ⟨hlines, hbytes⟩ := scanFrom_quotes_close ls
  have hfirst : first ∈ scanFrom .code ls := by decide +kernel
  have hsecond : second ∈ scanFrom .code ls := by decide +kernel
  have hshort : byteLength second.raw + 4 < wordSize := by decide
  have hroom : ∀ l ∈ ls, byteLength l + 4 < wordSize := by decide
  have hdepth : (ls.flatMap solid).length < 4294967296 := by decide
  exact ⟨hfirst, (hlines _ hfirst).1, hsecond, (hlines _ hsecond).1, hshort,
    (hlines _ hsecond).2 hshort, hroom, hdepth, hbytes hroom hdepth⟩

end ScratchFormat
