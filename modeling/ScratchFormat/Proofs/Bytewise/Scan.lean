import ScratchFormat.Proofs.Bytewise.Text
import ScratchFormat.Proofs.Lexing

/-! The line scanner on bytes. It walks from byte to byte, so an escape may take it into the midst
of a character or past the end of the line, and it cuts segments out of the line at the places it
has kept. It never fails, and the segments are those of the scanner on characters. -/

namespace ScratchFormat

namespace Bytewise

structure Scanner where
  mode : Mode
  /-- Where the segment at hand begins. -/
  start : Nat
  /-- The byte to be read next. -/
  place : Nat
  /-- The segments before the one at hand. -/
  segments : List Segment

def depth? (n : Nat) : Option Nat := if n < 4294967296 then some n else none

def push (segments : List Segment) (kind : Kind) (text : List Char) : List Segment :=
  if text.isEmpty then segments else segments ++ [⟨kind, text⟩]

def charEnd? (first : Nat) : List Char → Option (Option Nat)
  | [] => some none
  | ['\\'] => some none
  | '\\' :: c :: _ => do return some (← add? (← add? first 1) c.utf8Size)
  | c :: _ => do return some (← add? first c.utf8Size)

def questionEnd? (line : List Char) (place : Nat) : Option (Option Nat) := do
  let first ← add? place 1
  let rest ← sliceFrom? line first
  if rest.head?.any isSpace then return none else charEnd? first rest

def quoteEnd? (line : List Char) (place : Nat) : Option (Option Nat) := do
  let first ← add? place 1
  let rest ← sliceFrom? line first
  if rest.head? = some '\'' then return none
  else
    match ← charEnd? first rest with
    | none => return none
    | some close =>
      if (Utf8.encode line)[close]? = some (UInt8.ofNat '\''.toNat) then
        return some (← add? close 1)
      else return none

namespace Scanner

def skip? (s : Scanner) (n : Nat) : Option Scanner := do
  return { s with place := ← add? s.place n }

def open? (line : List Char) (s : Scanner) (mode : Mode) (n : Nat) : Option Scanner := do
  let code ← slice? line s.start s.place
  return ⟨mode, s.place, ← add? s.place n, push s.segments .code code⟩

def close? (line : List Char) (s : Scanner) (n : Nat) : Option Scanner := do
  let stop ← add? s.place n
  return ⟨.code, stop, stop, push s.segments s.mode.kind (← slice? line s.start stop)⟩

def stepCode? (line : List Char) (s : Scanner) : Option Scanner := do
  if ahead line s.place ['"', '"', '"'] then s.open? line .longString 3
  else if ahead line s.place ['"'] then s.open? line .string 1
  else if ahead line s.place ['\''] then
    if ← nameBefore? line s.place then s.skip? 1
    else
      match ← quoteEnd? line s.place with
      | none => s.skip? 1
      | some _ => s.open? line .charQuote 1
  else if ahead line s.place ['?'] then
    if ← nameBefore? line s.place then s.skip? 1
    else
      match ← questionEnd? line s.place with
      | none => s.skip? 1
      | some stop =>
        let code ← slice? line s.start s.place
        let literal ← slice? line s.place stop
        return ⟨.code, stop, stop, push (push s.segments .code code) .literal literal⟩
  else if ahead line s.place ['-', '-'] then
    let code ← slice? line s.start s.place
    return ⟨.lineComment, s.place, byteLength line, push s.segments .code code⟩
  else if ahead line s.place ['\x7b', '-'] then s.open? line (.blockComment 1) 2
  else if ahead line s.place ['\x7b', '\x7b'] then s.open? line (.docBlock 1) 2
  else s.skip? 1

def stepQuoted? (line : List Char) (s : Scanner) (quote : Char) : Option Scanner :=
  if ahead line s.place ['\\'] then s.skip? 2
  else if ahead line s.place [quote] then s.close? line 1
  else s.skip? 1

def stepNested? (line : List Char) (s : Scanner) (mode : Nat → Mode) (opening closing : Char × Char)
    (depth : Nat) : Option Scanner := do
  if ahead line s.place [opening.1, opening.2] then
    let deeper ← depth? (depth + 1)
    skip? { s with mode := mode deeper } 2
  else if ahead line s.place [closing.1, closing.2] then
    if depth ≤ 1 then s.close? line 2 else skip? { s with mode := mode (depth - 1) } 2
  else s.skip? 1

/-- Reads on from the byte at hand. -/
def step? (line : List Char) (s : Scanner) : Option Scanner :=
  match s.mode with
  | .code => s.stepCode? line
  | .charQuote => s.stepQuoted? line '\''
  | .string => s.stepQuoted? line '"'
  | .longString => if ahead line s.place ['"', '"', '"'] then s.close? line 3 else s.skip? 1
  | .lineComment => some { s with place := byteLength line }
  | .blockComment d => s.stepNested? line .blockComment ('\x7b', '-') ('-', '\x7d') d
  | .docBlock d => s.stepNested? line .docBlock ('\x7b', '\x7b') ('\x7d', '\x7d') d

/-- Reads on to the end of the line, in at most `fuel` steps. -/
def run? (line : List Char) : Nat → Scanner → Option Scanner
  | 0, s => if byteLength line ≤ s.place then some s else none
  | fuel + 1, s =>
    if byteLength line ≤ s.place then some s else (s.step? line).bind (run? line fuel)

def finish? (line : List Char) (s : Scanner) : Option (List Segment) :=
  (sliceFrom? line (min s.start (byteLength line))).map (push s.segments s.mode.kind)

end Scanner

def scanLine? (mode : Mode) (line : List Char) : Option ScannedLine := do
  let s ← Scanner.run? line (byteLength line) ⟨mode, 0, 0, []⟩
  return ⟨line, mode, s.mode, ← s.finish? line⟩

/-- Scans lines one after another. -/
def scanFrom? (mode : Mode) : List (List Char) → Option (List ScannedLine)
  | [] => some []
  | l :: ls => do
    let first ← scanLine? mode l
    return first :: (← scanFrom? first.endsIn.carried ls)

def scan? (text : List Char) : Option (List ScannedLine) := scanFrom? .code (lines text)

def Scanner.Ends (line : List Char) (s out : Scanner) : Prop :=
  ∀ fuel, byteLength line ≤ s.place + fuel → s.run? line fuel = some out

namespace Scanner

theorem ends_of_le {line : List Char} {s : Scanner} (h : byteLength line ≤ s.place) :
    s.Ends line s := by
  intro fuel _
  cases fuel with
  | zero => rw [run?, if_pos h]
  | succ fuel => rw [run?, if_pos h]

theorem ends_of_step {line : List Char} {s s' out : Scanner} (h : s.place < byteLength line)
    (hstep : s.step? line = some s') (hplace : s.place < s'.place) (hends : s'.Ends line out) :
    s.Ends line out := by
  intro fuel hfuel
  cases fuel with
  | zero => omega
  | succ fuel =>
    rw [run?, if_neg (by omega), hstep]
    exact hends fuel (by omega)

/-- In the midst of a character the scanner goes on byte by byte. -/
theorem step?_inside {mode : Mode} (hm : mode ≠ .lineComment) (start : Nat)
    (segments : List Segment) (as bs : List Char) {d : Char} {n : Nat} (hpos : 0 < n)
    (hn : n < d.utf8Size) :
    step? (as ++ d :: bs) ⟨mode, start, byteLength as + n, segments⟩ =
      skip? ⟨mode, start, byteLength as + n, segments⟩ 1 := by
  have hnone : ∀ c front, isAscii c = true →
      ahead (as ++ d :: bs) (byteLength as + n) (c :: front) = false :=
    fun c front hc => ahead_inside hc as bs hpos hn
  cases mode with
  | lineComment => exact absurd rfl hm
  | code => simp [step?, stepCode?, hnone, isAscii]
  | charQuote => simp [step?, stepQuoted?, hnone, isAscii]
  | string => simp [step?, stepQuoted?, hnone, isAscii]
  | longString => simp [step?, hnone, isAscii]
  | blockComment depth => simp [step?, stepNested?, hnone, isAscii]
  | docBlock depth => simp [step?, stepNested?, hnone, isAscii]

/-- From a place inside a character the scanner goes on to the end of that character. -/
theorem ends_inside {mode : Mode} (hm : mode ≠ .lineComment) {start : Nat} {segments : List Segment}
    {as bs : List Char} {d : Char} (hroom : byteLength (as ++ d :: bs) + 4 < wordSize)
    {out : Scanner}
    (h : Ends (as ++ d :: bs) ⟨mode, start, byteLength as + d.utf8Size, segments⟩ out) {n : Nat}
    (hpos : 0 < n) (hn : n ≤ d.utf8Size) :
    Ends (as ++ d :: bs) ⟨mode, start, byteLength as + n, segments⟩ out := by
  induction hk : d.utf8Size - n generalizing n with
  | zero =>
    have hall : n = d.utf8Size := by omega
    rw [hall]
    exact h
  | succ k ih =>
    have hlen : byteLength (as ++ d :: bs) = byteLength as + (d.utf8Size + byteLength bs) := by
      rw [byteLength_append, byteLength_cons]
    refine ends_of_step ?_ ?_ ?_ (ih (Nat.succ_pos n) (by omega) (by omega))
    · rw [hlen]
      simp only
      omega
    · rw [step?_inside hm start segments as bs hpos (by omega), skip?,
        add?_eq (by simp only; omega)]
      rfl
    · simp only
      omega

end Scanner

/-- A character, possibly escaped, ends where its bytes do. -/
theorem charEnd?_char {ds : List Char} (h : (∃ c, ds = ['\\', c]) ∨ ∃ c, c ≠ '\\' ∧ ds = [c])
    (ys : List Char) {first : Nat} (hroom : first + byteLength ds < wordSize) :
    charEnd? first (ds ++ ys) = some (some (first + byteLength ds)) := by
  rcases h with ⟨c, rfl⟩ | ⟨c, hc, rfl⟩
  · have hback : '\\'.utf8Size = 1 := rfl
    rw [byteLength_cons, byteLength_cons, byteLength_nil, hback, Nat.add_zero] at hroom ⊢
    rw [List.cons_append, List.singleton_append, charEnd?, add?_eq (by omega)]
    simp only [Option.bind_eq_bind, Option.bind_some]
    rw [add?_eq (by omega), Nat.add_assoc]
    rfl
  · rw [byteLength_cons, byteLength_nil, Nat.add_zero] at hroom ⊢
    rw [List.singleton_append, charEnd?.eq_4 _ _ _ (by simp [hc]) (by simp [hc]), add?_eq hroom]
    rfl

/-- The character that a quote may hold ends at a byte where a character ends. -/
theorem charEnd?_eq (first : Nat) (cs : List Char) (hroom : first + byteLength cs < wordSize) :
    (charEnd? first cs = some none ∧ (cs = [] ∨ cs = ['\\'])) ∨
      ∃ ds ys, cs = ds ++ ys ∧ charEnd? first cs = some (some (first + byteLength ds)) ∧
        ((∃ c, ds = ['\\', c]) ∨ ∃ c, c ≠ '\\' ∧ ds = [c]) := by
  have hchar : ∀ ds ys, cs = ds ++ ys → ((∃ c, ds = ['\\', c]) ∨ ∃ c, c ≠ '\\' ∧ ds = [c]) →
      charEnd? first cs = some (some (first + byteLength ds)) := by
    rintro ds ys rfl hds
    rw [byteLength_append] at hroom
    exact charEnd?_char hds ys (by omega)
  cases cs with
  | nil => exact .inl ⟨rfl, .inl rfl⟩
  | cons c cs =>
    by_cases hc : c = '\\'
    · subst hc
      cases cs with
      | nil => exact .inl ⟨rfl, .inr rfl⟩
      | cons d cs =>
        exact .inr ⟨['\\', d], cs, rfl, hchar ['\\', d] cs rfl (.inl ⟨d, rfl⟩), .inl ⟨d, rfl⟩⟩
    · exact .inr ⟨[c], cs, rfl, hchar [c] cs rfl (.inr ⟨c, hc, rfl⟩), .inr ⟨c, hc, rfl⟩⟩

/-- The literal of a question mark ends behind the bytes of its characters. -/
theorem questionEnd?_eq (as xs : List Char) (hroom : byteLength (as ++ '?' :: xs) + 4 < wordSize) :
    questionEnd? (as ++ '?' :: xs) (byteLength as) =
      some ((questionLength? xs).map fun n => byteLength as + 1 + byteLength (xs.take n)) := by
  rw [byteLength_ascii rfl] at hroom
  rw [questionEnd?, add?_eq (by omega)]
  simp only [Option.bind_eq_bind, Option.bind_some, sliceFrom?_ascii (q := '?') rfl as xs]
  rcases charEnd?_eq (byteLength as + 1) xs (by omega) with
    ⟨hnone, rfl | rfl⟩ | ⟨ds, ys, rfl, hsome, ⟨c, rfl⟩ | ⟨c, hc, rfl⟩⟩
  · rfl
  · rfl
  · rw [hsome]
    rfl
  · rw [hsome]
    cases hspace : isSpace c <;> simp [questionLength?, hc, hspace]

/-- The look ahead for a closing quote finds one in bytes if it finds one in characters. -/
theorem quoteEnd?_eq (as xs : List Char) (hroom : byteLength (as ++ '\'' :: xs) + 4 < wordSize) :
    ∃ stop, quoteEnd? (as ++ '\'' :: xs)
      (byteLength as) = some stop ∧ stop.isSome = closesQuote xs := by
  have hlen := byteLength_ascii (q := '\'') rfl as xs
  rw [quoteEnd?, add?_eq (by omega)]
  simp only [Option.bind_eq_bind, Option.bind_some, sliceFrom?_ascii (q := '\'') rfl as xs]
  by_cases hquote : xs.head? = some '\''
  · obtain ⟨rest, rfl⟩ := List.head?_eq_some_iff.mp hquote
    exact ⟨none, rfl, rfl⟩
  rw [if_neg hquote]
  rcases charEnd?_eq (byteLength as + 1) xs (by omega) with
    ⟨hnone, hxs⟩ | ⟨ds, ys, rfl, hsome, hds⟩
  · refine ⟨none, by rw [hnone]; rfl, ?_⟩
    rcases hxs with rfl | rfl <;> rfl
  · -- the byte behind the literal is a quote exactly if the next character is one
    have hbyte : (Utf8.encode (as ++ '\'' :: (ds ++ ys)))[byteLength as + 1 + byteLength ds]? =
        some (UInt8.ofNat '\''.toNat) ↔ ['\''].isPrefixOf ys = true := by
      have hfront : as ++ '\'' :: (ds ++ ys) = (as ++ '\'' :: ds) ++ ys := by simp
      rw [getElem?_encode_iff rfl, hfront, ← byteLength_ascii (q := '\'') rfl,
        ahead_append (List.all_eq_true.mp rfl)]
    have hcloses : closesQuote (ds ++ ys) = ['\''].isPrefixOf ys := by
      rw [Bool.eq_iff_iff, closesQuote_iff, List.isPrefixOf_iff_prefix]
      constructor
      · rcases hds with ⟨c, rfl⟩ | ⟨c, hc, rfl⟩
        · rintro (⟨d, rest, h⟩ | ⟨d, rest, hd, _, h⟩)
          · cases h
            exact ⟨rest, rfl⟩
          · cases h
            exact absurd rfl hd
        · rintro (⟨d, rest, h⟩ | ⟨d, rest, _, _, h⟩)
          · cases h
            exact absurd rfl hc
          · cases h
            exact ⟨rest, rfl⟩
      · rintro ⟨rest, rfl⟩
        rcases hds with ⟨c, rfl⟩ | ⟨c, hc, rfl⟩
        · exact .inl ⟨c, rest, rfl⟩
        · exact .inr ⟨c, rest, hc, fun h => hquote (by rw [h]; rfl), rfl⟩
    have hsum : add? (byteLength as + 1 + byteLength ds) 1 =
        some (byteLength as + 1 + byteLength ds + 1) := by
      rw [byteLength_append ds] at hlen
      exact add?_eq (by omega)
    rw [hsome, hcloses]
    by_cases hys : ['\''].isPrefixOf ys = true
    · exact ⟨some _, by simp only [Option.bind_some, if_pos (hbyte.mpr hys), hsum]; rfl, hys.symm⟩
    · exact ⟨none, by simp only [Option.bind_some, if_neg (mt hbyte.mp hys)]; rfl,
        (Bool.eq_false_iff.mpr hys).symm⟩

def marked (kind : Kind) (text : List Char) : List Mark := text.map fun c => ⟨c, kind, false⟩

theorem marked_append (kind : Kind) (as bs : List Char) :
    marked kind (as ++ bs) = marked kind as ++ marked kind bs :=
  List.map_append

theorem push_eq (segments : List Segment) (kind : Kind) (text : List Char) :
    push segments kind text = segments ++ push [] kind text := by
  cases text <;> simp [push]

/-- Only where a mark stands first does it not matter whether it is fresh. -/
theorem ofMarks_fresh (c : Char) (kind : Kind) (fresh fresh' : Bool) (ms : List Mark) :
    Segment.ofMarks (⟨c, kind, fresh⟩ :: ms) = Segment.ofMarks (⟨c, kind, fresh'⟩ :: ms) := by
  cases ms with
  | nil => rfl
  | cons n ms =>
    obtain ⟨t, ts, hn, hm⟩ := ofMarks_cons_cons ⟨c, kind, fresh⟩ n ms
    rw [hm, Segment.ofMarks.eq_2 _ _ _ t ts hn]

/-- A segment ends where a fresh mark follows. -/
theorem ofMarks_marked (kind : Kind) (text : List Char) {ms : List Mark}
    (h : ∀ n ∈ ms.head?, n.fresh = true) :
    Segment.ofMarks (marked kind text ++ ms) = push [] kind text ++ Segment.ofMarks ms := by
  induction text with
  | nil => rfl
  | cons c text ih =>
    cases text with
    | nil => exact ofMarks_cons_of_fresh _ h
    | cons d text =>
      obtain ⟨t, ts, hn, hm⟩ :=
        ofMarks_cons_cons ⟨c, kind, false⟩ ⟨d, kind, false⟩ (marked kind text ++ ms)
      have hd : Segment.ofMarks (⟨d, kind, false⟩ :: (marked kind text ++ ms)) =
          ⟨kind, d :: text⟩ :: Segment.ofMarks ms := ih
      rw [hd] at hn
      cases hn
      exact hm

/-- The scanner on bytes, at a place between two characters, does with the rest of the line what the
scanner on characters does. The segment at hand begins behind `front`, and `part` of it has been
read. -/
def Follows (line front part rest : List Char) (c : Cursor) (segments : List Segment) : Prop :=
  ∃ out : Scanner,
    Scanner.Ends line ⟨c.mode, byteLength front, byteLength (front ++ part), segments⟩ out ∧
    out.finish? line = some (segments ++
      Segment.ofMarks (marked c.mode.kind part ++ c.marks rest)) ∧ out.mode = c.final rest

/-- One move of both scanners. -/
theorem Follows.move {line front part rest front' part' rest' : List Char} {c c' : Cursor}
    {segments segments' : List Segment} (h : Follows line front' part' rest' c' segments')
    (hends : ∀ out,
      Scanner.Ends line ⟨c'.mode, byteLength front', byteLength (front' ++ part'), segments'⟩ out →
        Scanner.Ends line ⟨c.mode, byteLength front, byteLength (front ++ part), segments⟩ out)
    (hmarks : segments ++ Segment.ofMarks (marked c.mode.kind part ++ c.marks rest) =
      segments' ++ Segment.ofMarks (marked c'.mode.kind part' ++ c'.marks rest'))
    (hfinal : c.final rest = c'.final rest') : Follows line front part rest c segments := by
  obtain ⟨out, hout, hfinish, hmode⟩ := h
  exact ⟨out, hends out hout, by rw [hmarks, hfinish], by rw [hfinal, hmode]⟩

/-- At the end of a line what is left becomes the last segment. -/
theorem finish?_eq (front part : List Char) (mode : Mode) (place : Nat) (segments : List Segment) :
    Scanner.finish? (front ++ part) ⟨mode, byteLength front, place, segments⟩ =
      some (segments ++ Segment.ofMarks (marked mode.kind part)) := by
  have hstart : min (byteLength front) (byteLength (front ++ part)) = byteLength front := by
    rw [byteLength_append]
    omega
  have hnone : ∀ n ∈ ([] : List Mark).head?, n.fresh = true := nofun
  have hmarks := ofMarks_marked mode.kind part hnone
  rw [List.append_nil, Segment.ofMarks, List.append_nil] at hmarks
  rw [Scanner.finish?, hstart, sliceFrom?_append, Option.map_some, push_eq, hmarks]

theorem follows_nil (front part : List Char) (c : Cursor) (segments : List Segment) :
    Follows (front ++ part) front part [] c segments := by
  refine ⟨_, Scanner.ends_of_le (Nat.le_refl _), ?_, rfl⟩
  rw [finish?_eq, Cursor.marks, List.append_nil]

def depthOf : Mode → Nat
  | .blockComment d => d
  | .docBlock d => d
  | _ => 0

/-- From wherever a segment began, the rest of the line is scanned alike. Each level of nesting that
is still to come takes a brace. -/
def Scans (line rest : List Char) : Prop :=
  ∀ (front part : List Char) (c : Cursor) (segments : List Segment),
    line = front ++ (part ++ rest) → c.owed = 0 → c.prev = (front ++ part).getLast? →
    (c.fresh = true → part = [] ∧ c.mode = .code) →
    depthOf c.mode + (solid rest).length < 4294967296 → Follows line front part rest c segments

/-- A step by one byte that keeps the segment open takes the scanner behind the next character. -/
theorem Scanner.ends_skip {line as xs : List Char} {x : Char} (hline : line = as ++ x :: xs)
    (hroom : byteLength line + 4 < wordSize) {mode mode' : Mode}
    (hm : mode' ≠ .lineComment) {start : Nat} {segments : List Segment}
    (hstep : step? line ⟨mode, start, byteLength as, segments⟩ =
      skip? ⟨mode', start, byteLength as, segments⟩ 1) {out : Scanner}
    (h : Ends line ⟨mode', start, byteLength (as ++ [x]), segments⟩ out) :
    Ends line ⟨mode, start, byteLength as, segments⟩ out := by
  have hpos := x.utf8Size_pos
  subst hline
  rw [byteLength_append, byteLength_cons] at hroom
  rw [byteLength_append, byteLength_cons, byteLength_nil, Nat.add_zero] at h
  refine ends_of_step ?_ ?_ ?_ (ends_inside hm ?_ h Nat.one_pos hpos)
  · rw [byteLength_append, byteLength_cons]
    simp only
    omega
  · rw [hstep, skip?, add?_eq (by simp only; omega)]
    rfl
  · exact Nat.lt_succ_self _
  · rw [byteLength_append, byteLength_cons]
    exact hroom

/-- The characters owed are taken unread. -/
theorem marks_owed (mode : Mode) (prev : Option Char) (ds ys : List Char) :
    Cursor.marks ⟨mode, ds.length, false, false, prev⟩ (ds ++ ys) =
        marked mode.kind ds ++ Cursor.marks ⟨mode, 0, false, false, ds.getLast?.or prev⟩ ys ∧
      Cursor.final ⟨mode, ds.length, false, false, prev⟩ (ds ++ ys) =
        Cursor.final ⟨mode, 0, false, false, ds.getLast?.or prev⟩ ys := by
  induction ds generalizing prev with
  | nil => exact ⟨rfl, rfl⟩
  | cons d ds ih =>
    have hadvance : Cursor.advance ⟨mode, (d :: ds).length, false, false, prev⟩ d (ds ++ ys) =
        (⟨d, mode.kind, false⟩, ⟨mode, ds.length, false, false, some d⟩) := by
      simp [Cursor.advance]
    obtain ⟨hmarks, hfinal⟩ := ih (some d)
    rw [List.cons_append, Cursor.marks, Cursor.final, hadvance, hmarks, hfinal, getLast?_cons_or]
    exact ⟨rfl, rfl⟩

/-- The last character owed closes the segment. -/
theorem marks_closing (mode : Mode) (prev : Option Char) (ds : List Char) (e : Char)
    (ys : List Char) :
    Cursor.marks ⟨mode, ds.length + 1, true, false, prev⟩ (ds ++ e :: ys) =
        marked mode.kind (ds ++ [e]) ++ (Cursor.closed e).marks ys ∧
      Cursor.final ⟨mode, ds.length + 1, true, false, prev⟩
        (ds ++ e :: ys) = (Cursor.closed e).final ys := by
  induction ds generalizing prev with
  | nil => exact ⟨rfl, rfl⟩
  | cons d ds ih =>
    have hadvance :
        Cursor.advance ⟨mode, (d :: ds).length + 1, true, false, prev⟩ d (ds ++ e :: ys) =
        (⟨d, mode.kind, false⟩, ⟨mode, ds.length + 1, true, false, some d⟩) := by
      simp [Cursor.advance]
    obtain ⟨hmarks, hfinal⟩ := ih (some d)
    rw [List.cons_append, Cursor.marks, Cursor.final, hadvance, hmarks, hfinal]
    exact ⟨rfl, rfl⟩

section Moves

variable {line front part ys : List Char} {x : Char} {c : Cursor} {segments : List Segment}

/-- The segment goes on, over `x` and the characters owed behind it. -/
theorem follows_stay (ds : List Char) (mode : Mode) (ih : Scans line ys)
    (hline : line = front ++ (part ++ x :: (ds ++ ys))) (howed : c.owed = 0)
    (hfresh : c.fresh = true → part = [] ∧ c.mode = .code) (hkind : mode.kind = c.mode.kind)
    (hdepth : depthOf mode + (solid ys).length < 4294967296)
    (hstep : step c.mode c.prev x (ds ++ ys) = .stay mode ds.length) (hends : ∀ out,
      Scanner.Ends line ⟨mode, byteLength front, byteLength (front ++ part ++ x :: ds),
        segments⟩ out →
        Scanner.Ends line ⟨c.mode, byteLength front, byteLength (front ++ part), segments⟩ out) :
    Follows line front part (x :: (ds ++ ys)) c segments := by
  have hadvance : c.advance x (ds ++ ys) =
      (⟨x, c.mode.kind, c.fresh⟩, ⟨mode, ds.length, false, false, some x⟩) := by
    simp [Cursor.advance, howed, hstep]
  obtain ⟨hmarks, hfinal⟩ := marks_owed mode (some x) ds ys
  have hprev : (front ++ (part ++ x :: ds)).getLast? = ds.getLast?.or (some x) := by
    rw [← List.append_assoc, getLast?_append_cons]
  have hnext := ih front (part ++ x :: ds) ⟨mode, 0, false, false, ds.getLast?.or (some x)⟩ segments
    (by simp [hline]) rfl hprev.symm (fun h => by cases h) hdepth
  refine hnext.move (fun out h => hends out ?_) ?_ ?_
  · rw [List.append_assoc]
    exact h
  · rw [Cursor.marks, hadvance, hmarks, marked_append, List.append_assoc, hkind]
    congr 1
    cases hf : c.fresh with
    | false => rfl
    | true =>
      rw [(hfresh hf).1]
      exact ofMarks_fresh _ _ _ _ _
  · rw [Cursor.final, hadvance, hfinal]

/-- A segment opens with `x` and the characters owed behind it. -/
theorem follows_open (ds : List Char) (mode : Mode) (ih : Scans line ys)
    (hline : line = front ++ (part ++ x :: (ds ++ ys))) (howed : c.owed = 0)
    (hmode : c.mode = .code) (hdepth : depthOf mode + (solid ys).length < 4294967296)
    (hstep : step c.mode c.prev x (ds ++ ys) = .enter mode ds.length)
    (hends : ∀ out,
      Scanner.Ends line ⟨mode, byteLength (front ++ part), byteLength (front ++ part ++ x :: ds),
          push segments .code part⟩ out →
        Scanner.Ends line ⟨.code, byteLength front, byteLength (front ++ part), segments⟩ out) :
    Follows line front part (x :: (ds ++ ys)) c segments := by
  have hadvance : c.advance x (ds ++ ys) =
      (⟨x, mode.kind, true⟩, ⟨mode, ds.length, false, false, some x⟩) := by
    simp [Cursor.advance, howed, hstep]
  obtain ⟨hmarks, hfinal⟩ := marks_owed mode (some x) ds ys
  have hnext := ih (front ++ part) (x :: ds) ⟨mode, 0, false, false, ds.getLast?.or (some x)⟩
    (push segments .code part) (by simp [hline]) rfl (getLast?_append_cons _ _ _).symm
      (fun h => by cases h) hdepth
  refine hnext.move (fun out h => ?_) ?_ ?_
  · rw [hmode]
    exact hends out h
  · have hfresh : ∀ n ∈ (c.marks (x :: (ds ++ ys))).head?, n.fresh = true := by
      intro n hn
      rw [Cursor.marks, hadvance] at hn
      cases hn
      rfl
    rw [ofMarks_marked _ _ hfresh, Cursor.marks, hadvance, hmarks, hmode, ← List.append_assoc,
      push_eq segments]
    congr 1
  · rw [Cursor.final, hadvance, hfinal]

theorem head_marks_closed {e : Char} (ys : List Char) :
    ∀ n ∈ ((Cursor.closed e).marks ys).head?, n.fresh = true := by
  intro n hn
  cases ys with
  | nil => cases hn
  | cons y ys =>
    rw [Cursor.marks] at hn
    cases hn
    rcases Cursor.mark_of_idle (Cursor.idle_closed e) y ys with ⟨_, h⟩ | ⟨_, h⟩
    · exact h
    · exact h

/-- The segment closes with the last character owed behind `x`. -/
theorem follows_close (ds : List Char) (ih : Scans line ys)
    (hline : line = front ++ (part ++ x :: (ds ++ ys))) (howed : c.owed = 0)
    (hfresh : c.fresh = false) (hdepth : (solid ys).length < 4294967296)
    (hstep : step c.mode c.prev x (ds ++ ys) = .leave ds.length) (hends : ∀ out,
      Scanner.Ends line ⟨.code, byteLength (front ++ part ++ x :: ds),
        byteLength (front ++ part ++ x :: ds),
          push segments c.mode.kind (part ++ x :: ds)⟩ out →
        Scanner.Ends line ⟨c.mode, byteLength front, byteLength (front ++ part), segments⟩ out) :
    Follows line front part (x :: (ds ++ ys)) c segments := by
  obtain ⟨e, hlast, hmarks, hfinal⟩ : ∃ e, (front ++ part ++ x :: ds).getLast? = some e ∧
      c.marks (x :: (ds ++ ys)) = marked c.mode.kind (x :: ds) ++ (Cursor.closed e).marks ys ∧
      c.final (x :: (ds ++ ys)) = (Cursor.closed e).final ys := by
    rcases List.eq_nil_or_concat ds with rfl | ⟨ds, e, rfl⟩
    · have hadvance : c.advance x ys = (⟨x, c.mode.kind, false⟩, .closed x) := by
        simp [Cursor.advance, howed, show step c.mode c.prev x ys = .leave 0 from hstep, hfresh]
      refine ⟨x, by simp, ?_, ?_⟩
      · rw [List.nil_append, Cursor.marks, hadvance]
        rfl
      · rw [List.nil_append, Cursor.final, hadvance]
    · rw [List.concat_eq_append] at hstep ⊢
      rw [List.length_append, List.length_singleton, List.append_assoc, List.singleton_append]
        at hstep
      have hadvance : c.advance x (ds ++ e :: ys) =
          (⟨x, c.mode.kind, false⟩, ⟨c.mode, ds.length + 1, true, false, some x⟩) := by
        simp [Cursor.advance, howed, hstep, hfresh]
      obtain ⟨hmarks, hfinal⟩ := marks_closing c.mode (some x) ds e ys
      rw [List.append_assoc ds, List.singleton_append]
      refine ⟨e, ?_, ?_, ?_⟩
      · rw [getLast?_append_cons, List.getLast?_append]
        rfl
      · rw [Cursor.marks, hadvance, hmarks]
        rfl
      · rw [Cursor.final, hadvance, hfinal]
  have hnext :=
    ih (front ++ part ++ x :: ds) [] (.closed e) (push segments c.mode.kind (part ++ x :: ds))
    (by simp [hline]) rfl (by rw [List.append_nil, hlast]; rfl) (fun _ => ⟨rfl, rfl⟩)
    (by simpa [depthOf, Cursor.closed] using hdepth)
  refine hnext.move (fun out h => hends out ?_) ?_ hfinal
  · rwa [List.append_nil] at h
  · rw [hmarks, ← List.append_assoc, ← marked_append, ofMarks_marked _ _ (head_marks_closed ys),
      push_eq segments, List.append_assoc]
    rfl

/-- A character literal, which opens and closes at once. -/
theorem follows_whole (ds : List Char) (ih : Scans line ys)
    (hline : line = front ++ (part ++ x :: (ds ++ ys))) (howed : c.owed = 0)
    (hmode : c.mode = .code) (hds : ds ≠ []) (hdepth : (solid ys).length < 4294967296)
    (hstep : step c.mode c.prev x (ds ++ ys) = .whole ds.length)
    (hends : ∀ out,
      Scanner.Ends line ⟨.code, byteLength (front ++ part ++ x :: ds),
        byteLength (front ++ part ++ x :: ds),
          push (push segments .code part) .literal (x :: ds)⟩ out →
        Scanner.Ends line ⟨.code, byteLength front, byteLength (front ++ part), segments⟩ out) :
    Follows line front part (x :: (ds ++ ys)) c segments := by
  rcases List.eq_nil_or_concat ds with rfl | ⟨ds, e, rfl⟩
  · exact absurd rfl hds
  rw [List.concat_eq_append] at hstep hline hends ⊢
  rw [List.length_append, List.length_singleton, List.append_assoc, List.singleton_append] at hstep
  rw [List.append_assoc ds, List.singleton_append] at hline ⊢
  have hadvance : c.advance x (ds ++ e :: ys) =
      (⟨x, .literal, true⟩, ⟨.charQuote, ds.length + 1, true, false, some x⟩) := by
    simp [Cursor.advance, howed, hstep]
  obtain ⟨hmarks, hfinal⟩ := marks_closing .charQuote (some x) ds e ys
  have hnext := ih (front ++ part ++ x :: (ds ++ [e])) [] (.closed e)
    (push (push segments .code part) .literal (x :: (ds ++ [e]))) (by simp [hline]) rfl
    (by rw [List.append_nil, getLast?_append_cons, List.getLast?_append]; rfl) (fun _ => ⟨rfl, rfl⟩)
    (by simpa [depthOf, Cursor.closed] using hdepth)
  refine hnext.move (fun out h => ?_) ?_ ?_
  · rw [List.append_nil] at h
    rw [hmode]
    exact hends out h
  · have hfresh : ∀ n ∈ (c.marks (x :: (ds ++ e :: ys))).head?, n.fresh = true := by
      intro n hn
      rw [Cursor.marks, hadvance] at hn
      cases hn
      rfl
    have hliteral : Segment.ofMarks (c.marks (x :: (ds ++ e :: ys))) =
        push [] .literal (x :: (ds ++ [e])) ++ Segment.ofMarks ((Cursor.closed e).marks ys) := by
      rw [Cursor.marks, hadvance, hmarks, ← ofMarks_marked _ _ (head_marks_closed ys)]
      exact ofMarks_fresh _ _ _ _ _
    rw [ofMarks_marked _ _ hfresh, hliteral, hmode, push_eq (push segments .code part),
      push_eq segments, List.append_assoc, List.append_assoc]
    rfl
  · rw [Cursor.final, hadvance, hfinal]

end Moves

namespace Scanner

section Cuts

variable {line front part ds ys : List Char} {x : Char} {segments : List Segment} {out : Scanner}

theorem slice?_part (hline : line = front ++ (part ++ ys)) :
    slice? line (byteLength front) (byteLength (front ++ part)) = some part := by
  rw [hline, byteLength_append]
  exact slice?_append front part ys

theorem room (hline : line = front ++ (part ++ x :: (ds ++ ys))) :
    byteLength (front ++ part) + byteLength (x :: ds) = byteLength (front ++ part ++ x :: ds) ∧
      byteLength (front ++ part ++ x :: ds) ≤ byteLength line ∧
      byteLength (front ++ part) < byteLength (front ++ part ++ x :: ds) := by
  have hpos := x.utf8Size_pos
  have hsum := byteLength_append (front ++ part) (x :: ds)
  have hall : byteLength line = byteLength (front ++ part ++ x :: ds) + byteLength ys := by
    rw [hline, ← byteLength_append]
    simp
  rw [byteLength_cons] at hsum ⊢
  exact ⟨hsum.symm, by omega, by omega⟩

/-- A step that opens a literal goes on behind what opens it. -/
theorem ends_open {mode : Mode} (hroom : byteLength line + 4 < wordSize)
    (hline : line = front ++ (part ++ x :: (ds ++ ys)))
    (hstep : step? line ⟨.code, byteLength front, byteLength (front ++ part), segments⟩ =
      open? line ⟨.code, byteLength front, byteLength (front ++ part), segments⟩ mode
        (byteLength (x :: ds)))
    (h : Ends line ⟨mode, byteLength (front ++ part), byteLength (front ++ part ++ x :: ds),
      push segments .code part⟩ out) :
    Ends line ⟨.code, byteLength front, byteLength (front ++ part), segments⟩ out := by
  obtain ⟨hsum, hle, hlt⟩ := room hline
  refine ends_of_step (Nat.lt_of_lt_of_le hlt hle) ?_ hlt h
  rw [hstep, open?]
  simp only [slice?_part hline]
  rw [add?_eq (by omega), hsum]
  rfl

/-- A step over a pair of characters goes on behind both. -/
theorem ends_pair {y : Char} (hx : isAscii x = true) (hy : isAscii y = true) {mode mode' : Mode}
    (hroom : byteLength line + 4 < wordSize) (hline : line = front ++ (part ++ x :: ([y] ++ ys)))
    (hstep : step? line ⟨mode, byteLength front, byteLength (front ++ part), segments⟩ =
      skip? ⟨mode', byteLength front, byteLength (front ++ part), segments⟩ 2)
    (h : Ends line ⟨mode', byteLength front, byteLength (front ++ part ++ [x, y]), segments⟩ out) :
    Ends line ⟨mode, byteLength front, byteLength (front ++ part), segments⟩ out := by
  obtain ⟨hsum, hle, hlt⟩ := room hline
  have htwo : byteLength [x, y] = 2 := by
    rw [byteLength_cons, byteLength_cons, byteLength_nil, Utf8.utf8Size_ascii hx,
      Utf8.utf8Size_ascii hy]
  rw [htwo] at hsum
  refine ends_of_step (Nat.lt_of_lt_of_le hlt hle) ?_ hlt h
  rw [hstep, skip?, add?_eq (by simp only; omega)]
  simp only [hsum]
  rfl

/-- A step that closes a literal goes on in code behind it. -/
theorem ends_close {mode : Mode} (hroom : byteLength line + 4 < wordSize)
    (hline : line = front ++ (part ++ x :: (ds ++ ys)))
    (hstep : step? line ⟨mode, byteLength front, byteLength (front ++ part), segments⟩ =
      close? line ⟨mode, byteLength front, byteLength (front ++ part), segments⟩
        (byteLength (x :: ds)))
    (h : Ends line ⟨.code, byteLength (front ++ part ++ x :: ds),
      byteLength (front ++ part ++ x :: ds), push segments mode.kind (part ++ x :: ds)⟩ out) :
    Ends line ⟨mode, byteLength front, byteLength (front ++ part), segments⟩ out := by
  obtain ⟨hsum, hle, hlt⟩ := room hline
  refine ends_of_step (Nat.lt_of_lt_of_le hlt hle) ?_ hlt h
  have hslice : slice? line (byteLength front) (byteLength (front ++ part ++ x :: ds)) =
      some (part ++ x :: ds) := by
    rw [List.append_assoc]
    exact slice?_part (show line = front ++ (part ++ x :: ds ++ ys) by simp [hline])
  rw [hstep, close?]
  simp only
  rw [add?_eq (by omega), hsum]
  simp only [Option.bind_eq_bind, Option.bind_some, hslice]
  rfl

end Cuts

end Scanner

/-- A comment up to the end of the line is not looked into. -/
theorem marks_lineComment (prev : Option Char) (closing : Bool) (cs : List Char) :
    Cursor.marks ⟨.lineComment, 0, closing, false, prev⟩ cs = marked .comment cs ∧
      Cursor.final ⟨.lineComment, 0, closing, false, prev⟩ cs = .lineComment := by
  induction cs generalizing prev closing with
  | nil => exact ⟨rfl, rfl⟩
  | cons c cs ih =>
    obtain ⟨hmarks, hfinal⟩ := ih (some c) false
    have hadvance : Cursor.advance ⟨.lineComment, 0, closing, false, prev⟩ c cs =
        (⟨c, .comment, false⟩, ⟨.lineComment, 0, false, false, some c⟩) := rfl
    rw [Cursor.marks, Cursor.final, hadvance, hmarks, hfinal]
    exact ⟨rfl, rfl⟩

theorem solid_length_le (as bs : List Char) : (solid bs).length ≤ (solid (as ++ bs)).length := by
  rw [solid_append, List.length_append]
  omega

/-- A pair of characters in front. -/
theorem isPrefixOf_pair (a b x : Char) (xs : List Char) :
    [a, b].isPrefixOf (x :: xs) = true ↔ x = a ∧ xs.head? = some b := by
  cases xs with
  | nil => simp [List.isPrefixOf]
  | cons y ys =>
    simp only [List.isPrefixOf, Bool.and_true, Bool.and_eq_true, beq_iff_eq, List.head?_cons,
      Option.some.injEq]
    exact and_congr eq_comm eq_comm

theorem isPrefixOf_single (a x : Char) (xs : List Char) :
    [a].isPrefixOf (x :: xs) = true ↔ x = a := by
  simp only [List.isPrefixOf, Bool.and_true, beq_iff_eq]
  exact eq_comm

section Modes

variable {line front part xs : List Char} {x : Char} {c : Cursor} {segments : List Segment}

/-- A comment takes all that is left of a line. -/
theorem follows_lineComment (hline : line = front ++ (part ++ x :: xs)) (howed : c.owed = 0)
    (hmode : c.mode = .lineComment) (hfresh : c.fresh = false) :
    Follows line front part (x :: xs) c segments := by
  obtain ⟨mode, owed, closing, fresh, prev⟩ := c
  simp only at howed hmode hfresh
  subst howed hmode hfresh
  obtain ⟨hmarks, hfinal⟩ := marks_lineComment prev closing (x :: xs)
  have hnext := follows_nil front (part ++ x :: xs) ⟨.lineComment, 0, closing, false, prev⟩ segments
  rw [← hline] at hnext
  refine hnext.move (fun out h => ?_) ?_ hfinal
  · have hplace : byteLength (front ++ part) < byteLength line := by
      have hpos := x.utf8Size_pos
      rw [hline, ← List.append_assoc, byteLength_append (front ++ part), byteLength_cons]
      omega
    rw [← hline] at h
    exact Scanner.ends_of_step hplace rfl hplace h
  · rw [hmarks, marked_append]
    exact congrArg (segments ++ Segment.ofMarks ·) (List.append_nil _).symm

theorem eq_append_of_questionLength? {cs : List Char} {n : Nat} (h : questionLength? cs = some n) :
    ∃ ds ys, cs = ds ++ ys ∧ n = ds.length ∧ ds ≠ [] := by
  unfold questionLength? at h
  split at h
  · rename_i c rest
    cases h
    exact ⟨['\\', c], rest, rfl, rfl, by simp⟩
  · cases h
  · rename_i c rest _ _
    split at h
    · cases h
    · cases h
      exact ⟨[c], rest, rfl, rfl, by simp⟩
  · cases h

structure InCode (line front part rest : List Char) (c : Cursor) : Prop where
  room : byteLength line + 4 < wordSize
  line_eq : line = front ++ (part ++ rest)
  owed : c.owed = 0
  prev : c.prev = (front ++ part).getLast?
  mode : c.mode = .code
  fresh : c.fresh = true → part = []

namespace InCode

theorem ahead_eq {rest : List Char} (h : InCode line front part rest c) (lit : List Char)
    (hlit : ∀ d ∈ lit, isAscii d = true) :
    ahead line (byteLength (front ++ part)) lit = lit.isPrefixOf rest := by
  rw [h.line_eq, ← List.append_assoc]
  exact ahead_append hlit (front ++ part) rest

theorem nameBefore?_eq {rest : List Char} (h : InCode line front part rest c) :
    nameBefore? line (byteLength (front ++ part)) = some (c.prev.any isNameTail) := by
  rw [h.line_eq, ← List.append_assoc, nameBefore?_append, h.prev]

/-- How a step in code is taken, told from the characters. -/
theorem step?_eq {rest : List Char} (h : InCode line front part rest c) (segments : List Segment) :
    Scanner.step? line ⟨.code, byteLength front, byteLength (front ++ part), segments⟩ =
      let s : Scanner := ⟨.code, byteLength front, byteLength (front ++ part), segments⟩
      if ['"', '"', '"'].isPrefixOf rest then s.open? line .longString 3
      else if ['"'].isPrefixOf rest then s.open? line .string 1
      else if ['\''].isPrefixOf rest then
        if c.prev.any isNameTail then s.skip? 1
        else do
          match ← quoteEnd? line s.place with
          | none => s.skip? 1
          | some _ => s.open? line .charQuote 1
      else if ['?'].isPrefixOf rest then
        if c.prev.any isNameTail then s.skip? 1
        else do
          match ← questionEnd? line s.place with
          | none => s.skip? 1
          | some stop =>
            let literal ← slice? line s.place stop
            return ⟨.code, stop, stop, push (push segments .code part) .literal literal⟩
      else if ['-', '-'].isPrefixOf rest then
        some ⟨.lineComment, s.place, byteLength line, push segments .code part⟩
      else if ['\x7b', '-'].isPrefixOf rest then s.open? line (.blockComment 1) 2
      else if ['\x7b', '\x7b'].isPrefixOf rest then s.open? line (.docBlock 1) 2
      else s.skip? 1 := by
  rw [Scanner.step?, Scanner.stepCode?]
  simp only [h.ahead_eq ['"', '"', '"'] (List.all_eq_true.mp rfl),
    h.ahead_eq ['"'] (List.all_eq_true.mp rfl), h.ahead_eq ['\''] (List.all_eq_true.mp rfl),
    h.ahead_eq ['?'] (List.all_eq_true.mp rfl), h.ahead_eq ['-', '-'] (List.all_eq_true.mp rfl),
    h.ahead_eq ['\x7b', '-'] (List.all_eq_true.mp rfl), h.ahead_eq ['\x7b', '\x7b']
    (List.all_eq_true.mp rfl), h.nameBefore?_eq, Scanner.slice?_part h.line_eq, Option.bind_eq_bind,
    Option.bind_some]
  rfl

/-- Nothing begins here, and the code goes on. -/
theorem stay (h : InCode line front part (x :: xs) c) (ih : Scans line xs)
    (hdepth : (solid (x :: xs)).length < 4294967296) (hstep : stepCode c.prev x xs = .stay .code 0)
    (hskip : Scanner.step? line ⟨.code, byteLength front, byteLength (front ++ part), segments⟩ =
      Scanner.skip? ⟨.code, byteLength front, byteLength (front ++ part), segments⟩ 1) :
    Follows line front part (x :: xs) c segments := by
  have hle := solid_length_le [x] xs
  rw [List.singleton_append] at hle
  have hcode : Mode.code ≠ .lineComment := nofun
  refine follows_stay [] .code ih h.line_eq h.owed (fun hf => ⟨h.fresh hf, h.mode⟩) (by rw [h.mode])
    (by simp only [depthOf]; omega) (by rw [h.mode]; exact hstep) fun out hout => ?_
  rw [h.mode]
  exact Scanner.ends_skip (by rw [h.line_eq, ← List.append_assoc]) h.room hcode hskip hout

/-- A segment opens here. -/
theorem begin {ys : List Char} (ds : List Char) (mode : Mode)
    (h : InCode line front part (x :: (ds ++ ys)) c) (ih : Scans line ys)
    (hdepth : depthOf mode + (solid ys).length < 4294967296)
    (hstep : stepCode c.prev x (ds ++ ys) = .enter mode ds.length)
    (hopen : Scanner.step? line ⟨.code, byteLength front, byteLength (front ++ part), segments⟩ =
      Scanner.open? line ⟨.code, byteLength front, byteLength (front ++ part), segments⟩ mode
        (byteLength (x :: ds))) :
    Follows line front part (x :: (ds ++ ys)) c segments :=
  follows_open ds mode ih h.line_eq h.owed h.mode hdepth (by rw [h.mode]; exact hstep) fun _ hout =>
    Scanner.ends_open h.room h.line_eq hopen hout

theorem solid_lt {ys : List Char} (ds : List Char)
    (h : (solid (x :: (ds ++ ys))).length < 4294967296) : (solid ys).length < 4294967296 :=
  Nat.lt_of_le_of_lt (solid_length_le (x :: ds) ys) h

/-- A double quote opens a string, or a long one if there are three. -/
theorem string (h : InCode line front part ('"' :: xs) c)
    (ih : ∀ ys : List Char, ys.length ≤ xs.length → Scans line ys)
    (hdepth : (solid ('"' :: xs)).length < 4294967296) :
    Follows line front part ('"' :: xs) c segments := by
  by_cases hlong : ['"', '"'].isPrefixOf xs = true
  · obtain ⟨ys, rfl⟩ := List.isPrefixOf_iff_prefix.mp hlong
    have hsolid := solid_lt ['"', '"'] hdepth
    refine h.begin ['"', '"'] .longString (ih ys (by simp; omega)) (by simpa [depthOf] using hsolid)
      (by simp [stepCode]) ?_
    rw [h.step?_eq]
    rfl
  · have hsolid := solid_lt [] hdepth
    refine h.begin [] .string (ih xs (Nat.le_refl _)) (by simpa [depthOf] using hsolid)
      (by simp [stepCode, hlong]) ?_
    rw [h.step?_eq, if_neg (by simpa [List.isPrefixOf] using hlong)]
    rfl

/-- A single quote opens a literal if the look ahead closes it. -/
theorem quote (h : InCode line front part ('\'' :: xs) c) (ih : Scans line xs)
    (hdepth : (solid ('\'' :: xs)).length < 4294967296) :
    Follows line front part ('\'' :: xs) c segments := by
  obtain ⟨stop, hstop, hcloses⟩ := quoteEnd?_eq (front ++ part) xs
    (by rw [List.append_assoc, ← h.line_eq]; exact h.room)
  rw [List.append_assoc, ← h.line_eq] at hstop
  have hstep := h.step?_eq segments
  simp only [hstop, Option.bind_eq_bind, Option.bind_some] at hstep
  by_cases hp : c.prev.any isNameTail = true
  · refine h.stay ih hdepth (by simp [stepCode, hp]) ?_
    rw [hstep, if_pos hp]
    rfl
  rw [if_neg hp] at hstep
  cases stop with
  | none => exact h.stay ih hdepth (by simp [stepCode, ← hcloses]) hstep
  | some stop =>
    have hsolid := solid_lt [] hdepth
    exact h.begin [] .charQuote ih (by simpa [depthOf] using hsolid)
      (by simp [stepCode, ← hcloses, hp]) hstep

/-- A question mark opens a literal of the length that the look ahead finds, or stays in code. -/
theorem question (h : InCode line front part ('?' :: xs) c)
    (ih : ∀ ys : List Char, ys.length ≤ xs.length → Scans line ys)
    (hdepth : (solid ('?' :: xs)).length < 4294967296) :
    Follows line front part ('?' :: xs) c segments := by
  have hstop :=
    questionEnd?_eq (front ++ part) xs (by rw [List.append_assoc, ← h.line_eq]; exact h.room)
  rw [List.append_assoc, ← h.line_eq] at hstop
  have hstep := h.step?_eq segments
  simp only [hstop, Option.bind_eq_bind, Option.bind_some] at hstep
  by_cases hp : c.prev.any isNameTail = true
  · refine h.stay (ih xs (Nat.le_refl _)) hdepth (by simp [stepCode, hp]) ?_
    rw [hstep, if_pos hp, if_pos hp]
    rfl
  rw [if_neg hp, if_neg hp] at hstep
  cases hlength : questionLength? xs with
  | none =>
    rw [hlength] at hstep
    exact h.stay (ih xs (Nat.le_refl _)) hdepth (by simp [stepCode, hlength]) hstep
  | some n =>
    obtain ⟨ds, ys, rfl, rfl, hds⟩ := eq_append_of_questionLength? hlength
    rw [hlength, Option.map_some, List.take_left, ← byteLength_ascii (q := '?') rfl] at hstep
    obtain ⟨_, hend, hlt⟩ := Scanner.room h.line_eq
    have hslice :
        slice? line (byteLength (front ++ part)) (byteLength (front ++ part ++ '?' :: ds)) =
        some ('?' :: ds) :=
      Scanner.slice?_part (show line = (front ++ part) ++ ('?' :: ds ++ ys) by simp [h.line_eq])
    refine follows_whole ds (ih ys (by simp)) h.line_eq h.owed h.mode hds (solid_lt ds hdepth) ?_
      fun out hout => ?_
    · rw [h.mode]
      simp [step, stepCode, hp, hlength]
    · refine Scanner.ends_of_step (Nat.lt_of_lt_of_le hlt hend) ?_ hlt hout
      rw [hstep]
      simp only [hslice]
      rfl

/-- Two dashes open a comment up to the end of the line. -/
theorem comment (h : InCode line front part ('-' :: '-' :: xs) c) :
    Follows line front part ('-' :: '-' :: xs) c segments := by
  have hadvance : c.advance '-' ('-' :: xs) =
      (⟨'-', .comment, true⟩, ⟨.lineComment, 0, false, false, some '-'⟩) := by
    simp [Cursor.advance, h.owed, h.mode, step, stepCode, Mode.kind]
  obtain ⟨hmarks, hfinal⟩ := marks_lineComment (some '-') false ('-' :: xs)
  have hnext :=
    follows_nil (front ++ part) ('-' :: '-' :: xs) ⟨.lineComment, 0, false, false, some '-'⟩
    (push segments .code part)
  have hall : byteLength (front ++ part ++ '-' :: '-' :: xs) = byteLength line := by
    rw [h.line_eq, List.append_assoc]
  have hlt : byteLength (front ++ part) < byteLength line := by
    rw [← hall, byteLength_ascii rfl]
    omega
  rw [List.append_assoc, ← h.line_eq] at hnext
  refine hnext.move (fun out hout => ?_) ?_ ?_
  · rw [h.mode]
    rw [hall] at hout
    refine Scanner.ends_of_step hlt ?_ hlt hout
    rw [h.step?_eq]
    rfl
  · have hfresh : ∀ n ∈ (c.marks ('-' :: '-' :: xs)).head?, n.fresh = true := by
      intro n hn
      rw [Cursor.marks, hadvance] at hn
      cases hn
      rfl
    rw [ofMarks_marked _ _ hfresh, Cursor.marks.eq_2, hadvance, hmarks, h.mode, ← List.append_assoc,
      push_eq segments]
    congr 1
    rw [ofMarks_fresh _ _ _ false]
    exact congrArg Segment.ofMarks (List.append_nil _).symm
  · rw [Cursor.final.eq_2, hadvance, hfinal]
    rfl

/-- A brace opens a comment if a dash follows, or a block if another brace does. -/
theorem brace (h : InCode line front part ('\x7b' :: xs) c)
    (ih : ∀ ys : List Char, ys.length ≤ xs.length → Scans line ys)
    (hdepth : (solid ('\x7b' :: xs)).length < 4294967296) :
    Follows line front part ('\x7b' :: xs) c segments := by
  have hcount : ∀ (y : Char) (ys : List Char), xs = y :: ys →
      1 + (solid ys).length < 4294967296 := by
    rintro y ys rfl
    have hle := solid_length_le [y] ys
    have hbrace : (solid ('\x7b' :: y :: ys)).length = 1 + (solid (y :: ys)).length := by
      rw [solid_cons, List.length_append]
      rfl
    rw [List.singleton_append] at hle
    omega
  by_cases hblock : xs.head? = some '-'
  · obtain ⟨ys, rfl⟩ := List.head?_eq_some_iff.mp hblock
    refine h.begin ['-'] (.blockComment 1) (ih ys (by simp)) (hcount _ _ rfl)
      (by simp [stepCode]) ?_
    rw [h.step?_eq]
    rfl
  by_cases hdoc : xs.head? = some '\x7b'
  · obtain ⟨ys, rfl⟩ := List.head?_eq_some_iff.mp hdoc
    refine h.begin ['\x7b'] (.docBlock 1) (ih ys (by simp)) (hcount _ _ rfl) (by simp [stepCode]) ?_
    rw [h.step?_eq]
    rfl
  · refine h.stay (ih xs (Nat.le_refl _)) hdepth (by simp [stepCode, hblock, hdoc]) ?_
    have hb := mt (isPrefixOf_pair '\x7b' '-' '\x7b' xs).mp fun hand => hblock hand.2
    have hd := mt (isPrefixOf_pair '\x7b' '\x7b' '\x7b' xs).mp fun hand => hdoc hand.2
    rw [h.step?_eq]
    simp [hb, hd, -byteLength_append]

/-- All other characters stay in code. -/
theorem other (h : InCode line front part (x :: xs) c) (ih : Scans line xs)
    (hdepth : (solid (x :: xs)).length < 4294967296) (hstring : x ≠ '"') (hquote : x ≠ '\'')
    (hquestion : x ≠ '?') (hminus : ¬ (x = '-' ∧ xs.head? = some '-')) (hbrace : x ≠ '\x7b') :
    Follows line front part (x :: xs) c segments := by
  refine h.stay ih hdepth (by simp [stepCode, hstring, hquote, hquestion, hminus, hbrace]) ?_
  have hl : ¬ ['"', '"', '"'].isPrefixOf (x :: xs) = true := by
    simp [List.isPrefixOf, Ne.symm hstring]
  rw [h.step?_eq, if_neg hl, if_neg (mt (isPrefixOf_single _ x xs).mp hstring),
    if_neg (mt (isPrefixOf_single _ x xs).mp hquote),
    if_neg (mt (isPrefixOf_single _ x xs).mp hquestion),
    if_neg (mt (isPrefixOf_pair _ _ x xs).mp hminus),
    if_neg (mt (isPrefixOf_pair _ _ x xs).mp fun hand => hbrace hand.1),
    if_neg (mt (isPrefixOf_pair _ _ x xs).mp fun hand => hbrace hand.1)]

/-- In code the byte scanner does with a character what the scanner on characters does. -/
theorem follows (h : InCode line front part (x :: xs) c)
    (ih : ∀ ys : List Char, ys.length ≤ xs.length → Scans line ys)
    (hdepth : (solid (x :: xs)).length < 4294967296) :
    Follows line front part (x :: xs) c segments := by
  by_cases hstring : x = '"'
  · subst hstring
    exact h.string ih hdepth
  by_cases hquote : x = '\''
  · subst hquote
    exact h.quote (ih xs (Nat.le_refl _)) hdepth
  by_cases hquestion : x = '?'
  · subst hquestion
    exact h.question ih hdepth
  by_cases hbrace : x = '\x7b'
  · subst hbrace
    exact h.brace ih hdepth
  by_cases hminus : x = '-' ∧ xs.head? = some '-'
  · obtain ⟨rfl, hnext⟩ := hminus
    obtain ⟨ys, rfl⟩ := List.head?_eq_some_iff.mp hnext
    exact h.comment
  · exact h.other (ih xs (Nat.le_refl _)) hdepth hstring hquote hquestion hminus hbrace

end InCode

/-- A literal in quotes. An escape may go into the midst of a character, or past the end. -/
theorem follows_quoted (hroom : byteLength line + 4 < wordSize)
    (ih : ∀ ys : List Char, ys.length ≤ xs.length → Scans line ys)
    (hline : line = front ++ (part ++ x :: xs)) (howed : c.owed = 0) (hfresh : c.fresh = false)
    (hdepth : (solid (x :: xs)).length < 4294967296) (quote : Char) (hascii : isAscii quote = true)
    (hmode : c.mode ≠ .lineComment) (hzero : depthOf c.mode = 0)
    (hstep : ∀ ys, step c.mode c.prev x ys = stepQuoted c.mode quote x)
    (hstep? : Scanner.step? line ⟨c.mode, byteLength front, byteLength (front ++ part), segments⟩ =
      Scanner.stepQuoted? line ⟨c.mode, byteLength front, byteLength (front ++ part),
        segments⟩ quote) :
    Follows line front part (x :: xs) c segments := by
  have hahead : ∀ d, isAscii d = true →
      (ahead line (byteLength (front ++ part)) [d] = true ↔ x = d) := by
    intro d hd
    rw [hline, ← List.append_assoc, ahead_append (by simpa using hd)]
    exact isPrefixOf_single d x xs
  have hnofresh : c.fresh = true → part = [] ∧ c.mode = .code := by simp [hfresh]
  have hsolid := InCode.solid_lt [] hdepth
  rw [Scanner.stepQuoted?] at hstep?
  by_cases hback : x = '\\'
  · rw [if_pos ((hahead '\\' rfl).mpr hback)] at hstep?
    subst hback
    have hlen : byteLength line = byteLength (front ++ part) + 1 + byteLength xs := by
      rw [hline, ← List.append_assoc, byteLength_ascii rfl]
    rw [Scanner.skip?, add?_eq (by simp only; omega)] at hstep?
    have hescape : ∀ ys, step c.mode c.prev '\\' ys = .stay c.mode 1 := fun ys => hstep ys
    cases xs with
    | nil =>
      have hadvance : c.advance '\\' [] =
          (⟨'\\', c.mode.kind, false⟩, ⟨c.mode, 1, false, false, some '\\'⟩) := by
        simp [Cursor.advance, howed, hescape, hfresh]
      rw [byteLength_nil] at hlen
      refine ⟨_, Scanner.ends_of_step (by simp only; omega) hstep? (by simp only; omega)
        (Scanner.ends_of_le (by simp only; omega)), ?_, ?_⟩
      · have hline' : line = front ++ (part ++ ['\\']) := hline
        rw [hline', finish?_eq, marked_append, Cursor.marks, hadvance]
        rfl
      · rw [Cursor.final, hadvance]
        rfl
    | cons d ys =>
      have hpos := d.utf8Size_pos
      rw [byteLength_cons] at hlen
      have hsolid' := InCode.solid_lt [d] hdepth
      refine follows_stay [d] c.mode (ih ys (by simp)) hline howed hnofresh rfl
        (by rw [hzero, Nat.zero_add]; exact hsolid') (hescape _) fun out hout => ?_
      refine Scanner.ends_of_step (by simp only; omega) hstep? (by simp only; omega) ?_
      have hline' : line = (front ++ part ++ ['\\']) ++ d :: ys := by simp [hline]
      have hplace : byteLength (front ++ part) + 2 = byteLength (front ++ part ++ ['\\']) + 1 := by
        rw [byteLength_ascii rfl]
        rfl
      have hplace' : byteLength (front ++ part ++ ['\\', d]) =
          byteLength (front ++ part ++ ['\\']) + d.utf8Size := by
        rw [byteLength_ascii rfl, byteLength_ascii rfl]
        rfl
      rw [hplace'] at hout
      simp only
      rw [hplace]
      rw [hline'] at hout hroom ⊢
      exact Scanner.ends_inside hmode hroom hout Nat.one_pos hpos
  rw [if_neg (mt (hahead '\\' rfl).mp hback)] at hstep?
  by_cases hquote : x = quote
  · rw [if_pos ((hahead quote hascii).mpr hquote)] at hstep?
    refine follows_close [] (ih xs (Nat.le_refl _)) hline howed hfresh hsolid ?_ fun out hout => ?_
    · rw [hstep, stepQuoted, if_neg hback, if_pos hquote]
      rfl
    · refine Scanner.ends_close hroom hline ?_ hout
      rw [hstep?, byteLength_cons, hquote, Utf8.utf8Size_ascii hascii]
      rfl
  · rw [if_neg (mt (hahead quote hascii).mp hquote)] at hstep?
    refine follows_stay [] c.mode (ih xs (Nat.le_refl _)) hline howed hnofresh rfl
      (by rw [hzero, Nat.zero_add]; exact hsolid) ?_ fun out hout => ?_
    · rw [hstep, stepQuoted, if_neg hback, if_neg hquote]
      rfl
    · exact Scanner.ends_skip (by rw [hline, ← List.append_assoc]) hroom hmode hstep? hout

/-- In a long string the byte scanner does with a character what the scanner on characters does. -/
theorem follows_longString (hroom : byteLength line + 4 < wordSize)
    (ih : ∀ ys : List Char, ys.length ≤ xs.length → Scans line ys)
    (hline : line = front ++ (part ++ x :: xs)) (howed : c.owed = 0) (hfresh : c.fresh = false)
    (hdepth : (solid (x :: xs)).length < 4294967296) (hmode : c.mode = .longString) :
    Follows line front part (x :: xs) c segments := by
  have hahead : ahead line (byteLength (front ++ part)) ['"', '"', '"'] =
      ['"', '"', '"'].isPrefixOf (x :: xs) := by
    rw [hline, ← List.append_assoc]
    exact ahead_append (List.all_eq_true.mp rfl) (front ++ part) (x :: xs)
  have hstep? :
      Scanner.step? line ⟨c.mode, byteLength front, byteLength (front ++ part), segments⟩ =
      if ['"', '"', '"'].isPrefixOf (x :: xs) then
        Scanner.close? line ⟨c.mode, byteLength front, byteLength (front ++ part), segments⟩ 3
      else Scanner.skip? ⟨c.mode, byteLength front, byteLength (front ++ part), segments⟩ 1 := by
    simp only [Scanner.step?, hmode, hahead]
  have hclose : ['"', '"', '"'].isPrefixOf (x :: xs) = true ↔
      x = '"' ∧ ['"', '"'].isPrefixOf xs = true := by
    simp only [List.isPrefixOf, Bool.and_eq_true, beq_iff_eq]
    exact and_congr_left fun _ => eq_comm
  by_cases hlast : x = '"' ∧ ['"', '"'].isPrefixOf xs = true
  · rw [if_pos (hclose.mpr hlast)] at hstep?
    obtain ⟨rfl, hquotes⟩ := hlast
    obtain ⟨ys, rfl⟩ := List.isPrefixOf_iff_prefix.mp hquotes
    refine follows_close ['"', '"'] (ih ys (by simp; omega)) hline howed hfresh
      (InCode.solid_lt _ hdepth) ?_ fun out hout => ?_
    · rw [hmode]
      simp [step]
    · exact Scanner.ends_close hroom hline hstep? hout
  · rw [if_neg (mt hclose.mp hlast)] at hstep?
    have hsolid := InCode.solid_lt [] hdepth
    refine follows_stay [] c.mode (ih xs (Nat.le_refl _)) hline howed (by simp [hfresh]) rfl
      (by rw [hmode]; simpa [depthOf] using hsolid) ?_ fun out hout => ?_
    · rw [hmode, step, List.nil_append, if_neg hlast]
      rfl
    · exact Scanner.ends_skip (by rw [hline, ← List.append_assoc]) hroom
        (by rw [hmode]; decide) hstep? hout

/-- A comment that may hold others of its kind. -/
theorem follows_nested (hroom : byteLength line + 4 < wordSize)
    (ih : ∀ ys : List Char, ys.length ≤ xs.length → Scans line ys)
    (hline : line = front ++ (part ++ x :: xs)) (howed : c.owed = 0) (hfresh : c.fresh = false)
    {mode : Nat → Mode} {depth : Nat} (hmode : c.mode = mode depth)
    (hnest : ∀ n, depthOf (mode n) = n) (hkind : ∀ m n, (mode m).kind = (mode n).kind)
    (hline? : ∀ n, mode n ≠ .lineComment) (hdepth : depth + (solid (x :: xs)).length < 4294967296)
    (opening closing : Char × Char)
    (hopening : isAscii opening.1 = true ∧ isAscii opening.2 = true ∧ isSpace opening.1 = false)
    (hclosing : isAscii closing.1 = true ∧ isAscii closing.2 = true)
    (hstep : ∀ ys, step c.mode c.prev x ys = stepNested mode opening closing depth x ys)
    (hstep? : Scanner.step? line ⟨c.mode, byteLength front, byteLength (front ++ part), segments⟩ =
      Scanner.stepNested? line ⟨c.mode, byteLength front, byteLength (front ++ part), segments⟩ mode
        opening closing depth) :
    Follows line front part (x :: xs) c segments := by
  have hahead : ∀ a b, isAscii a = true → isAscii b = true →
      (ahead line (byteLength (front ++ part)) [a, b] = true ↔ x = a ∧ xs.head? = some b) := by
    intro a b ha hb
    rw [hline, ← List.append_assoc, ahead_append (by simp [ha, hb])]
    exact isPrefixOf_pair a b x xs
  have hnofresh : c.fresh = true → part = [] ∧ c.mode = .code := by simp [hfresh]
  have hlen : byteLength line = byteLength (front ++ part) + (x.utf8Size + byteLength xs) := by
    rw [hline, ← List.append_assoc, byteLength_append, byteLength_cons]
  rw [Scanner.stepNested?] at hstep?
  have htwo : ∀ y ys, xs = y :: ys → (solid ys).length ≤ (solid xs).length := by
    rintro y ys rfl
    exact solid_length_le [y] ys
  by_cases hopen : x = opening.1 ∧ xs.head? = some opening.2
  · rw [if_pos ((hahead _ _ hopening.1 hopening.2.1).mpr hopen)] at hstep?
    obtain ⟨rfl, hsecond⟩ := hopen
    obtain ⟨ys, rfl⟩ := List.head?_eq_some_iff.mp hsecond
    have hsolid : (solid (opening.1 :: opening.2 :: ys)).length = 1 +
        (solid (opening.2 :: ys)).length := by
      rw [solid_cons, List.length_append]
      simp [solid, hopening.2.2]
    have hle := htwo _ ys rfl
    rw [depth?, if_pos (by omega)] at hstep?
    refine follows_stay [opening.2] (mode (depth + 1)) (ih ys (by simp)) hline howed hnofresh
      (by rw [hmode, hkind]) (by rw [hnest]; omega) ?_ fun out hout => ?_
    · rw [hstep, stepNested, if_pos ⟨rfl, rfl⟩]
      rfl
    · exact Scanner.ends_pair hopening.1 hopening.2.1 hroom hline hstep? hout
  rw [if_neg (mt (hahead _ _ hopening.1 hopening.2.1).mp hopen)] at hstep?
  by_cases hclose : x = closing.1 ∧ xs.head? = some closing.2
  · rw [if_pos ((hahead _ _ hclosing.1 hclosing.2).mpr hclose)] at hstep?
    have hnested : stepNested mode opening closing depth x xs =
        if depth ≤ 1 then .leave 1 else .stay (mode (depth - 1)) 1 := by
      rw [stepNested, if_neg hopen, if_pos hclose]
    obtain ⟨rfl, hsecond⟩ := hclose
    obtain ⟨ys, rfl⟩ := List.head?_eq_some_iff.mp hsecond
    have hle := htwo _ ys rfl
    have hle' := solid_length_le [closing.1] (closing.2 :: ys)
    rw [List.singleton_append] at hle'
    by_cases houter : depth ≤ 1
    · rw [if_pos houter] at hstep? hnested
      refine follows_close [closing.2] (ih ys (by simp)) hline howed hfresh (by omega) ?_
        fun out hout => ?_
      · rw [hstep]
        exact hnested
      · refine Scanner.ends_close hroom hline ?_ hout
        rw [hstep?, byteLength_cons, byteLength_cons, byteLength_nil,
          Utf8.utf8Size_ascii hclosing.1, Utf8.utf8Size_ascii hclosing.2]
    · rw [if_neg houter] at hstep? hnested
      refine follows_stay [closing.2] (mode (depth - 1)) (ih ys (by simp)) hline howed hnofresh
        (by rw [hmode, hkind]) (by rw [hnest]; omega) ?_ fun out hout => ?_
      · rw [hstep]
        exact hnested
      · exact Scanner.ends_pair hclosing.1 hclosing.2 hroom hline hstep? hout
  rw [if_neg (mt (hahead _ _ hclosing.1 hclosing.2).mp hclose)] at hstep?
  have hle := solid_length_le [x] xs
  rw [List.singleton_append] at hle
  refine follows_stay [] c.mode (ih xs (Nat.le_refl _)) hline howed hnofresh rfl ?_ ?_
    fun out hout => ?_
  · rw [hmode, hnest]
    omega
  · rw [hstep, stepNested, List.nil_append, if_neg hopen, if_neg hclose, hmode]
    rfl
  · exact Scanner.ends_skip (by rw [hline, ← List.append_assoc]) hroom
      (hmode ▸ hline? depth) hstep? hout

end Modes

/-- From any place of a line with room to spare the two scanners read on alike. -/
theorem scans {line : List Char} (hroom : byteLength line + 4 < wordSize) (rest : List Char) :
    Scans line rest := by
  induction hn : rest.length using Nat.strongRecOn generalizing rest with
  | ind n ih =>
    intro front part c segments hline howed hprev hfresh hdepth
    cases rest with
    | nil =>
      rw [List.append_nil] at hline
      subst hline
      exact follows_nil front part c segments
    | cons x xs =>
      rw [List.length_cons] at hn
      have hlater : ∀ ys : List Char, ys.length ≤ xs.length → Scans line ys :=
        fun ys hys => ih ys.length (by omega) ys rfl
      have hsolid : (solid (x :: xs)).length < 4294967296 := by omega
      have hbusy : c.mode ≠ .code → c.fresh = false := by
        intro hmode
        cases hf : c.fresh with
        | false => rfl
        | true => exact absurd (hfresh hf).2 hmode
      cases hmode : c.mode with
      | code =>
        exact (InCode.mk hroom hline howed hprev hmode fun hf => (hfresh hf).1).follows hlater
          hsolid
      | charQuote =>
        refine follows_quoted hroom hlater hline howed (hbusy (by rw [hmode]; nofun)) hsolid '\''
          rfl (by rw [hmode]; nofun) (by rw [hmode]; rfl) (fun ys => by rw [hmode]; rfl) ?_
        rw [hmode]
        rfl
      | string =>
        refine follows_quoted hroom hlater hline howed (hbusy (by rw [hmode]; nofun)) hsolid '"' rfl
          (by rw [hmode]; nofun) (by rw [hmode]; rfl) (fun ys => by rw [hmode]; rfl) ?_
        rw [hmode]
        rfl
      | longString =>
        exact follows_longString hroom hlater hline howed
          (hbusy (by rw [hmode]; nofun)) hsolid hmode
      | lineComment => exact follows_lineComment hline howed hmode (hbusy (by rw [hmode]; nofun))
      | blockComment d =>
        rw [hmode] at hdepth
        refine follows_nested hroom hlater hline howed (hbusy (by rw [hmode]; nofun)) hmode
          (fun _ => rfl) (fun _ _ => rfl) nofun hdepth ('\x7b', '-') ('-', '\x7d') (by decide) (by decide)
          (fun ys => by rw [hmode]; rfl) ?_
        rw [hmode]
        rfl
      | docBlock d =>
        rw [hmode] at hdepth
        refine follows_nested hroom hlater hline howed (hbusy (by rw [hmode]; nofun)) hmode
          (fun _ => rfl) (fun _ _ => rfl) nofun hdepth ('\x7b', '\x7b') ('\x7d', '\x7d')
          (by decide) (by decide) (fun ys => by rw [hmode]; rfl) ?_
        rw [hmode]
        rfl

/-- Scanning a line byte by byte never fails, and gives what the scanner on characters gives. -/
theorem scanLine?_eq {mode : Mode} {line : List Char} (hroom : byteLength line + 4 < wordSize)
    (hdepth : depthOf mode + (solid line).length < 4294967296) :
    scanLine? mode line = some (scanLine mode line) := by
  obtain ⟨out, hends, hfinish, hmode⟩ :=
    scans hroom line [] [] (.start mode) [] rfl rfl rfl nofun hdepth
  have hrun : Scanner.run? line (byteLength line) ⟨mode, 0, 0, []⟩ = some out :=
    hends (byteLength line) (by simp)
  rw [scanLine?, hrun]
  simp only [Option.bind_eq_bind, Option.bind_some, hfinish, hmode]
  rfl

def deepens (c : Char) (before : Nat) : Step → Prop
  | .stay mode _ => depthOf mode ≤ before + (solid [c]).length
  | .enter mode _ => depthOf mode ≤ (solid [c]).length
  | .whole _ => True
  | .leave _ => True

/-- In code a character opens one level at most, and white space none. -/
theorem deepens_stepCode (prev : Option Char) (c : Char) (rest : List Char) :
    deepens c 0 (stepCode prev c rest) := by
  have hbrace : c = '\x7b' → (solid [c]).length = 1 := by
    rintro rfl
    rfl
  unfold stepCode
  split
  · split <;> exact Nat.zero_le _
  split
  · split <;> exact Nat.zero_le _
  split
  · split
    · exact Nat.zero_le _
    · split
      · trivial
      · exact Nat.zero_le _
  split
  · exact Nat.zero_le _
  split
  · rename_i h
    exact Nat.le_of_eq (hbrace h.1).symm
  split
  · rename_i h
    exact Nat.le_of_eq (hbrace h.1).symm
  · exact Nat.zero_le _

theorem deepens_stepQuoted {mode : Mode} (hmode : depthOf mode = 0) (quote c : Char) :
    deepens c 0 (stepQuoted mode quote c) := by
  unfold stepQuoted
  split
  · simp [deepens, hmode]
  · split <;> simp [deepens, hmode]

/-- In a nest a character opens one level more at most, and white space none. -/
theorem deepens_stepNested {mode : Nat → Mode} (hmode : ∀ n, depthOf (mode n) = n)
    {opening : Char × Char} (hopening : isSpace opening.1 = false)
    (closing : Char × Char) (depth : Nat) (c : Char) (rest : List Char) :
    deepens c depth (stepNested mode opening closing depth c rest) := by
  unfold stepNested
  split
  · rename_i h
    simp [deepens, hmode, solid, h.1, hopening]
  · split
    · split
      · trivial
      · simp only [deepens, hmode]
        omega
    · simp [deepens, hmode]

theorem deepens_step (mode : Mode) (prev : Option Char) (c : Char) (rest : List Char) :
    deepens c (depthOf mode) (step mode prev c rest) := by
  cases mode with
  | code => exact deepens_stepCode prev c rest
  | charQuote => exact deepens_stepQuoted rfl '\'' c
  | string => exact deepens_stepQuoted rfl '"' c
  | longString =>
    rw [step]
    split <;> simp [deepens, depthOf]
  | lineComment => exact Nat.zero_le _
  | blockComment d => exact deepens_stepNested (fun _ => rfl) rfl ('-', '\x7d') d c rest
  | docBlock d => exact deepens_stepNested (fun _ => rfl) rfl ('\x7d', '\x7d') d c rest

/-- Each character nests comments deeper by one level at most, and white space by none. -/
theorem depthOf_advance (s : Cursor) (c : Char) (rest : List Char) :
    depthOf (s.advance c rest).2.mode ≤ depthOf s.mode + (solid [c]).length := by
  unfold Cursor.advance
  split
  · split <;> simp [Cursor.closed, depthOf]
  · have h := deepens_step s.mode s.prev c rest
    split <;> rename_i hstep <;> rw [hstep] at h
    · exact h
    · exact Nat.le_trans h (Nat.le_add_left _ _)
    · simp [depthOf]
    · simp [Cursor.closed, depthOf]
    · simp

theorem depthOf_final (s : Cursor) (cs : List Char) :
    depthOf (s.final cs) ≤ depthOf s.mode + (solid cs).length := by
  induction cs generalizing s with
  | nil => simp [Cursor.final]
  | cons c cs ih =>
    have hstep := depthOf_advance s c cs
    have hlater := ih (s.advance c cs).2
    rw [Cursor.final, solid_cons, List.length_append]
    omega

theorem depthOf_carried (mode : Mode) : depthOf mode.carried ≤ depthOf mode := by
  cases mode <;> simp [Mode.carried, Mode.carries, depthOf]

/-- The lines of a text are scanned in bytes as in characters if none is too long and they do not
nest too deep. -/
theorem scanFrom?_eq {mode : Mode} {ls : List (List Char)}
    (hroom : ∀ l ∈ ls, byteLength l + 4 < wordSize)
    (hdepth : depthOf mode + (ls.flatMap solid).length < 4294967296) :
    scanFrom? mode ls = some (scanFrom mode ls) := by
  induction ls generalizing mode with
  | nil => rfl
  | cons l ls ih =>
    rw [List.flatMap_cons, List.length_append] at hdepth
    have hline : scanLine? mode l = some (scanLine mode l) :=
      scanLine?_eq (hroom l List.mem_cons_self) (by omega)
    have hcarried := depthOf_carried (scanLine mode l).endsIn
    have hfinal : depthOf (scanLine mode l).endsIn ≤ depthOf mode + (solid l).length :=
      depthOf_final (.start mode) l
    have hlater : scanFrom? (scanLine mode l).endsIn.carried ls =
        some (scanFrom (scanLine mode l).endsIn.carried ls) :=
      ih (fun m hm => hroom m (List.mem_cons_of_mem l hm)) (by omega)
    rw [scanFrom?, hline]
    simp only [Option.bind_eq_bind, Option.bind_some, hlater]
    rfl

/-- Scanning a text byte by byte never fails, as long as its lines are not too long for words and
its comments not too deep. -/
theorem scan?_eq {text : List Char} (hroom : ∀ l ∈ lines text, byteLength l + 4 < wordSize)
    (hdepth : (solid text).length < 4294967296) : scan? text = some (scan text) := by
  refine scanFrom?_eq hroom ?_
  rw [← solid_unlines, unlines_lines]
  simpa [depthOf] using hdepth

end Bytewise

end ScratchFormat
