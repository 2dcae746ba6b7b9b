import ScratchFormat.Proofs.Shape

/-! Where empty lines stand once the paragraphs of a text are separated. What the rule keeps from
line to line says of the lines put out so far only which is the last and which signature waits for
its definition, so both can be told from the lines themselves. A second run finds an empty line
exactly where the first has put one. -/

namespace ScratchFormat

theorem Mode.carried_carried (mode : Mode) : mode.carried.carried = mode.carried := by
  cases mode <;> rfl

namespace ScannedLine

def isTop (l : ScannedLine) : Bool := l.isCodeLine && !l.raw.head?.any isIndent

def isUse (l : ScannedLine) : Bool := l.startsInCode && Role.ofCode l.codeText = .useClause

def isComment (l : ScannedLine) : Bool :=
  l.isCommentOnly || (l.startsIn ≠ .code && l.startsIn ≠ .longString)

end ScannedLine

namespace Paragraphs

/-- A line that is put out, and whether an empty line goes before it. -/
structure Entry where
  gap : Bool
  line : ScannedLine

def Entry.lines (e : Entry) : List (List Char) := if e.gap then [[], e.line.raw] else [e.line.raw]

/-- `l` is the definition of a name, and the last line of code at column zero above it is the
signature of that name. -/
def Completes (above : List ScannedLine) (l : ScannedLine) : Prop :=
  ∃ name signature, (above.filter (·.isTop)).getLast? = some signature ∧
    Role.ofCode signature.codeText = .signature name ∧ l.isTop = true ∧
    Role.ofCode l.codeText = .definition (some name)

/-- `l` begins an item at column zero, and neither is it what the line above it opens or comments
on, nor are both use clauses. -/
structure StandsApart (above l : ScannedLine) : Prop where
  startsInCode : l.startsInCode = true
  atZero : l.raw.head?.any isIndent = false
  startsItem : startsItem l.raw = true
  notComment : above.isComment = false
  notOpener : ¬ (above.startsInCode = true ∧ opensBlock above.codeText = true)
  notUses : ¬ (above.isUse = true ∧ l.isUse = true)

/-- An entry as it should be below the lines `above`. -/
structure Placed (above : List ScannedLine) (e : Entry) : Prop where
  first : above = [] → e.gap = false
  carried : e.line.startsInCode = false → e.gap = false
  glued : Completes above e.line → e.gap = false
  apart : ¬ Completes above e.line →
    (∃ last ∈ above.getLast?, StandsApart last e.line) → e.gap = true
  /-- The line above a line of code is not blank itself, so that no other empty line stands
  there. -/
  filled : e.line.startsInCode = true → ∀ last ∈ above.getLast?, last.isBlank = false

def lineAbove (l : ScannedLine) : LineAbove :=
  if l.startsInCode then
    ⟨l.isCommentOnly, Role.ofCode l.codeText = .useClause,
      !l.isCommentOnly && opensBlock l.codeText⟩
  else ⟨l.startsIn ≠ .longString, false, false⟩

def signatureOf (l : ScannedLine) : Option (List Char) :=
  match Role.ofCode l.codeText with
  | .signature name => some name
  | _ => none

def glues (s : Paragraphs) (l : ScannedLine) : Bool :=
  l.isTop && s.signature.any (Role.ofCode l.codeText).defines

def setsApart (s : Paragraphs) (l : ScannedLine) : Bool :=
  !l.raw.head?.any isIndent && startsItem l.raw && separates s.above (Role.ofCode l.codeText)

def gapBefore (s : Paragraphs) (l : ScannedLine) : Bool :=
  !s.glues l && (s.setsApart l || s.pending)

section Rule

variable (s : Paragraphs) {l : ScannedLine}

theorem rule_carried (h : l.startsInCode = false) :
    rule s l = (⟨s.pending, some (lineAbove l), s.signature⟩, .line l.raw) := by
  simp [rule, lineAbove, h]

theorem rule_gap (h : l.isGap = true) :
    rule s l = ({ s with pending := s.above.isSome }, .nothing) := by
  obtain ⟨hcode, hblank⟩ := Bool.and_eq_true_iff.mp h
  simp [rule, hcode, hblank]

theorem rule_kept (hcode : l.startsInCode = true) (hblank : l.isBlank = false) :
    rule s l = (⟨false, some (lineAbove l), if l.isTop then signatureOf l else s.signature⟩,
      ⟨Entry.lines ⟨s.gapBefore l, l⟩, []⟩) := by
  have htop : l.isTop = (!l.raw.head?.any isIndent && !l.isCommentOnly) := by
    rw [ScannedLine.isTop, ScannedLine.isCodeLine, hcode, hblank, Bool.and_comm]
    rfl
  simp only [rule, hcode, hblank, Bool.not_true, Bool.false_eq_true, if_false, lineAbove, if_true,
    gapBefore, glues, setsApart, htop, Entry.lines]
  rfl

/-- What the rule tells apart. -/
theorem line_cases (l : ScannedLine) :
    l.startsInCode = false ∨ l.isGap = true ∨ (l.startsInCode = true ∧ l.isBlank = false) := by
  cases hcode : l.startsInCode <;> cases hblank :
    l.isBlank <;> simp [ScannedLine.isGap, hcode, hblank]

end Rule

def waiting (above : List ScannedLine) : Option (List Char) :=
  (above.filter (·.isTop)).getLast?.bind signatureOf

theorem waiting_concat (above : List ScannedLine) (l : ScannedLine) :
    waiting (above ++ [l]) = if l.isTop then signatureOf l else waiting above := by
  unfold waiting
  rw [List.filter_append]
  cases htop : l.isTop with
  | true =>
    rw [List.filter_cons_of_pos htop, List.filter_nil, List.getLast?_concat, if_pos rfl,
      Option.bind_some]
  | false =>
    rw [List.filter_cons_of_neg (by simp [htop]), List.filter_nil, List.append_nil,
      if_neg Bool.false_ne_true]

structure Knows (s : Paragraphs) (above : List ScannedLine) (mode : Mode) : Prop where
  last : s.above = above.getLast?.map lineAbove
  signature : s.signature = waiting above
  /-- An empty line is to come only below a line and before code. -/
  pending : s.pending = true → above ≠ [] ∧ mode = .code
  filled : mode = .code → ∀ l ∈ above.getLast?, l.isBlank = false
  carried : mode.carried = mode

theorem knows_initial : Knows initial [] .code := ⟨rfl, rfl, nofun, nofun, rfl⟩

section Knows

variable {s : Paragraphs} {above : List ScannedLine} {mode : Mode} {raw : List Char}
    (h : Knows s above mode)
include h

/-- The state glues a line to the one above if it completes a signature there. -/
theorem Knows.glues_iff (l : ScannedLine) : s.glues l = true ↔ Completes above l := by
  rw [glues, h.signature, waiting, Bool.and_eq_true]
  constructor
  · rintro ⟨htop, hdefines⟩
    cases hlast : (above.filter (·.isTop)).getLast? with
    | none =>
      rw [hlast] at hdefines
      cases hdefines
    | some signature =>
      rw [hlast, Option.bind_some, signatureOf] at hdefines
      split at hdefines
      · rename_i name hname
        exact ⟨name, signature, hlast, hname, htop, of_decide_eq_true hdefines⟩
      · cases hdefines
  · rintro ⟨name, signature, hlast, hname, htop, hdefines⟩
    refine ⟨htop, ?_⟩
    rw [hlast, Option.bind_some, signatureOf, hname, hdefines]
    exact decide_eq_true rfl

/-- The state sets a line apart if it stands apart from the last line above. -/
theorem Knows.setsApart {l last : ScannedLine} (hlast : last ∈ above.getLast?)
    (hapart : StandsApart last l) : s.setsApart l = true := by
  have hcomment : (lineAbove last).isComment = false := by
    have hnot := hapart.notComment
    rw [ScannedLine.isComment, Bool.or_eq_false_iff] at hnot
    unfold lineAbove
    split
    · exact hnot.1
    · rename_i hcarried
      have hstart : last.startsIn ≠ .code := fun hcode => hcarried (decide_eq_true hcode)
      simpa [hstart] using hnot.2
  have hopener : (lineAbove last).opensBlock = false := by
    have hnot := hapart.notOpener
    unfold lineAbove
    split
    · rename_i hcode
      simp only [hcode, true_and, Bool.not_eq_true] at hnot
      rw [hnot, Bool.and_false]
    · rfl
  have huses :
      ((lineAbove last).isUse && decide (Role.ofCode l.codeText = .useClause)) = false := by
    have hnot := hapart.notUses
    rw [← Bool.and_eq_true, Bool.not_eq_true, ScannedLine.isUse, ScannedLine.isUse,
      hapart.startsInCode, Bool.true_and] at hnot
    unfold lineAbove
    split
    · rename_i hcode
      rwa [hcode, Bool.true_and] at hnot
    · rfl
  rw [Paragraphs.setsApart, hapart.atZero, hapart.startsItem, h.last, hlast, separates,
    Option.map_some, Option.any_some, hcomment, hopener, huses]
  rfl

end Knows

/-- A blank line of code is not put out and leaves nothing open. -/
theorem Knows.step_gap {s : Paragraphs} {above : List ScannedLine} {mode : Mode} {raw : List Char}
    (h : Knows s above mode) (hgap : (scanLine mode raw).isGap = true) :
    (rule s (scanLine mode raw)).2.lines = [] ∧
      Knows (rule s (scanLine mode raw)).1 above (scanLine mode raw).endsIn.carried := by
  obtain ⟨hcode, hblank⟩ := Bool.and_eq_true_iff.mp hgap
  obtain rfl : mode = .code := of_decide_eq_true hcode
  have hmode : (scanLine .code raw).endsIn.carried = .code := by
    rw [endsIn_of_isSpace .code (isSpace_of_isBlank hblank)]
    rfl
  rw [rule_gap s hgap, hmode]
  refine ⟨rfl, h.last, h.signature, fun hpending => ⟨?_, rfl⟩, h.filled, rfl⟩
  rintro rfl
  rw [h.last] at hpending
  cases hpending

/-- Any other line is put out where it should be. -/
theorem Knows.step_line {s : Paragraphs} {above : List ScannedLine} {mode : Mode} {raw : List Char}
    (h : Knows s above mode) (hgap : (scanLine mode raw).isGap = false) :
    ∃ gap, (rule s (scanLine mode raw)).2.lines = Entry.lines ⟨gap, scanLine mode raw⟩ ∧
      Placed above ⟨gap, scanLine mode raw⟩ ∧
      Knows (rule s (scanLine mode raw)).1 (above ++ [scanLine mode raw])
        (scanLine mode raw).endsIn.carried := by
  rcases line_cases (scanLine mode raw) with hcarried | hblank | ⟨hcode, hblank⟩
  · have hmode : mode ≠ .code := of_decide_eq_false hcarried
    have hnot : (scanLine mode raw).isTop = false := by
      rw [ScannedLine.isTop, ScannedLine.isCodeLine, hcarried]
      rfl
    refine ⟨false, ?_, ⟨fun _ => rfl, fun _ => rfl, fun _ => rfl, ?_, fun hcode => ?_⟩, ?_⟩
    · rw [rule_carried s hcarried]
      rfl
    · rintro - ⟨last, -, hapart⟩
      exact absurd (hapart.startsInCode.symm.trans hcarried) Bool.noConfusion
    · exact absurd (hcode.symm.trans hcarried) Bool.noConfusion
    · rw [rule_carried s hcarried]
      refine ⟨by rw [List.getLast?_concat]; rfl, ?_,
        fun hpending => absurd (h.pending hpending).2 hmode, ?_, Mode.carried_carried _⟩
      · rw [waiting_concat, hnot, if_neg Bool.false_ne_true]
        exact h.signature
      · -- a blank line leaves open what it starts in
        rw [List.getLast?_concat]
        rintro hends l ⟨⟩
        refine Bool.eq_false_iff.mpr fun hblank => hmode ?_
        rwa [endsIn_of_isSpace mode (isSpace_of_isBlank hblank), h.carried] at hends
  · rw [hgap] at hblank
    cases hblank
  · obtain rfl : mode = .code := of_decide_eq_true hcode
    refine ⟨s.gapBefore (scanLine .code raw), ?_, ⟨?_, ?_, ?_, ?_, ?_⟩, ?_⟩
    · rw [rule_kept s hcode hblank]
    · rintro rfl
      have hnone : s.pending = false := Bool.eq_false_iff.mpr fun hpending =>
        (h.pending hpending).1 rfl
      rw [gapBefore, Paragraphs.setsApart, h.last, hnone]
      simp [separates]
    · exact fun hcarried => absurd (hcode.symm.trans hcarried) Bool.noConfusion
    · intro hcompletes
      rw [gapBefore, (h.glues_iff _).mpr hcompletes]
      rfl
    · rintro hnot ⟨last, hlast, hapart⟩
      have hglues : s.glues (scanLine .code raw) = false := by
        rwa [← Bool.not_eq_true, h.glues_iff]
      rw [gapBefore, hglues, h.setsApart hlast hapart]
      rfl
    · exact fun _ => h.filled rfl
    · rw [rule_kept s hcode hblank]
      refine ⟨by rw [List.getLast?_concat]; rfl, ?_, fun hpending => Bool.noConfusion hpending, ?_,
        Mode.carried_carried _⟩
      · rw [waiting_concat, h.signature]
      · rw [List.getLast?_concat]
        rintro - l ⟨⟩
        exact hblank

/-- A whole run. -/
theorem Knows.walk {s : Paragraphs} {above : List ScannedLine} {mode : Mode}
    (h : Knows s above mode) (ls : List (List Char)) :
    ∃ entries : List Entry, (walk rule s (scanFrom mode ls)).lines = entries.flatMap Entry.lines ∧
      entries.map Entry.line = (scanFrom mode ls).filter (!·.isGap) ∧
      ∀ done e rest, entries = done ++ e :: rest → Placed (above ++ done.map Entry.line) e := by
  -- whatever is put out joins the lines above, and the state knows them again
  induction ls generalizing s above mode with
  | nil => exact ⟨[], rfl, rfl, by simp⟩
  | cons raw ls ih =>
    rw [scanFrom, ScratchFormat.walk, Output.append]
    cases hgap : (scanLine mode raw).isGap with
    | true =>
      obtain ⟨hlines, hnext⟩ := h.step_gap hgap
      obtain ⟨entries, hwalk, hkept, hplaced⟩ := ih hnext
      refine ⟨entries, ?_, ?_, hplaced⟩
      · rw [hlines, hwalk, List.nil_append]
      · rw [hkept, List.filter_cons_of_neg (by simp [hgap])]
    | false =>
      obtain ⟨gap, hlines, hfirst, hnext⟩ := h.step_line hgap
      obtain ⟨entries, hwalk, hkept, hplaced⟩ := ih hnext
      refine ⟨⟨gap, scanLine mode raw⟩ :: entries, ?_, ?_, ?_⟩
      · rw [hlines, hwalk, List.flatMap_cons]
      · rw [List.map_cons, hkept, List.filter_cons_of_pos (by simp [hgap])]
      · -- the lines above a later entry begin with this one
        intro done e rest hentries
        cases done with
        | nil =>
          obtain ⟨rfl, -⟩ := List.cons.inj hentries
          rwa [List.map_nil, List.append_nil]
        | cons d done =>
          obtain ⟨rfl, hrest⟩ := List.cons.inj hentries
          have hlater := hplaced done e rest hrest
          rwa [List.append_assoc, List.singleton_append] at hlater

/-- Separating the paragraphs of a text drops the blank lines of code and puts empty lines between
the others, each of which stays what it is and where it is in their order. An entry holds one line,
so there is at most one empty line between two of them and none behind the last. -/
theorem separate_layout (text : List Char) :
    ∃ entries : List Entry, separate text = unlines (entries.flatMap Entry.lines) ∧
      entries.map Entry.line = (scan text).filter (!·.isGap) ∧
      ∀ done e rest, entries = done ++ e :: rest → Placed (done.map Entry.line) e := by
  obtain ⟨entries, hwalk, hkept, hplaced⟩ := knows_initial.walk (lines text)
  exact ⟨entries, congrArg unlines hwalk, hkept, hplaced⟩

def settled (s : Paragraphs) : Paragraphs := { s with pending := false }

/-- An empty line goes before a line only if there is a line above. -/
theorem above_of_gapBefore {s : Paragraphs} (hpending : s.pending = true → s.above.isSome = true)
    {l : ScannedLine} (h : s.gapBefore l = true) : s.above.isSome = true := by
  rw [gapBefore, Bool.and_eq_true, Bool.or_eq_true] at h
  rcases h.2 with hapart | hwaits
  · rw [setsApart, Bool.and_eq_true] at hapart
    cases habove : s.above with
    | none =>
      rw [habove] at hapart
      cases hapart.2
    | some a => rfl
  · exact hpending hwaits

/-- Whether an empty line goes before a line is decided again as it was, once the line is there or
not. -/
theorem gapBefore_again (s : Paragraphs) (l : ScannedLine) :
    gapBefore { s with pending := s.gapBefore l } l = s.gapBefore l := by
  have hsame : ∀ b, gapBefore { s with pending := b } l =
    (!s.glues l && (s.setsApart l || b)) := fun _ => rfl
  rw [hsame, gapBefore]
  cases s.glues l <;> cases s.setsApart l <;> cases s.pending <;> rfl

/-- An empty line that is found is to come before the next line. -/
theorem walk_entry {s : Paragraphs} {gap : Bool} (hgap : gap = true → s.above.isSome = true)
    (raw : List Char) (ls : List ScannedLine) :
    walk rule s.settled (scanFrom .code (Entry.lines ⟨gap, scanLine .code raw⟩) ++ ls) =
      walk rule { s with pending := gap } (scanLine .code raw :: ls) := by
  cases gap with
  | false => rfl
  | true =>
    have hempty : rule s.settled (scanLine .code []) = ({ s with pending := true }, .nothing) := by
      rw [rule_gap s.settled rfl, settled, ← hgap rfl]
    change (rule s.settled (scanLine .code [])).2.append
      (walk rule (rule s.settled (scanLine .code [])).1 (scanLine .code raw :: ls)) = _
    rw [hempty]
    rfl

/-- Over what is put out for one line, a second run puts out the same and goes on like the first. -/
theorem walk_settled {s : Paragraphs} (hpending : s.pending = true → s.above.isSome = true)
    (mode : Mode) (raw : List Char) (ls : List ScannedLine) :
    (walk rule s.settled (scanFrom mode (rule s (scanLine mode raw)).2.lines ++ ls)).lines =
      (rule s (scanLine mode raw)).2.lines ++
        (walk rule (rule s (scanLine mode raw)).1.settled ls).lines := by
  rcases line_cases (scanLine mode raw) with hcarried | hgap | ⟨hcode, hblank⟩
  · have hagain := rule_carried s.settled hcarried
    rw [rule_carried s hcarried]
    change ((rule s.settled (scanLine mode raw)).2.append
      (walk rule (rule s.settled (scanLine mode raw)).1 ls)).lines = _
    rw [hagain]
    rfl
  · rw [rule_gap s hgap]
    rfl
  · obtain rfl : mode = .code := of_decide_eq_true hcode
    rw [rule_kept s hcode hblank]
    -- the empty line, if there is one, makes the gap pending, and a pending gap is decided as before
    have hwalk := walk_entry (above_of_gapBefore (l := scanLine .code raw) hpending) raw ls
    rw [hwalk, walk, rule_kept _ hcode hblank, gapBefore_again]
    rfl

/-- An empty line is to come only below a line. -/
theorem above_of_pending (s : Paragraphs) (l : ScannedLine) :
    (rule s l).1.pending = true → (rule s l).1.above.isSome = true := by
  rcases line_cases l with hcarried | hgap | ⟨hcode, hblank⟩
  · rw [rule_carried s hcarried]
    exact fun _ => rfl
  · rw [rule_gap s hgap]
    exact id
  · rw [rule_kept s hcode hblank]
    exact fun _ => rfl

/-- A second walk, from the state in which the first has put a gap, changes nothing. -/
theorem walk_walk {s : Paragraphs}
    (hpending : s.pending = true → s.above.isSome = true) (mode : Mode) (ls : List (List Char)) :
    (walk rule s.settled (scanFrom mode (walk rule s (scanFrom mode ls)).lines)).lines =
      (walk rule s (scanFrom mode ls)).lines := by
  -- the modes of the lines put out are those of the text, so both runs see the same lines
  induction ls generalizing s mode with
  | nil => rfl
  | cons raw ls ih =>
    rw [keepsModes.scanFrom_walk, walk_settled hpending, ih (above_of_pending s _)]
    rfl

/-- Separating the paragraphs of a text again changes nothing. -/
theorem separate_separate (text : List Char) : separate (separate text) = separate text := by
  have hwalk := walk_walk (s := initial) nofun .code (lines text)
  by_cases hne : (walk rule initial (scan text)).lines = []
  · -- nothing but blank lines of code, which make up no text
    have hempty : separate text = [] := by rw [separate, hne]; rfl
    rw [hempty]
    decide
  · have hscan : scan (separate text) = scanFrom .code (walk rule initial (scan text)).lines :=
      scan_unlines hne (newline_notMem_lines initial text)
    rw [separate, hscan]
    exact congrArg unlines hwalk

end Paragraphs

end ScratchFormat
