import Mathlib.Data.List.Forall2
import ScratchFormat.Proofs.Paste
import ScratchFormat.Proofs.Pieces

/-! Lines with other blanks in front. The scanner passes over the blanks that a line begins with, so
a line that is indented in another way starts and ends in the same modes, has the same segments
behind its blanks, and is the same line of code. The three stages that move lines change nothing
else about them. -/

namespace ScratchFormat

theorem scanLine_raw (mode : Mode) (raw : List Char) : (scanLine mode raw).raw = raw := rfl

def blankMarks (kind : Kind) (bs : List Char) : List Mark := bs.map fun b => ⟨b, kind, false⟩

namespace Cursor

/-- Blanks belong to what the scanner is inside of, and behind them it reads on as before them. -/
theorem marks_space_append {s : Cursor} (howed : s.owed = 0) (hfresh : s.fresh = false)
    (hprev : s.prev.any isNameTail = false) {bs : List Char} (hb : ∀ b ∈ bs, isSpace b = true)
    (cs : List Char) :
    s.marks (bs ++ cs) = blankMarks s.mode.kind bs ++ s.marks cs := by
  induction bs generalizing s with
  | nil => rfl
  | cons b bs ih =>
    have hspace := hb b List.mem_cons_self
    have hmark : (s.advance b (bs ++ cs)).1 = ⟨b, s.mode.kind, false⟩ := by
      unfold advance
      rw [howed, step_space s.mode s.prev hspace, hfresh]
    have hname : (some b).any isNameTail = false := isNameTail_of_isSpace hspace
    have hlater := ih (s := ⟨s.mode, 0, false, false, some b⟩) rfl rfl hname fun d hd =>
      hb d (List.mem_cons_of_mem b hd)
    have hagrees : Agrees ⟨s.mode, 0, false, false, some b⟩ s :=
      ⟨rfl, howed.symm, fun h => absurd rfl h, hname.trans hprev.symm⟩
    rw [List.cons_append, marks, hmark, advance_space_of_owed howed hspace, hlater,
      hagrees.marks hfresh.symm]
    rfl

/-- The first mark of a line goes on with what the line starts in, unless a segment begins with
it. -/
theorem kind_of_head_marks (mode : Mode) (cs : List Char) :
    ∀ m ∈ ((start mode).marks cs).head?, m.fresh = false → m.kind = mode.kind := by
  intro m hm hfresh
  cases cs with
  | nil => cases hm
  | cons c cs =>
    cases hm
    by_cases hmode : mode = .code
    · subst hmode
      rcases mark_of_idle (s := start .code) ⟨rfl, rfl⟩ c cs with ⟨hkind, -⟩ | ⟨-, hopens⟩
      · exact hkind
      · rw [hopens] at hfresh
        cases hfresh
    · exact (mark_of_busy (sound_start mode (c :: cs)) fun hidle => hmode hidle.1).1

end Cursor

/-- Blanks in front of marks make up a segment of their own, or join on to the first segment. -/
theorem ofMarks_blankMarks {kind : Kind} {bs : List Char} (hne : bs ≠ []) {ms : List Mark}
    (hms : ∀ m ∈ ms.head?, m.fresh = false → m.kind = kind) :
    Segment.ofMarks (blankMarks kind bs ++ ms) = ⟨kind, bs⟩ :: Segment.ofMarks ms ∨
      ∃ text ts, Segment.ofMarks ms = ⟨kind, text⟩ :: ts ∧
        Segment.ofMarks (blankMarks kind bs ++ ms) = ⟨kind, bs ++ text⟩ :: ts := by
  induction bs with
  | nil => exact absurd rfl hne
  | cons b bs ih =>
    have hcons : blankMarks kind (b :: bs) ++ ms = ⟨b, kind, false⟩ ::
        (blankMarks kind bs ++ ms) := rfl
    rw [hcons]
    cases bs with
    | nil =>
      cases ms with
      | nil => exact .inl rfl
      | cons m ms =>
        obtain ⟨t, ts, hm, hb⟩ := ofMarks_cons_cons ⟨b, kind, false⟩ m ms
        change Segment.ofMarks (⟨b, kind, false⟩ :: m :: ms) = _ at hb
        cases hfresh : m.fresh with
        | true =>
          rw [hfresh, if_pos rfl, ← hm] at hb
          exact .inl hb
        | false =>
          have hkind : t = ⟨kind, t.text⟩ := by rw [← hms m rfl hfresh, ← kind_of_ofMarks hm]
          rw [hfresh, if_neg Bool.false_ne_true] at hb
          exact .inr ⟨t.text, ts, by rw [hm, ← hkind], hb⟩
    | cons d bs =>
      -- the mark behind the first blank is that of a blank too, so the segment goes on
      obtain ⟨t, ts, hd, hb⟩ :=
        ofMarks_cons_cons ⟨b, kind, false⟩ ⟨d, kind, false⟩ (blankMarks kind bs ++ ms)
      rw [if_neg Bool.false_ne_true] at hb
      rcases ih (List.cons_ne_nil d bs) with hown | ⟨text, us, hms', hjoined⟩
      · obtain ⟨rfl, rfl⟩ := List.cons.inj (hd.symm.trans hown)
        exact .inl hb
      · obtain ⟨rfl, rfl⟩ := List.cons.inj (hd.symm.trans hjoined)
        exact .inr ⟨text, ts, hms', hb⟩

/-- Blanks in front of a line make up a segment of their own, or join on to its first segment. -/
theorem segments_space_append (mode : Mode) {bs : List Char} (hb : ∀ b ∈ bs, isSpace b = true)
    (hne : bs ≠ []) (cs : List Char) :
    (scanLine mode (bs ++ cs)).segments = ⟨mode.kind, bs⟩ :: (scanLine mode cs).segments ∨
      ∃ text ts, (scanLine mode cs).segments = ⟨mode.kind, text⟩ :: ts ∧
        (scanLine mode (bs ++ cs)).segments = ⟨mode.kind, bs ++ text⟩ :: ts := by
  have hmarks := Cursor.marks_space_append (s := .start mode) rfl rfl rfl hb cs
  simp only [scanLine, hmarks]
  exact ofMarks_blankMarks hne (Cursor.kind_of_head_marks mode cs)

def Segment.dropWhile (p : Char → Bool) : List Segment → List Segment
  | [] => []
  | t :: ts =>
    match t.text.dropWhile p with
    | [] => dropWhile p ts
    | c :: cs => ⟨t.kind, c :: cs⟩ :: ts

theorem Segment.dropWhile_cons_append {p : Char → Bool} (kind : Kind) {bs : List Char}
    (hb : ∀ b ∈ bs, p b = true) (text : List Char) (ts : List Segment) :
    Segment.dropWhile p (⟨kind, bs ++ text⟩ :: ts) = Segment.dropWhile p (⟨kind, text⟩ :: ts) := by
  simp only [Segment.dropWhile, List.dropWhile_append_of_pos hb]

/-- Behind the blanks in front a line has the same segments, however many blanks there are. -/
theorem dropWhile_segments_append {p : Char → Bool}
    (hp : ∀ c, p c = true → isSpace c = true) (mode : Mode) {bs : List Char}
    (hb : ∀ b ∈ bs, p b = true) (cs : List Char) :
    Segment.dropWhile p (scanLine mode (bs ++ cs)).segments =
      Segment.dropWhile p (scanLine mode cs).segments := by
  by_cases hne : bs = []
  · rw [hne, List.nil_append]
  rcases segments_space_append mode (fun b hbs => hp b (hb b hbs)) hne cs
    with hown | ⟨text, ts, hcs, hjoined⟩
  · rw [hown, ← List.append_nil bs, Segment.dropWhile_cons_append mode.kind hb]
    rfl
  · rw [hjoined, hcs, Segment.dropWhile_cons_append mode.kind hb]

theorem dropWhile_segments_of_isSpace (mode : Mode) {raw : List Char}
    (h : ∀ c ∈ raw, isSpace c = true) :
    Segment.dropWhile isSpace (scanLine mode raw).segments = [] := by
  rw [← List.append_nil raw, dropWhile_segments_append (fun _ hc => hc) mode h]
  rfl

/-- Blanks in front of the code so far stay blanks in front of it. -/
theorem ScannedLine.exists_joinCode_append {bs : List Char} (hb : ∀ b ∈ bs, isSpace b = true)
    (sofar : List Char) (t : Segment) :
    ∃ bs', (∀ b ∈ bs', isSpace b = true) ∧ joinCode (bs ++ sofar) t = bs' ++ joinCode sofar t := by
  unfold joinCode
  cases t.kind with
  | code => exact ⟨bs, hb, List.append_assoc bs sofar t.text⟩
  | literal => exact ⟨bs, hb, List.append_assoc bs sofar ['"', '"']⟩
  | comment =>
    cases sofar with
    | nil =>
      -- with no code before it a comment leaves at most one more blank
      simp only [List.append_nil, List.isEmpty_nil, Bool.true_or, if_true]
      split
      · exact ⟨bs, hb, rfl⟩
      · refine ⟨bs ++ [' '], ?_, rfl⟩
        rw [List.forall_mem_append]
        exact ⟨hb, List.forall_mem_singleton.mpr rfl⟩
    | cons c cs =>
      have hlast : (bs ++ c :: cs).getLast? = (c :: cs).getLast? :=
        List.getLast?_append_of_ne_nil bs (List.cons_ne_nil c cs)
      have hempty : (bs ++ c :: cs).isEmpty = false := by cases bs <;> rfl
      refine ⟨bs, hb, ?_⟩
      simp only [hlast, hempty, List.isEmpty_cons]
      split
      · rfl
      · exact List.append_assoc bs (c :: cs) [' ']

theorem ScannedLine.trim_foldl_joinCode {bs : List Char} (hb : ∀ b ∈ bs, isSpace b = true)
    (sofar : List Char) (ts : List Segment) :
    trim (ts.foldl joinCode (bs ++ sofar)) = trim (ts.foldl joinCode sofar) := by
  -- a comment may put one more blank behind those in front, so the blanks vary along the segments
  induction ts generalizing bs sofar with
  | nil =>
    rw [List.foldl_nil, List.foldl_nil, trim, trimStart, List.dropWhile_append_of_pos hb,
      trim, trimStart]
  | cons t ts ih =>
    obtain ⟨bs', hb', hjoin⟩ := exists_joinCode_append hb sofar t
    rw [List.foldl_cons, hjoin, ih hb', List.foldl_cons]

/-- The code of a line, without the white space around it, does not hang on how the line is
indented. -/
theorem ScannedLine.trim_codeText_space_append {bs : List Char} (hb : ∀ b ∈ bs, isSpace b = true)
    (cs : List Char) :
    trim (scanLine .code (bs ++ cs)).codeText = trim (scanLine .code cs).codeText := by
  by_cases hne : bs = []
  · rw [hne, List.nil_append]
  rw [codeText, codeText]
  rcases segments_space_append .code hb hne cs with hown | ⟨text, ts, hcs, hjoined⟩
  · rw [hown, List.foldl_cons]
    have hfirst : joinCode [] ⟨.code, bs⟩ = bs ++ [] := (List.append_nil bs).symm
    exact hfirst ▸ trim_foldl_joinCode hb [] _
  · rw [hjoined, hcs, List.foldl_cons, List.foldl_cons]
    exact trim_foldl_joinCode hb text ts

section Place

variable (style : Style) (cols : Nat) (raw : List Char)

/-- What does not hang on the blanks in front of a line is the same in every column. -/
theorem Style.place_congr {α : Type} {f : List Char → α}
    (hf : ∀ bs cs, (∀ b ∈ bs, isSpace b = true) → f (bs ++ cs) = f cs) :
    f (style.place cols (raw.dropWhile isIndent)) = f raw := by
  calc f (style.place cols (raw.dropWhile isIndent))
    _ = f (raw.dropWhile isIndent) := hf _ _ fun _ hc => isSpace_of_mem_render hc
    _ = f (raw.takeWhile isIndent ++ raw.dropWhile isIndent) :=
      (hf _ _ fun _ hc => isSpace_of_mem_indent hc).symm
    _ = f raw := by rw [List.takeWhile_append_dropWhile]

theorem ScannedLine.isCodeLine_place :
    (scanLine .code (style.place cols (raw.dropWhile isIndent))).isCodeLine =
      (scanLine .code raw).isCodeLine := by
  apply style.place_congr cols raw (f := fun raw => (scanLine .code raw).isCodeLine)
  exact fun bs cs hb => isCodeLine_space_append hb cs

theorem ScannedLine.trim_codeText_place :
    trim (scanLine .code (style.place cols (raw.dropWhile isIndent))).codeText =
      trim (scanLine .code raw).codeText := by
  apply style.place_congr cols raw (f := fun raw => trim (scanLine .code raw).codeText)
  exact fun bs cs hb => trim_codeText_space_append hb cs

end Place

namespace ScannedLine

/-- A line and what has become of it after it was moved. -/
structure Reindented (l m : ScannedLine) : Prop where
  startsIn : m.startsIn = l.startsIn
  endsIn : m.endsIn = l.endsIn
  /-- The scanner finds the same segments, up to the white space in front of the line. -/
  segments : Segment.dropWhile isSpace m.segments = Segment.dropWhile isSpace l.segments
  /-- The content of a long string does not move. -/
  content : l.startsIn = .longString → m.raw = l.raw
  /-- Of a line that is not blank only spaces and tabs in front are other ones. -/
  rest : l.isBlank = false → m.raw.dropWhile isIndent = l.raw.dropWhile isIndent
  restSegments : l.isBlank = false →
    Segment.dropWhile isIndent m.segments = Segment.dropWhile isIndent l.segments

theorem Reindented.refl (l : ScannedLine) : l.Reindented l :=
  ⟨rfl, rfl, rfl, fun _ => rfl, fun _ => rfl, fun _ => rfl⟩

/-- Spaces and tabs in front of a line may be others. -/
theorem reindented_append {mode : Mode} (hmode : mode ≠ .longString) {front front' : List Char}
    (hfront : ∀ c ∈ front, isIndent c = true) (hfront' : ∀ c ∈ front', isIndent c = true)
    (rest : List Char) :
    (scanLine mode (front ++ rest)).Reindented (scanLine mode (front' ++ rest)) := by
  have hspace : ∀ c ∈ front, isSpace c = true := fun c hc => isSpace_of_isIndent (hfront c hc)
  have hspace' : ∀ c ∈ front', isSpace c = true := fun c hc => isSpace_of_isIndent (hfront' c hc)
  constructor
  · rfl
  · rw [endsIn_space_append mode hspace', endsIn_space_append mode hspace]
  · rw [dropWhile_segments_append (fun _ hc => hc) mode hspace',
      dropWhile_segments_append (fun _ hc => hc) mode hspace]
  · exact fun hlong => absurd hlong hmode
  · intro _
    change (front' ++ rest).dropWhile isIndent = (front ++ rest).dropWhile isIndent
    rw [List.dropWhile_append_of_pos hfront', List.dropWhile_append_of_pos hfront]
  · intro _
    rw [dropWhile_segments_append (fun _ hc => isSpace_of_isIndent hc) mode hfront',
      dropWhile_segments_append (fun _ hc => isSpace_of_isIndent hc) mode hfront]

/-- A line may be put in any column. -/
theorem reindented_place {mode : Mode} (hmode : mode ≠ .longString) (style : Style) (cols : Nat)
    (raw : List Char) :
    (scanLine mode raw).Reindented (scanLine mode (style.place cols (raw.dropWhile isIndent))) := by
  have hindent : ∀ c ∈ raw.takeWhile isIndent, isIndent c = true :=
    List.all_eq_true.mp List.all_takeWhile
  have hrender : ∀ c ∈ style.render cols, isIndent c = true := fun _ hc => isIndent_of_mem_render hc
  have hmoved := reindented_append hmode hindent hrender (raw.dropWhile isIndent)
  rwa [List.takeWhile_append_dropWhile] at hmoved

/-- A blank line may be emptied. -/
theorem reindented_nil {mode : Mode} (hmode : mode ≠ .longString) {raw : List Char}
    (hblank : (scanLine mode raw).isBlank = true) :
    (scanLine mode raw).Reindented (scanLine mode []) := by
  have hspace := isSpace_of_isBlank hblank
  constructor
  · rfl
  · rw [endsIn_of_isSpace mode hspace]
    rfl
  · rw [dropWhile_segments_of_isSpace mode hspace]
    rfl
  · exact fun hlong => absurd hlong hmode
  · exact fun hfull => absurd (hfull.symm.trans hblank) Bool.false_ne_true
  · exact fun hfull => absurd (hfull.symm.trans hblank) Bool.false_ne_true

end ScannedLine

def Reindents {σ : Type} (rule : σ → ScannedLine → σ × Output) : Prop :=
  ∀ s mode raw, ∃ raw', (rule s (scanLine mode raw)).2.lines = [raw'] ∧
    (scanLine mode raw).Reindented (scanLine mode raw')

namespace Reindents

variable {σ : Type} {rule : σ → ScannedLine → σ × Output} (h : Reindents rule)
include h

/-- A walk puts out one line for the first line and goes on from the mode that the first line
leaves. -/
theorem exists_scanFrom_walk (s : σ) (mode : Mode) (raw : List Char) (ls : List (List Char)) :
    ∃ raw', (rule s (scanLine mode raw)).2.lines = [raw'] ∧
      (scanLine mode raw).Reindented (scanLine mode raw') ∧
      scanFrom mode (walk rule s (scanFrom mode (raw :: ls))).lines =
        scanLine mode raw' :: scanFrom (scanLine mode raw).endsIn.carried
          (walk rule (rule s (scanLine mode raw)).1
            (scanFrom (scanLine mode raw).endsIn.carried ls)).lines := by
  obtain ⟨raw', hlines, hmoved⟩ := h s mode raw
  refine ⟨raw', hlines, hmoved, ?_⟩
  rw [scanFrom, walk, Output.append, hlines, List.singleton_append, scanFrom, hmoved.endsIn]

theorem forall₂_walk (s : σ) (mode : Mode) (ls : List (List Char)) :
    List.Forall₂ ScannedLine.Reindented (scanFrom mode ls)
      (scanFrom mode (walk rule s (scanFrom mode ls)).lines) := by
  induction ls generalizing mode s with
  | nil => exact .nil
  | cons raw ls ih =>
    obtain ⟨raw', -, hmoved, hscan⟩ := h.exists_scanFrom_walk s mode raw ls
    rw [hscan, scanFrom]
    exact .cons hmoved (ih _ _)

theorem walk_ne_nil (s : σ) (text : List Char) : (walk rule s (scan text)).lines ≠ [] := by
  intro hnil
  have hlength := (h.forall₂_walk s .code (lines text)).length_eq
  rw [← scan, hnil, ← List.length_map ScannedLine.raw, scan_map_raw] at hlength
  exact lines_ne_nil text (List.length_eq_zero_iff.mp hlength)

theorem forall₂_scan {s : σ} {text : List Char}
    (hnewline : ∀ m ∈ (walk rule s (scan text)).lines, '\n' ∉ m) :
    List.Forall₂ ScannedLine.Reindented (scan text)
      (scan (unlines (walk rule s (scan text)).lines)) := by
  rw [scan_unlines (h.walk_ne_nil s text) hnewline]
  exact h.forall₂_walk s .code (lines text)

end Reindents

namespace Levels

theorem rule_kept (style : Style) (s : Levels) {l : ScannedLine}
    (h : l.startsInCode = false ∨ l.isCommentOnly = true) : rule style s l = (s, .line l.raw) := by
  have hskip : (!l.startsInCode || l.isCommentOnly) = true := by
    rcases h with h | h <;> simp [h]
  rw [rule, if_pos hskip]

theorem rule_blank (style : Style) (s : Levels) {l : ScannedLine} (hcode : l.startsInCode = true)
    (hblank : l.isBlank = true) : rule style s l = (s, .line []) := by
  simp [rule, hcode, hblank, ScannedLine.isCommentOnly]

def lineLevel (style : Style) (s : Levels) (l : ScannedLine) : Nat :=
  s.level (Role.ofCode (trim l.codeText)) (trim l.codeText) (style.levelOf (style.columns l.raw))

def settled (style : Style) (s : Levels) (l : ScannedLine) : List Char :=
  style.place (style.colsOf (lineLevel style s l)) (l.raw.dropWhile isIndent)

/-- A line of code is put at its level. It is noted if that is not the nearest. -/
theorem rule_code (style : Style) (s : Levels) {l : ScannedLine} (h : l.isCodeLine = true) :
    (rule style s l).1 =
        s.after (Role.ofCode (trim l.codeText)) (trim l.codeText) (lineLevel style s l) ∧
      (rule style s l).2.lines = [settled style s l] ∧
      (lineLevel style s l = style.levelOf (style.columns l.raw) →
        (rule style s l).2.notes = []) := by
  obtain ⟨⟨hcode, hblank⟩, hcomment⟩ : (l.startsInCode = true ∧ l.isBlank = false) ∧
      l.isCommentOnly = false := by
    simpa [ScannedLine.isCodeLine] using h
  simp only [rule, hcode, hblank, hcomment, Bool.not_true, Bool.or_false,
    Bool.false_eq_true, if_false]
  exact ⟨rfl, rfl, fun hnearest => if_pos hnearest⟩

/-- What the rule tells apart. -/
theorem line_cases (l : ScannedLine) :
    (l.startsInCode = false ∨ l.isCommentOnly = true) ∨ (l.startsInCode = true ∧ l.isBlank = true) ∨
      l.isCodeLine = true := by
  cases hstart : l.startsInCode <;> cases hblank : l.isBlank <;>
    cases hcomment : l.isCommentOnly <;>
    simp [ScannedLine.isCodeLine, hstart, hblank, hcomment]

/-- Levels move lines by their indentation only. -/
theorem reindents (style : Style) : Reindents (rule style) := by
  intro s mode raw
  rcases line_cases (scanLine mode raw) with hkept | ⟨hstart, hblank⟩ | hline
  · refine ⟨raw, ?_, .refl _⟩
    rw [rule_kept style s hkept]
    rfl
  · obtain rfl : mode = .code := of_decide_eq_true hstart
    refine ⟨[], ?_, ScannedLine.reindented_nil (by decide) hblank⟩
    rw [rule_blank style s hstart hblank]
    rfl
  · obtain rfl := mode_of_isCodeLine hline
    exact ⟨_, (rule_code style s hline).2.1, ScannedLine.reindented_place (by decide) style _ raw⟩

end Levels

/-- Scopes move lines by their indentation only. -/
theorem Scopes.reindents (style : Style) : Reindents (rule style) := by
  intro s mode raw
  rcases rule_cases style s (scanLine mode raw)
    with hrule | ⟨hcode, -, -, column, -, -, hlines | hlines⟩
  · refine ⟨raw, ?_, .refl _⟩
    rw [hrule]
    rfl
  · exact ⟨raw, hlines, .refl _⟩
  · refine ⟨_, hlines, ScannedLine.reindented_place ?_ style column raw⟩
    rw [mode_of_isCodeLine hcode]
    decide

namespace Margin

/-- A line without the margin is the line in another column. -/
theorem reindented_strip {margin : List Char} (hmargin : ∀ c ∈ margin, isIndent c = true)
    {l : ScannedLine} (hl : l = scanLine l.startsIn l.raw) :
    l.Reindented (scanLine l.startsIn (strip margin l)) := by
  by_cases hlong : l.startsIn = .longString
  · have hstays : strip margin l = l.raw := by
      rw [strip, if_neg]
      simp [isMovable, hlong]
    rw [hstays, ← hl]
    exact .refl l
  · obtain ⟨front, hraw, hfront⟩ := strip_append hmargin l
    have hmoved :=
      ScannedLine.reindented_append hlong hfront (List.forall_mem_nil _) (strip margin l)
    rwa [hraw, ← hl] at hmoved

/-- Taking the margin away moves lines by their indentation only. -/
theorem forall₂_remove (text : List Char) :
    List.Forall₂ ScannedLine.Reindented (scan text) (scan (remove text).text) := by
  rcases remove_cases text with hsame | ⟨margin, hmargin, hstripped⟩
  · rw [hsame]
    exact List.forall₂_same.mpr fun l _ => .refl l
  · have hscan : scan (remove text).text = (scan text).map fun l =>
        scanLine l.startsIn (strip margin l) := by
      rw [hstripped, scan, lines_unlines_map_scan fun l hl => newline_notMem_strip hmargin hl]
      exact scanFrom_map (endsIn_strip hmargin) .code (lines text)
    rw [hscan, List.forall₂_map_right_iff, List.forall₂_same]
    exact fun l hl => reindented_strip hmargin (mem_scan hl).1

end Margin

/-- Removing the margin, giving levels and aligning bindings move lines and do nothing else to them:
line by line the text is read as before, and all but the blanks in front stays. -/
theorem moving_keeps_lines (style : Style) (text : List Char) :
    List.Forall₂ ScannedLine.Reindented (scan text) (scan (Margin.remove text).text) ∧
      List.Forall₂ ScannedLine.Reindented (scan text) (scan (Levels.assign style text).text) ∧
      List.Forall₂ ScannedLine.Reindented (scan text) (scan (Scopes.align style text).text) :=
  ⟨Margin.forall₂_remove text,
    (Levels.reindents style).forall₂_scan (Levels.newline_notMem_lines style .initial text),
    (Scopes.reindents style).forall₂_scan (Scopes.newline_notMem_lines style .initial text)⟩

end ScratchFormat
