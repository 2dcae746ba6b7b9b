import Mathlib.Logic.Function.Iterate
import ScratchFormat.Format.Bounded
import ScratchFormat.Proofs.Bytewise.Gaps
import ScratchFormat.Proofs.Bytewise.Layout
import ScratchFormat.Proofs.Bytewise.Scan

/-! Formatting on the machine: every stage scans its text byte by byte, cuts lines at byte offsets
and counts in words. For a text of less than two gigabytes nothing of that fails. -/

namespace ScratchFormat

namespace Bytewise

namespace Margin

open ScratchFormat.Margin (commonFront commonFront_prefix_both shared isMovable firstCode? strip)

def indentOf? (raw : List Char) : Option (List Char) := do slice? raw 0 (← Chains.indent? raw)

def commonBytes (as bs : List Char) : Nat :=
  (((Utf8.encode as).zip (Utf8.encode bs)).takeWhile fun p => p.1 == p.2).length

def sharedFrom? (front : List Char) : List (List Char) → Option (List Char)
  | [] => some front
  | l :: ls => do
    let indent ← indentOf? l
    sharedFrom? (← slice? front 0 (commonBytes front indent)) ls

def shared? : List (List Char) → Option (List Char)
  | [] => some []
  | l :: ls => do sharedFrom? (← indentOf? l) ls

def remove? (text : List Char) : Option (List Char) := do
  let ls ← scan? text
  let margin ← shared? ((ls.filter fun l => isMovable l && !isBlankText l.raw).map (·.raw))
  if margin.isEmpty then return text
  else
    match firstCode? ls with
    | none => return text
    | some first =>
      return if isTopLevelHead (trimStart first.raw) then unlines (ls.map (strip margin)) else text

theorem indentOf?_eq (raw : List Char) : indentOf? raw = some (raw.takeWhile isIndent) := by
  rw [indentOf?, Chains.indent?_eq, Option.bind_eq_bind, Option.bind_some, slice?_takeWhile]

theorem isAscii_of_isIndent {c : Char} (h : isIndent c = true) : isAscii c = true := by
  simp only [isIndent, Bool.or_eq_true, beq_iff_eq] at h
  rcases h with rfl | rfl <;> rfl

/-- Blanks take one byte each, so indentations agree on as many bytes as characters. -/
theorem commonBytes_eq {as bs : List Char} (ha : ∀ c ∈ as, isIndent c = true)
    (hb : ∀ c ∈ bs, isIndent c = true) : commonBytes as bs = byteLength (commonFront as bs) := by
  induction as generalizing bs with
  | nil => rfl
  | cons a as ih =>
    cases bs with
    | nil =>
      rw [commonBytes, Utf8.encode_nil, List.zip_nil_right]
      rfl
    | cons b bs =>
      have ha' := isAscii_of_isIndent (ha a List.mem_cons_self)
      have hb' := isAscii_of_isIndent (hb b List.mem_cons_self)
      have hsame : (UInt8.ofNat a.toNat == UInt8.ofNat b.toNat) = decide (a = b) := by
        rw [Bool.eq_iff_iff, beq_iff_eq, decide_eq_true_iff, ← UInt8.toNat_inj,
          Utf8.toNat_ascii ha', Utf8.toNat_ascii hb', Char.toNat_inj]
      have hlater := ih (fun c hc => ha c (List.mem_cons_of_mem a hc)) fun c hc =>
        hb c (List.mem_cons_of_mem b hc)
      rw [commonBytes] at hlater
      rw [commonBytes, Utf8.encode_cons, Utf8.encode_cons, Utf8.encodeChar_ascii ha',
        Utf8.encodeChar_ascii hb', List.singleton_append, List.singleton_append, List.zip_cons_cons,
        List.takeWhile_cons, hsame, commonFront]
      by_cases hab : a = b
      · simp only [hab, decide_true, if_true, List.length_cons, byteLength_cons, hlater,
          Utf8.utf8Size_ascii hb']
        exact Nat.add_comm _ _
      · simp [hab]

/-- The front that lines share is found in bytes as it is in characters. -/
theorem sharedFrom?_eq {front : List Char} (hfront : ∀ c ∈ front, isIndent c = true)
    (ls : List (List Char)) :
    sharedFrom? front ls =
      some (ls.foldl (fun front l => commonFront front (l.takeWhile isIndent)) front) := by
  induction ls generalizing front with
  | nil => rfl
  | cons l ls ih =>
    have hcommon :=
      commonBytes_eq hfront (List.all_eq_true.mp (List.all_takeWhile (p := isIndent) (l := l)))
    have hpre := (commonFront_prefix_both front (l.takeWhile isIndent)).1
    have hslice : slice? front 0 (byteLength (commonFront front (l.takeWhile isIndent))) =
        some (commonFront front (l.takeWhile isIndent)) := by
      obtain ⟨rest, hrest⟩ := hpre
      have h := slice?_front (commonFront front (l.takeWhile isIndent)) rest
      rwa [hrest] at h
    rw [sharedFrom?, indentOf?_eq, Option.bind_eq_bind, Option.bind_some, hcommon, hslice,
      Option.bind_some, ih fun c hc => hfront c (hpre.subset hc), List.foldl_cons]

theorem shared?_eq (ls : List (List Char)) : shared? ls = some (shared ls) := by
  cases ls with
  | nil => rfl
  | cons l ls =>
    rw [shared?, indentOf?_eq, Option.bind_eq_bind, Option.bind_some,
      sharedFrom?_eq (List.all_eq_true.mp List.all_takeWhile), shared]

/-- The margin is taken away in bytes as it is in characters. -/
theorem remove?_eq {text : List Char} (hscan : scan? text = some (scan text)) :
    remove? text = some (ScratchFormat.Margin.remove text).text := by
  rw [remove?, hscan, ScratchFormat.Margin.remove, ScratchFormat.Margin.ofLines]
  simp only [Option.bind_eq_bind, Option.bind_some, shared?_eq]
  split
  · rfl
  cases firstCode? (scan text) with
  | none => rfl
  | some first =>
    simp only
    split <;> rfl

end Margin

def Paragraphs.rule? (s : Paragraphs) (l : ScannedLine) : Option (Paragraphs × List (List Char)) :=
  if !l.startsInCode || l.isBlank then
    some ((ScratchFormat.Paragraphs.rule s l).1, (ScratchFormat.Paragraphs.rule s l).2.lines)
  else (roleOf? l.codeText).map fun _ =>
    ((ScratchFormat.Paragraphs.rule s l).1, (ScratchFormat.Paragraphs.rule s l).2.lines)

theorem Paragraphs.rule?_eq (s : Paragraphs) {mode : Mode} {raw : List Char}
    (hroom : 2 * byteLength raw < wordSize) :
    Paragraphs.rule? s (scanLine mode raw) =
      some ((ScratchFormat.Paragraphs.rule s (scanLine mode raw)).1,
        (ScratchFormat.Paragraphs.rule s (scanLine mode raw)).2.lines) := by
  rw [Paragraphs.rule?, roleOf?_eq (Nat.lt_of_le_of_lt (byteLength_codeText_le mode raw) hroom),
    Option.map_some, ite_self]

def stage? (style : Style) (text : List Char) : Stage → Option (List Char)
  | .margin => Margin.remove? text
  | .gaps => do return unlines (← (← scan? text).mapM Gaps.line?)
  | .levels => do return unlines (← walk? (Levels.rule? style) .initial (← scan? text))
  | .scopes => do return unlines (← walk? (Scopes.rule? style) .initial (← scan? text))
  | .chains =>
    do return unlines (← walk? (Chains.rule? style (← style.colsOf? 1)) .initial (← scan? text))
  | .paragraphs => do return unlines (← walk? Paragraphs.rule? .initial (← scan? text))
  | .endings => do
    match Endings.dropEmptyEnd ((← scan? text).map Endings.line) with
    | [] => return []
    | ls => return unlines ls ++ ['\n']

def pass? (style : Style) (text : List Char) : Option (List Char) :=
  Stage.all.foldlM (stage? style) text

def settle? (style : Style) (text : List Char) : Nat → Option (List Char)
  | 0 => some text
  | left + 1 => do
    let next ← pass? style text
    if next = text then return text else settle? style next left

/-- Formats a text. -/
def format? (style : Style) (text : List Char) : Option (List Char) :=
  let text := joinLineEnds text
  if isBlankText text then some []
  else do settle? style (← pass? style text) (maxPasses - 1)

theorem mapM_eq_some {α β : Type} {f? : α → Option β} {f : α → β} {as : List α}
    (h : ∀ a ∈ as, f? a = some (f a)) : as.mapM f? = some (as.map f) := by
  induction as with
  | nil => rfl
  | cons a as ih =>
    rw [List.mapM_cons, h a List.mem_cons_self, ih fun b hb => h b (List.mem_cons_of_mem a hb)]
    rfl

/-- A text with room to spare: its lines are not too wide for the words that count their columns,
and its comments do not nest too deep. -/
structure Fitting (style : Style) (room : Nat) (text : List Char) : Prop where
  unit_le : style.unit ≤ 8
  within : style.Within room text
  room_lt : 4 * room + 64 < wordSize / 2
  depth_lt : (solid text).length < 4294967296

namespace Fitting

variable {style : Style} {room : Nat} {text : List Char}

/-- Every line is the scan of its own characters, which take little room. -/
theorem line (h : Fitting style room text) {l : ScannedLine} (hl : l ∈ scan text) :
    l = scanLine l.startsIn l.raw ∧ style.extent l.raw ≤ room ∧ byteLength l.raw ≤ room := by
  obtain ⟨hscan, hmem⟩ := mem_scan hl
  exact ⟨hscan, h.within _ hmem, Nat.le_trans (style.byteLength_le_extent _) (h.within _ hmem)⟩

theorem scan?_text (h : Fitting style room text) : scan? text = some (scan text) := by
  refine scan?_eq (fun l hl => ?_) h.depth_lt
  have hbytes := style.byteLength_le_extent l
  have hle := h.within l hl
  have hroom := h.room_lt
  omega

/-- The gaps of a fitting text are set in bytes as they are in characters. -/
theorem gaps (h : Fitting style room text) :
    stage? style text .gaps = some (ScratchFormat.Gaps.set text) := by
  have hmap : (scan text).mapM Gaps.line? = some ((scan text).map ScratchFormat.Gaps.line) := by
    apply mapM_eq_some
    intro l hl
    obtain ⟨hscan, -, hbytes⟩ := h.line hl
    have hroom := h.room_lt
    rw [hscan]
    exact Gaps.line?_eq l.startsIn l.raw (by omega)
  simp only [stage?, h.scan?_text, Option.bind_eq_bind, Option.bind_some, hmap]
  rfl

/-- The levels of a fitting text are found in words, and no count overflows. -/
theorem levels (h : Fitting style room text) :
    stage? style text .levels = some (ScratchFormat.Levels.assign style text).text ∧
      ScratchFormat.Levels.overflow? style text = none := by
  have hfits : ∀ l ∈ scan text, 4 * style.extent l.raw + 64 < wordSize / 2 := by
    intro l hl
    have hle := (h.line hl).2.1
    have hroom := h.room_lt
    omega
  have hwalk : walk? (Levels.rule? style) .initial (scan text) =
      some (walk (ScratchFormat.Levels.rule style) .initial (scan text)).lines := by
    -- levels are told from the line alone, so the state needs no invariant
    refine walk?_eq (fun _ => True) (fun s l hl _ => ⟨?_, trivial⟩) trivial
    rw [(h.line hl).1]
    exact Levels.rule?_eq s h.unit_le (hfits l hl)
  constructor
  · simp only [stage?, h.scan?_text, Option.bind_eq_bind, Option.bind_some, hwalk]
    rfl
  · exact walkOverflow?_eq (fun _ => True)
      (fun s l hl _ => ⟨Levels.lineOverflow?_eq s l h.unit_le (hfits l hl), trivial⟩) trivial

/-- The scopes of a fitting text are found in words, and no count overflows. -/
theorem scopes (h : Fitting style room text) :
    stage? style text .scopes = some (ScratchFormat.Scopes.align style text).text ∧
      ScratchFormat.Scopes.overflow? style text = none := by
  have hstep : ∀ s, ∀ l ∈ scan text, s.Within room →
      (ScratchFormat.Scopes.rule style s l).1.Within room :=
    fun s l hl hs => (ScratchFormat.Scopes.within_rule hs (h.line hl).2.1).1
  have hinitial : ScratchFormat.Scopes.Within room .initial := ScratchFormat.Scopes.keeps_initial _
  have hwalk : walk? (Scopes.rule? style) .initial (scan text) =
      some (walk (ScratchFormat.Scopes.rule style) .initial (scan text)).lines := by
    refine walk?_eq (ScratchFormat.Scopes.Within room)
      (fun s l hl hs => ⟨?_, hstep s l hl hs⟩) hinitial
    rw [(h.line hl).1]
    exact Scopes.rule?_eq hs h.unit_le (h.line hl).2.1 h.room_lt
  constructor
  · simp only [stage?, h.scan?_text, Option.bind_eq_bind, Option.bind_some, hwalk]
    rfl
  · exact walkOverflow?_eq (ScratchFormat.Scopes.Within room) (fun s l hl hs =>
      ⟨Scopes.lineOverflow?_eq hs l h.unit_le (h.line hl).2.1 h.room_lt, hstep s l hl hs⟩) hinitial

/-- The chains of a fitting text are laid out in words, and no count overflows. -/
theorem chains (h : Fitting style room text) :
    stage? style text .chains = some (ScratchFormat.Chains.layOut style text).text ∧
      ScratchFormat.Chains.overflow? style text = none := by
  have hstep : ∀ s, ∀ l ∈ scan text, s.Within style room →
      (ScratchFormat.Chains.rule style s l).1.Within style room :=
    fun s l hl hs =>
      (ScratchFormat.Chains.within_rule hs (raw_eq_flatMap_text hl) (h.line hl).2.1).1
  have hinitial := ScratchFormat.Chains.within_initial style room
  have hwalk : walk? (Chains.rule? style (style.colsOf 1)) .initial (scan text) =
      some (walk (ScratchFormat.Chains.rule style) .initial (scan text)).lines := by
    refine walk?_eq (ScratchFormat.Chains.Within style room)
      (fun s l hl hs => ⟨?_, hstep s l hl hs⟩) hinitial
    rw [(h.line hl).1]
    exact Chains.rule?_eq hs h.unit_le (h.line hl).2.1 h.room_lt
  have hlevel : style.colsOf? 1 = some (style.colsOf 1) := by
    have hone : style.colsOf 1 = style.unit := Nat.one_mul _
    have hunit := h.unit_le
    have hroom := h.room_lt
    exact colsOf?_eq (by omega)
  constructor
  · simp only [stage?, h.scan?_text, hlevel, Option.bind_eq_bind, Option.bind_some, hwalk]
    rfl
  · exact walkOverflow?_eq (ScratchFormat.Chains.Within style room) (fun s l hl hs =>
      ⟨Chains.lineOverflow?_eq hs l h.unit_le (h.line hl).2.1 h.room_lt, hstep s l hl hs⟩) hinitial

/-- The paragraphs of a fitting text are set apart in bytes as they are in characters. -/
theorem paragraphs (h : Fitting style room text) :
    stage? style text .paragraphs = some (ScratchFormat.Paragraphs.separate text) := by
  have hwalk : walk? Paragraphs.rule? .initial (scan text) =
      some (walk ScratchFormat.Paragraphs.rule .initial (scan text)).lines := by
    refine walk?_eq (fun _ => True) (fun s l hl _ => ⟨?_, trivial⟩) trivial
    obtain ⟨hscan, -, hbytes⟩ := h.line hl
    have hroom := h.room_lt
    rw [hscan]
    exact Paragraphs.rule?_eq s (by omega)
  simp only [stage?, h.scan?_text, Option.bind_eq_bind, Option.bind_some, hwalk]
  rfl

/-- A stage does on the machine what it does without bounds. -/
theorem stage (h : Fitting style room text) (stage : Stage) :
    stage? style text stage = some (stage.run style text).text ∧
      stage.overflow? style text = none := by
  cases stage with
  | margin => exact ⟨Margin.remove?_eq h.scan?_text, rfl⟩
  | gaps => exact ⟨h.gaps, rfl⟩
  | levels => exact h.levels
  | scopes => exact h.scopes
  | chains => exact h.chains
  | paragraphs => exact ⟨h.paragraphs, rfl⟩
  | endings =>
    refine ⟨?_, rfl⟩
    simp only [stage?, h.scan?_text, Option.bind_eq_bind, Option.bind_some, Stage.run, Endings.trim]
    cases Endings.dropEmptyEnd ((scan text).map Endings.line) <;> rfl

end Fitting

section Passes

variable {style : Style} {room : Nat} {text : List Char}

def roomAfter (style : Style) (room : Nat) (stages : List Stage) : Nat :=
  stages.foldl (fun room stage => stage.room style room) room

theorem le_roomAfter (style : Style) (room : Nat) (stages : List Stage) :
    room ≤ roomAfter style room stages := by
  induction stages generalizing room with
  | nil => exact Nat.le_refl _
  | cons stage stages ih =>
    have hstage : room ≤ stage.room style room := by
      cases stage <;> simp only [Stage.room] <;> omega
    exact Nat.le_trans hstage (ih _)

/-- With room for all of them, stages that count in words do what they do without a bound. -/
theorem stages?_eq (hunit : style.unit ≤ 8) (hwithin : style.Within room text) (stages : List Stage)
    (hroom : 4 * roomAfter style room stages + 64 < wordSize / 2)
    (hdepth : (solid text).length < 4294967296) :
    stages.foldlM (stage? style) text = some (runStages style text stages).text ∧
      stagesBounded style text stages = .ok (runStages style text stages).text ∧
      style.Within (roomAfter style room stages) (runStages style text stages).text := by
  induction stages generalizing room text with
  | nil => exact ⟨rfl, rfl, hwithin⟩
  | cons stage stages ih =>
    have hle := le_roomAfter style room (stage :: stages)
    obtain ⟨hstage, hover⟩ := Fitting.stage ⟨hunit, hwithin, by omega, hdepth⟩ stage
    obtain ⟨hlater, hbounded, hroomy⟩ :=
      ih (within_stage hwithin stage) hroom (by rwa [solid_stage])
    refine ⟨?_, ?_, hroomy⟩
    · rw [List.foldlM_cons, hstage]
      exact hlater
    · rw [stagesBounded, Stage.runBounded, hover]
      exact hbounded

def passRoom (room : Nat) : Nat := 12 * room + 34

theorem le_passRoom (n room : Nat) : room ≤ passRoom^[n] room := by
  induction n generalizing room with
  | zero => exact Nat.le_refl _
  | succ n ih =>
    have h := ih (passRoom room)
    rw [Function.iterate_succ_apply]
    unfold passRoom at h ⊢
    omega

/-- With room for it, a pass that counts in words does what it does without a bound. -/
theorem pass?_eq (hunit : style.unit ≤ 8) (hwithin : style.Within room text)
    (hroom : 4 * passRoom room + 64 < wordSize / 2) (hdepth : (solid text).length < 4294967296) :
    pass? style text = some (pass style text).text ∧
      stagesBounded style text Stage.all = .ok (pass style text).text ∧
      style.Within (passRoom room) (pass style text).text := by
  have hle : roomAfter style room Stage.all ≤ passRoom room := by
    simp only [roomAfter, Stage.all, List.foldl_cons, List.foldl_nil, Stage.room, passRoom]
    omega
  obtain ⟨hpass, hbounded, hroomy⟩ := stages?_eq hunit hwithin Stage.all (by omega) hdepth
  exact ⟨hpass, hbounded, hroomy.mono hle⟩

/-- With room for all of them, the passes that count in words make the text that unbounded ones
make. -/
theorem settle?_eq (hunit : style.unit ≤ 8) (hwithin : style.Within room text) (done left : Nat)
    (hroom : 4 * passRoom^[left] room + 64 < wordSize / 2)
    (hdepth : (solid text).length < 4294967296) :
    settle? style text left = some (settle style done text left).text ∧
      passesOverflow? style text left = none := by
  induction left generalizing room text done with
  | zero => exact ⟨rfl, rfl⟩
  | succ left ih =>
    rw [Function.iterate_succ_apply] at hroom
    have hle := le_passRoom left (passRoom room)
    obtain ⟨hpass, hbounded, hroomy⟩ := pass?_eq hunit hwithin (by omega) hdepth
    have hlater := ih hroomy (done + 1) hroom (by rwa [solid_pass])
    rw [settle?, hpass, settle, passesOverflow?, hbounded, Option.bind_eq_bind, Option.bind_some]
    by_cases hsame : (pass style text).text = text
    · simp [hsame]
    · simpa [hsame] using hlater

end Passes

/-- A text of less than two gigabytes is formatted on the machine with any number of columns per
level: no cut fails, no count overflows, and the result is the format of the text. -/
theorem format_never_fails (indentUnit : Nat) (useSpaces : Bool) (text : List Char)
    (h : byteLength text < 2147483648) :
    format? (.clamped indentUnit useSpaces) text =
        some (format (.clamped indentUnit useSpaces) text) ∧
      formatBounded (.clamped indentUnit useSpaces) text =
        .ok (formatNoted (.clamped indentUnit useSpaces) text) := by
  have hunit : (Style.clamped indentUnit useSpaces).unit ≤ 8 := by
    simp only [Style.unit, Style.clamped, Style.minUnit, Style.maxUnit]
    omega
  generalize Style.clamped indentUnit useSpaces = style at hunit
  have hwithin : style.Within 17179869184 (joinLineEnds text) := by
    refine (within_joinLineEnds style text).mono ?_
    calc style.unit * byteLength text ≤ 8 * byteLength text := Nat.mul_le_mul_right _ hunit
      _ ≤ 17179869184 := by omega
  have hdepth : (solid (joinLineEnds text)).length < 4294967296 := by
    have hsolid : (solid text).length ≤ text.length := List.length_filter_le _ _
    have hlen := length_le_byteLength text
    rw [solid_joinLineEnds]
    omega
  have hlast : 4 * passRoom^[maxPasses] 17179869184 + 64 < wordSize / 2 := by decide
  obtain ⟨hpass, -, hroomy⟩ := pass?_eq hunit hwithin (by decide) hdepth
  obtain ⟨hsettle, -⟩ := settle?_eq hunit hroomy 1 (maxPasses - 1) hlast (by rwa [solid_pass])
  obtain ⟨-, hover⟩ := settle?_eq hunit hwithin 0 maxPasses hlast hdepth
  constructor
  · by_cases hblank : isBlankText (joinLineEnds text) = true
    · simp only [format?, format, formatNoted, hblank, if_true]
    · simp only [format?, format, formatNoted, hblank, Bool.false_eq_true, if_false, hpass,
        Option.bind_eq_bind, Option.bind_some, hsettle]
  · simp only [formatBounded, formatOverflow?, hover, ite_self, unlessOverflow]

theorem format_never_fails_escape :
    byteLength "x = \"é\\é|>f|>g".toList < 2147483648 ∧
      format? (.clamped 4 false) "x = \"é\\é|>f|>g".toList =
          some (format (.clamped 4 false) "x = \"é\\é|>f|>g".toList) ∧
        formatBounded (.clamped 4 false) "x = \"é\\é|>f|>g".toList =
          .ok (formatNoted (.clamped 4 false) "x = \"é\\é|>f|>g".toList) :=
  ⟨by decide, format_never_fails 4 false "x = \"é\\é|>f|>g".toList (by decide)⟩

end Bytewise

end ScratchFormat
