import ScratchFormat.Layout.Bounded
import ScratchFormat.Proofs.Bytewise.Line
import ScratchFormat.Proofs.Extent

/-! The layout rules in words: columns are counted with checked sums, and lines are cut at byte
offsets. As long as no line is too wide for that, every rule lays out a line as it does without
bounds. -/

namespace ScratchFormat

namespace Bytewise

def walk? {σ : Type} (rule? : σ → ScannedLine → Option (σ × List (List Char))) (s : σ) :
    List ScannedLine → Option (List (List Char))
  | [] => some []
  | l :: ls => do
    let r ← rule? s l
    return r.2 ++ (← walk? rule? r.1 ls)

/-- A walk whose steps are the same in words, as long as an invariant holds, is the same. -/
theorem walk?_eq {σ : Type} {rule? : σ → ScannedLine → Option (σ × List (List Char))}
    {rule : σ → ScannedLine → σ × Output} (inv : σ → Prop) {ls : List ScannedLine}
    (h : ∀ s, ∀ l ∈ ls, inv s → rule? s l = some ((rule s l).1, (rule s l).2.lines) ∧
      inv (rule s l).1)
    {s : σ} (hs : inv s) : walk? rule? s ls = some (walk rule s ls).lines := by
  induction ls generalizing s with
  | nil => rfl
  | cons l ls ih =>
    obtain ⟨hrule, hinv⟩ := h s l List.mem_cons_self hs
    have hlater := ih (fun s m hm => h s m (List.mem_cons_of_mem l hm)) hinv
    rw [walk?, hrule]
    simp only [Option.bind_eq_bind, Option.bind_some, hlater]
    rfl

def measureFrom? (style : Style) (line : List Char) (cols place : Nat) :
    List Char → Option (Nat × List Char)
  | [] => some (cols, [])
  | c :: cs => do
    if c = ' ' then measureFrom? style line (← add? cols 1) (place + c.utf8Size) cs
    else if c = '\t' then measureFrom? style line (← add? cols style.unit) (place + c.utf8Size) cs
    else return (cols, ← sliceFrom? line place)

def measure? (style : Style) (line : List Char) : Option (Nat × List Char) :=
  measureFrom? style line 0 0 line

/-- Indentation is measured in a word if it leaves room. -/
theorem measureFrom?_eq (style : Style) {line : List Char} (front rest : List Char) (cols : Nat)
    (hline : line = front ++ rest) (hroom : cols + style.extent rest < wordSize) :
    measureFrom? style line cols (byteLength front) rest =
      some (cols + style.columns rest, rest.dropWhile isIndent) := by
  induction rest generalizing front cols with
  | nil => rfl
  | cons c rest ih =>
    have hsplit : line = front ++ [c] ++ rest := by
      rw [hline, List.append_assoc, List.singleton_append]
    have hplace : byteLength (front ++ [c]) = byteLength front + c.utf8Size := by
      rw [byteLength_append]
      rfl
    rw [Style.extent_cons] at hroom
    -- a blank or a tab adds its width
    have hstep : ∀ width, isIndent c = true → style.width c = width →
        cols + width + style.extent rest < wordSize →
        measureFrom? style line (cols + width) (byteLength front + c.utf8Size) rest =
          some (cols + style.columns (c :: rest), (c :: rest).dropWhile isIndent) := by
      intro width hblank hwidth hroom
      have hcolumns : style.columns (c :: rest) = width + style.columns rest := by
        rw [Style.columns, List.takeWhile_cons_of_pos hblank, List.foldr_cons, hwidth]
        rfl
      have hlater := ih (front ++ [c]) (cols + width) hsplit hroom
      rw [hplace] at hlater
      rw [hlater, hcolumns, List.dropWhile_cons_of_pos hblank, Nat.add_assoc]
    rw [measureFrom?]
    split
    · rename_i hc
      subst hc
      have hwidth : style.extent [' '] = 1 := rfl
      rw [add?_eq (by omega)]
      exact hstep 1 rfl rfl (by omega)
    split
    · rename_i hc
      subst hc
      have hwidth : style.extent ['\t'] = style.unit := rfl
      rw [add?_eq (by omega)]
      exact hstep style.unit rfl rfl (by omega)
    · rename_i hblank htab
      have hstop : isIndent c = false := by simp [isIndent, hblank, htab]
      rw [hline, sliceFrom?_append, Style.columns, List.takeWhile_cons_of_neg (by simp [hstop]),
        List.dropWhile_cons_of_neg (by simp [hstop])]
      rfl

theorem measure?_eq {style : Style} {line : List Char} (hroom : style.extent line < wordSize) :
    measure? style line = some (style.measure line) := by
  have h := measureFrom?_eq style [] line 0 rfl (by omega)
  rwa [Nat.zero_add] at h

theorem levelOf?_eq {style : Style} {cols : Nat} (hroom : cols + style.unit / 2 < wordSize) :
    style.levelOf? cols = some (style.levelOf cols) := by
  rw [Style.levelOf?, fits?, if_pos hroom]
  rfl

theorem colsOf?_eq {style : Style} {level : Nat} (hroom : style.colsOf level < wordSize) :
    style.colsOf? level = some (style.colsOf level) := if_pos hroom

theorem longestRun_le (style : Style) (cols : Nat) : style.longestRun cols ≤ cols := by
  unfold Style.longestRun
  split
  · exact Nat.le_refl _
  · exact Nat.max_le.mpr ⟨Nat.div_le_self _ _, Nat.mod_le _ _⟩

theorem place?_eq {style : Style} {cols : Nat} (hroom : cols < wordSize / 2) (rest : List Char) :
    style.place? cols rest = some (style.place cols rest) := by
  rw [Style.place?, Style.render?, if_pos (Nat.lt_of_le_of_lt (longestRun_le style cols) hroom)]
  rfl

theorem countOverflow?_eq {n : Nat} (h : n < wordSize) : countOverflow? n = none := if_pos h

theorem columnOverflow?_eq {style : Style} {cols : Nat} (hroom : cols < wordSize / 2) :
    style.columnOverflow? cols = none := by
  rw [Style.columnOverflow?, countOverflow?_eq (by omega),
    if_pos (Nat.lt_of_le_of_lt (longestRun_le style cols) hroom)]
  rfl

/-- A walk whose steps do not overflow, as long as an invariant holds, does not overflow. -/
theorem walkOverflow?_eq {σ : Type} {rule : σ → ScannedLine → σ × Output}
    {overflow? : σ → ScannedLine → Option Overflow} (inv : σ → Prop) {ls : List ScannedLine}
    (h : ∀ s, ∀ l ∈ ls, inv s → overflow? s l = none ∧ inv (rule s l).1) {s : σ} (hs : inv s) :
    walkOverflow? rule overflow? s ls = none := by
  induction ls generalizing s with
  | nil => rfl
  | cons l ls ih =>
    obtain ⟨hfirst, hinv⟩ := h s l List.mem_cons_self hs
    rw [walkOverflow?, hfirst, ih (fun s m hm => h s m (List.mem_cons_of_mem l hm)) hinv]
    rfl

/-- The code of a line, with two quotes for each literal, fits a word where the line leaves some
room. -/
theorem byteLength_trim_codeText_lt (style : Style) (mode : Mode) (raw : List Char)
    (hroom : 2 * style.extent raw < wordSize) :
    byteLength (trim (scanLine mode raw).codeText) < wordSize :=
  calc byteLength (trim (scanLine mode raw).codeText)
    _ ≤ byteLength (scanLine mode raw).codeText := byteLength_trim_le _
    _ ≤ 2 * byteLength raw := byteLength_codeText_le mode raw
    _ ≤ 2 * style.extent raw := Nat.mul_le_mul_left 2 (style.byteLength_le_extent raw)
    _ < wordSize := hroom

namespace Levels

def belongsAtZero? (s : Levels) (role : Role) (code : List Char) : Option Bool :=
  if s.signature.any role.defines then some true
  else if !role.isTopLevel || s.inBlock then some false
  else if s.inCases then (arm? code).map not
  else some true

def level? (s : Levels) (role : Role) (code : List Char) (nearest : Nat) : Option Nat :=
  if 0 < nearest then (belongsAtZero? s role code).map fun atZero => if atZero then 0 else nearest
  else some nearest

def rule? (style : Style) (s : Levels) (l : ScannedLine) : Option (Levels × List (List Char)) :=
  if !l.startsInCode || l.isCommentOnly then some (s, [l.raw])
  else if l.isBlank then some (s, [[]])
  else do
    let code := trim l.codeText
    let (cols, rest) ← measure? style l.raw
    let nearest ← style.levelOf? cols
    let role ← roleOf? code
    let level ← level? s role code nearest
    return (s.after role code level, [← style.place? (← style.colsOf? level) rest])

theorem belongsAtZero?_eq (s : Levels) (role : Role) {code : List Char}
    (hroom : byteLength code < wordSize) :
    belongsAtZero? s role code = some (s.belongsAtZero role code) := by
  unfold belongsAtZero? ScratchFormat.Levels.belongsAtZero
  rw [arm?_eq hroom]
  cases s.signature.any role.defines <;> cases role.isTopLevel <;> cases s.inBlock <;>
    cases s.inCases <;> cases isArm code <;> rfl

theorem level?_eq (s : Levels) (role : Role) {code : List Char} (nearest : Nat)
    (hroom : byteLength code < wordSize) :
    level? s role code nearest = some (s.level role code nearest) := by
  unfold level? ScratchFormat.Levels.level
  rw [belongsAtZero?_eq s role hroom]
  by_cases hpos : 0 < nearest
  · simp [hpos]
  · simp [hpos]

/-- A line is put on its level in words as it is without a bound. -/
theorem rule?_eq {style : Style} (s : Levels) {mode : Mode} {raw : List Char}
    (hunit : style.unit ≤ 8) (hroom : 4 * style.extent raw + 64 < wordSize / 2) :
    rule? style s (scanLine mode raw) =
      some ((ScratchFormat.Levels.rule style s (scanLine mode raw)).1,
        (ScratchFormat.Levels.rule style s (scanLine mode raw)).2.lines) := by
  have hraw : (scanLine mode raw).raw = raw := rfl
  have hcode := byteLength_trim_codeText_lt style mode raw (by omega)
  have hcols := style.extent_eq_columns raw
  unfold rule? ScratchFormat.Levels.rule
  split
  · rfl
  split
  · rfl
  · have hlevel :=
      ScratchFormat.Levels.colsOf_level_le style s (Role.ofCode (trim (scanLine mode raw).codeText))
      (trim (scanLine mode raw).codeText) (style.columns raw)
    rw [hraw, measure?_eq (by omega)]
    simp only [Style.measure, Option.bind_eq_bind, Option.bind_some, roleOf?_eq hcode,
      level?_eq s _ _ hcode, levelOf?_eq (show style.columns raw + style.unit / 2 < wordSize by omega)]
    rw [colsOf?_eq (by omega), Option.bind_some, place?_eq (by omega)]
    rfl

/-- No count of levels overflows on a line that leaves room. -/
theorem lineOverflow?_eq {style : Style} (s : Levels) (l : ScannedLine) (hunit : style.unit ≤ 8)
    (hroom : 4 * style.extent l.raw + 64 < wordSize / 2) :
    ScratchFormat.Levels.lineOverflow? style s l = none := by
  have hcols := style.extent_eq_columns l.raw
  unfold ScratchFormat.Levels.lineOverflow?
  split
  · have hlevel := ScratchFormat.Levels.colsOf_level_le style s (Role.ofCode (trim l.codeText))
      (trim l.codeText) (style.columns l.raw)
    simp only [countOverflow?_eq (show style.columns l.raw + style.unit / 2 < wordSize by omega)]
    exact columnOverflow?_eq (by omega)
  · rfl

end Levels

namespace Scopes

def column? (style : Style) (s : Scopes) (binding : Bool) (cols : Nat) : Option Nat :=
  if binding && cols ≠ 0 then (style.levelOf? cols).map fun _ => s.target style cols else some cols

def rule? (style : Style) (s : Scopes) (l : ScannedLine) : Option (Scopes × List (List Char)) :=
  if !l.isCodeLine then some (s, [l.raw])
  else do
    let code := trim l.codeText
    let (cols, rest) ← measure? style l.raw
    let head ← binding? code
    let column ← column? style s head.isSome cols
    let line ← if column = cols then some l.raw else style.place? column rest
    return (s.after style head.isSome (opensBlock code) cols column, [line])

theorem column?_eq {style : Style} (s : Scopes) (binding : Bool) {cols : Nat}
    (hroom : cols + style.unit / 2 < wordSize) :
    column? style s binding cols = some (s.column style binding cols) := by
  unfold column? ScratchFormat.Scopes.column
  rw [levelOf?_eq hroom]
  split <;> rfl

/-- A line is put under its binding in words as it is without a bound. -/
theorem rule?_eq {style : Style} {room : Nat} {s : Scopes} (hs : s.Within room) {mode : Mode}
    {raw : List Char} (hunit : style.unit ≤ 8) (hle : style.extent raw ≤ room)
    (hroom : 4 * room + 64 < wordSize / 2) :
    rule? style s (scanLine mode raw) =
      some ((ScratchFormat.Scopes.rule style s (scanLine mode raw)).1,
        (ScratchFormat.Scopes.rule style s (scanLine mode raw)).2.lines) := by
  have hraw : (scanLine mode raw).raw = raw := rfl
  have hcode := byteLength_trim_codeText_lt style mode raw (by omega)
  have hcols := style.extent_eq_columns raw
  unfold rule? ScratchFormat.Scopes.rule
  split
  · rfl
  · have hcolumn := hs.column style (bindingHead? (trim (scanLine mode raw).codeText)).isSome
      (show style.columns raw ≤ room by omega)
    rw [hraw, measure?_eq (by omega)]
    simp only [Style.measure, Option.bind_eq_bind, Option.bind_some, binding?_eq hcode,
      column?_eq s _ (show style.columns raw + style.unit / 2 < wordSize by omega)]
    rw [place?_eq (by omega)]
    by_cases hstays : s.column style (bindingHead? (trim (scanLine mode raw).codeText)).isSome
        (style.columns raw) = style.columns raw
    · simp [hstays]
    · simp [hstays]

/-- No column of a scope overflows on a line that leaves room. -/
theorem lineOverflow?_eq {style : Style} {room : Nat} {s : Scopes} (hs : s.Within room)
    (l : ScannedLine) (hunit : style.unit ≤ 8) (hle : style.extent l.raw ≤ room)
    (hroom : 4 * room + 64 < wordSize / 2) :
    ScratchFormat.Scopes.lineOverflow? style s l = none := by
  have hcols := style.extent_eq_columns l.raw
  unfold ScratchFormat.Scopes.lineOverflow?
  split
  · have hcolumn := hs.column style (bindingHead? (trim l.codeText)).isSome
      (show style.columns l.raw ≤ room by omega)
    have hcount : (if (bindingHead? (trim l.codeText)).isSome && style.columns l.raw ≠ 0
        then style.columns l.raw + style.unit / 2 else style.columns l.raw) < wordSize := by
      split <;> omega
    simp only
    rw [countOverflow?_eq hcount, columnOverflow?_eq (by omega)]
    split <;> rfl
  · rfl

end Scopes

namespace Chains

open ScratchFormat.Chains (linkLines continueChain breakChain brokenLinks? startColumn)

def indent? (raw : List Char) : Option Nat :=
  sub? (byteLength raw) (byteLength (raw.dropWhile isIndent))

def linksFrom? (raw : List Char) (start stop : Nat) (pipe : Option Pipe) (cursor : Nat) :
    List (Nat × Pipe) → Option (List Link)
  | [] => (slice? raw cursor stop).map fun text => [⟨pipe, trim text⟩]
  | (offset, next) :: pipes =>
    if offset < start then linksFrom? raw start stop pipe cursor pipes
    else do
      let text := trim (← slice? raw cursor offset)
      let later ← linksFrom? raw start stop (some next) (← add? offset next.text.length) pipes
      return if pipe.isSome || !text.isEmpty then ⟨pipe, text⟩ :: later else later

def split? (l : ScannedLine) (pipes : List (Nat × Pipe)) (start : Nat) : Option (List Link) := do
  let stop ← sub? (byteLength l.raw) (byteLength (l.trailingComment?.getD []))
  linksFrom? l.raw start stop none start pipes

def definition? (l : ScannedLine) (pipes : List (Nat × Pipe)) (indent : Nat) :
    Option (Option Nat) := do
  if (← roleOf? l.codeText).isDefinition then
    match l.segments with
    | [] => return none
    | first :: _ =>
      if first.kind = .code then
        let place ← equals? first.text
        return place.filter fun place => place < pipes.head?.elim (byteLength l.raw) Prod.fst &&
          indent ≤ place
      else return none
  else return none

def linkLines? (style : Style) (cols : Nat) (comment : Option (List Char)) :
    List Link → Option (List (List Char))
  | [] => some []
  | [k] => (style.place? cols (k.render ++ comment.elim [] (' ' :: ·))).map fun line => [line]
  | k :: ks => do return (← style.place? cols k.render) :: (← linkLines? style cols comment ks)

def joinColumn? (s : Chains) (unit cols : Nat) : Option Nat :=
  match s.base, s.previous with
  | some base, _ => some base
  | none, some previous => add? previous unit
  | none, none => some cols

def continueChain? (style : Style) (unit : Nat) (s : Chains) (l : ScannedLine)
    (pipes : List (Nat × Pipe)) (cols : Nat) (rest : List Char) :
    Option (Chains × List (List Char)) := do
  let base ← joinColumn? s unit cols
  if 1 < pipes.length then
    let links ← split? l pipes (← indent? l.raw)
    return (⟨some base, some base⟩, ← linkLines? style base l.trailingComment? links)
  else return (⟨some base, some base⟩, [← style.place? base rest])

def headLine? (style : Style) (unit : Nat) (l : ScannedLine) (indent cols : Nat) :
    Option Nat → Option (List (List Char) × Nat)
  | none => some ([], cols)
  | some place => do
    let head := trim (← slice? l.raw indent place)
    return ([← style.place? cols (head ++ " =".toList)], ← add? cols unit)

def breakChain? (style : Style) (unit : Nat) (l : ScannedLine) (pipes : List (Nat × Pipe))
    (cols : Nat) : Option (Chains × List (List Char)) := do
  let indent ← indent? l.raw
  let head ← definition? l pipes indent
  -- the body begins behind the equals sign, or else behind the indentation
  let start ← head.elim (some indent) (add? · 1)
  let links ← split? l pipes start
  let (headLine, column) ← headLine? style unit l indent cols head
  let base ← add? column unit
  match links with
  | ⟨none, text⟩ :: later =>
    let first ← style.place? column text
    return (⟨some base, some base⟩, headLine ++ first ::
      (← linkLines? style base l.trailingComment? later))
  | _ =>
    return (⟨some base, some base⟩, headLine ++ (← linkLines? style base l.trailingComment? links))

def rule? (style : Style) (unit : Nat) (s : Chains) (l : ScannedLine) :
    Option (Chains × List (List Char)) :=
  if !l.isCodeLine then some (s, [l.raw])
  else do
    let (cols, rest) ← measure? style l.raw
    let pipes ← pipes? l
    if ← startsWithPipe? l then continueChain? style unit s l pipes cols rest
    else if pipes.length < 2 then return (⟨s.base.filter (· < cols), some cols⟩, [l.raw])
    else breakChain? style unit l pipes cols

theorem indent?_eq (raw : List Char) :
    indent? raw = some (byteLength (raw.takeWhile isIndent)) := by
  have hsplit := byteLength_takeWhile_add isIndent raw
  rw [indent?, sub?_eq (by omega)]
  congr 1
  omega

/-- Links are cut at the pipes that do not stand before the start. -/
theorem linksFrom?_eq {raw : List Char} (start stop : Nat) (pipe : Option Pipe) (cursor : Nat)
    {pipes : List (Nat × Pipe)} (hroom : ∀ p ∈ pipes, p.1 + p.2.text.length < wordSize) :
    linksFrom? raw start stop pipe cursor pipes =
      ScratchFormat.Chains.linksFrom? raw pipe cursor stop (pipes.filter fun p => start ≤ p.1) := by
  induction pipes generalizing pipe cursor with
  | nil => rfl
  | cons p pipes ih =>
    obtain ⟨offset, next⟩ := p
    have hfirst := hroom (offset, next) List.mem_cons_self
    have hlater := fun pipe cursor => ih pipe cursor fun q hq => hroom q (List.mem_cons_of_mem _ hq)
    rw [linksFrom?]
    split
    · rename_i hlt
      rw [List.filter_cons_of_neg (by simpa using hlt), hlater]
    · rename_i hlt
      rw [List.filter_cons_of_pos (by simpa using hlt), add?_eq hfirst,
        ScratchFormat.Chains.linksFrom?]
      simp only [Option.bind_eq_bind, Option.bind_some, hlater]

/-- Links are put into their column in words as they are without a bound. -/
theorem linkLines?_eq {style : Style} {cols : Nat} (hroom : cols < wordSize / 2)
    (comment : Option (List Char)) (links : List Link) :
    linkLines? style cols comment links = some (linkLines style cols comment links) := by
  induction links with
  | nil => rfl
  | cons k ks ih =>
    cases ks with
    | nil =>
      rw [linkLines?, linkLines, place?_eq hroom]
      rfl
    | cons k' ks =>
      rw [linkLines?, linkLines, ih, place?_eq hroom]
      · rfl
      · simp
      · simp

/-- The column of a link above is found in words. -/
theorem joinColumn?_eq {style : Style} {room : Nat} {s : Chains}
    (hs : s.Within style room) (cols : Nat) (hroom : room + style.unit < wordSize) :
    joinColumn? s (style.colsOf 1) cols = some (s.joinColumn style cols) := by
  have hone : style.colsOf 1 = style.unit := Nat.one_mul _
  unfold joinColumn? ScratchFormat.Chains.joinColumn
  cases hbase : s.base with
  | some base => rfl
  | none =>
    cases hprevious : s.previous with
    | none => rfl
    | some previous =>
      have hle := hs.previous hbase previous hprevious
      simp only [add?_eq (show previous + style.colsOf 1 < wordSize by omega)]
      rfl

theorem trim_append_indent {indent : List Char} (h : ∀ c ∈ indent, isIndent c = true)
    (cs : List Char) : trim (indent ++ cs) = trim cs := by
  have hstart : trimStart (indent ++ cs) = trimStart cs :=
    List.dropWhile_append_of_pos fun c hc => isSpace_of_isIndent (h c hc)
  rw [trim, hstart, trim]

section Lines

variable {style : Style} {room : Nat} {mode : Mode} {raw : List Char}

/-- A line is split into links in bytes as it is in characters. -/
theorem split?_eq (hroom : byteLength raw + 1 < wordSize) (start : Nat) :
    split? (scanLine mode raw) (scanLine mode raw).pipes start =
      ScratchFormat.Chains.split? (scanLine mode raw) start := by
  have hl := raw_scanLine mode raw
  obtain ⟨body, hbody, halong⟩ := ScannedLine.pipesAlong_body hl
  have hlen := congrArg byteLength hbody
  rw [byteLength_append] at hlen
  have hraw : (scanLine mode raw).raw = raw := rfl
  rw [hraw] at hlen
  rw [split?, hraw, sub?_eq (by omega), Option.bind_eq_bind, Option.bind_some,
    ScratchFormat.Chains.split?, hraw]
  apply linksFrom?_eq
  intro p hp
  have hstop := halong.stop_le p hp
  omega

/-- The head of a definition ends at the byte where its characters end. -/
theorem definition?_eq (hroom : 2 * byteLength raw < wordSize) :
    definition? (scanLine mode raw) (scanLine mode raw).pipes
        (byteLength (raw.takeWhile isIndent)) =
      some ((ScratchFormat.Chains.definition? (scanLine mode raw)).map byteLength) := by
  have hflat := segments_flatMap_text mode raw
  have hrole := roleOf?_eq (Nat.lt_of_le_of_lt (byteLength_codeText_le mode raw) hroom)
  unfold definition? ScratchFormat.Chains.definition?
  rw [hrole, Option.bind_eq_bind, Option.bind_some]
  split
  · cases hss : (scanLine mode raw).segments with
    | nil => rfl
    | cons first later =>
      rw [hss, List.flatMap_cons] at hflat
      have hlen := congrArg byteLength hflat
      rw [byteLength_append] at hlen
      simp only [equals?_eq (show byteLength first.text < wordSize by omega)]
      split
      · cases hhead : definitionHead? first.text with
        | none => rfl
        | some head =>
          obtain ⟨rest, hrest⟩ := eq_append_of_definitionHead? hhead
          have hraw : raw = head ++ '=' :: (rest ++ later.flatMap Segment.text) := by
            rw [← hflat, hrest]
            simp
          have hindent : byteLength (raw.takeWhile isIndent) ≤ byteLength head := by
            obtain ⟨tail, htail⟩ := takeWhile_prefix_of_false (p := isIndent) (c := '=') rfl head
              (rest ++ later.flatMap Segment.text)
            rw [← hraw] at htail
            have h := congrArg byteLength htail
            rw [byteLength_append] at h
            omega
          have hbefore : byteLength head < byteLength raw := by
            have h := congrArg byteLength hraw
            rw [byteLength_ascii rfl] at h
            omega
          have hsame : (scanLine mode raw).raw = raw := rfl
          rw [Option.map_some, Option.bind_eq_bind, Option.bind_some, hsame]
          cases hpipe : (scanLine mode raw).pipes.head? with
          | none => simp [Option.filter, hbefore, hindent]
          | some p =>
            by_cases hlt : byteLength head < p.1 <;> simp [Option.filter, hindent, hlt]
      · rfl
  · rfl

/-- The indentation of a line is the beginning of what stands before its equals sign. -/
theorem slice?_head {head : List Char}
    (hdef : ScratchFormat.Chains.definition? (scanLine mode raw) = some head) :
    ∃ rest, slice? raw (byteLength (raw.takeWhile isIndent))
      (byteLength head) = some rest ∧ trim rest = trim head := by
  have hl := raw_scanLine mode raw
  obtain ⟨⟨later, hraw⟩, -⟩ := ScratchFormat.Chains.eq_append_of_definition? hl hdef
  have hraw' : raw = head ++ '=' :: later := hraw
  obtain ⟨rest, hrest⟩ := takeWhile_prefix_of_false (p := isIndent) (c := '=') rfl head later
  rw [← hraw'] at hrest
  refine ⟨rest, ?_, ?_⟩
  · have h := slice?_append (raw.takeWhile isIndent) rest ('=' :: later)
    rwa [← List.append_assoc, hrest, ← hraw', ← byteLength_append, hrest] at h
  · rw [← hrest, trim_append_indent (List.all_eq_true.mp List.all_takeWhile)]

variable {s : Chains}

/-- A chain goes on in words as it does without a bound. -/
theorem continueChain?_eq (hs : s.Within style room) (hunit : style.unit ≤ 8)
    (hle : style.extent raw ≤ room) (hroom : 4 * room + 64 < wordSize / 2) :
    continueChain? style (style.colsOf 1) s (scanLine mode raw)
      (scanLine mode raw).pipes (style.columns raw)
        (raw.dropWhile isIndent) =
      some ((continueChain style s (scanLine mode raw)).1,
        (continueChain style s (scanLine mode raw)).2.lines) := by
  have hl := raw_scanLine mode raw
  have hsame : (scanLine mode raw).raw = raw := rfl
  have hcols := style.extent_eq_columns raw
  have hbytes := style.byteLength_le_extent raw
  have hjoin := hs.joinColumn_le (show style.columns raw ≤ room by omega)
  unfold continueChain? continueChain
  simp only [joinColumn?_eq hs (style.columns raw) (show room + style.unit < wordSize by omega),
    Option.bind_eq_bind, Option.bind_some, Style.measure, hsame]
  split
  · rename_i hmany
    obtain ⟨first, parts, -, -, hsplit⟩ :=
      ScratchFormat.Chains.split?_eq hl (List.ne_nil_of_length_pos (by omega))
        (List.takeWhile_append_dropWhile (p := isIndent) (l := (scanLine mode raw).raw)).symm
        (ScratchFormat.Chains.byteLength_indent_le_pipe hl)
    rw [hsame] at hsplit
    rw [indent?_eq, Option.bind_some, split?_eq (by omega), hsplit, Option.bind_some,
      linkLines?_eq (by omega)]
    rfl
  · rw [place?_eq (by omega)]
    rfl

/-- The head of a definition is put on its own line in words as it is without a bound. -/
theorem headLine?_eq (hunit : style.unit ≤ 8) (hle : style.extent raw ≤ room)
    (hroom : 4 * room + 64 < wordSize / 2) :
    headLine? style (style.colsOf 1) (scanLine mode raw) (byteLength (raw.takeWhile isIndent))
        (style.columns raw) ((ScratchFormat.Chains.definition? (scanLine mode raw)).map byteLength) =
      some ((ScratchFormat.Chains.definition? (scanLine mode raw)).elim [] fun head =>
          [style.place (style.columns raw) (trim head ++ " =".toList)],
        startColumn style (ScratchFormat.Chains.definition? (scanLine mode raw))
          (style.columns raw)) := by
  have hone : style.colsOf 1 = style.unit := Nat.one_mul _
  have hcols := style.extent_eq_columns raw
  cases hdef : ScratchFormat.Chains.definition? (scanLine mode raw) with
  | none => rfl
  | some head =>
    obtain ⟨rest, hslice, htrim⟩ := slice?_head hdef
    have hsame : (scanLine mode raw).raw = raw := rfl
    simp only [Option.map_some, headLine?, hsame, hslice, htrim, Option.bind_eq_bind,
      Option.bind_some, place?_eq (show style.columns raw < wordSize / 2 by omega),
      add?_eq (show style.columns raw + style.colsOf 1 < wordSize by omega)]
    rfl

/-- A line is broken in words as it is without a bound. -/
theorem breakChain?_eq (hpipes : (scanLine mode raw).pipes ≠ []) (hunit : style.unit ≤ 8)
    (hle : style.extent raw ≤ room) (hroom : 4 * room + 64 < wordSize / 2) :
    breakChain? style (style.colsOf 1) (scanLine mode raw)
      (scanLine mode raw).pipes (style.columns raw) =
      some ((breakChain style (scanLine mode raw)).1,
        (breakChain style (scanLine mode raw)).2.lines) := by
  have hl := raw_scanLine mode raw
  have hsame : (scanLine mode raw).raw = raw := rfl
  have hone : style.colsOf 1 = style.unit := Nat.one_mul _
  have hcols := style.extent_eq_columns raw
  have hbytes := style.byteLength_le_extent raw
  have hstart :=
    ScratchFormat.Chains.startColumn_le style (ScratchFormat.Chains.definition? (scanLine mode raw))
    (show style.columns raw ≤ room by omega)
  obtain ⟨first, parts, -, -, hlinks⟩ := ScratchFormat.Chains.brokenLinks?_eq hl hpipes
  -- the place behind the equals sign is where the links are cut from
  have hplace : ((ScratchFormat.Chains.definition? (scanLine mode raw)).map byteLength).elim
      (some (byteLength (raw.takeWhile isIndent))) (add? · 1) =
      some ((ScratchFormat.Chains.definition? (scanLine mode raw)).elim
        (byteLength (raw.takeWhile isIndent))
        (byteLength · + 1)) := by
    cases hdef : ScratchFormat.Chains.definition? (scanLine mode raw) with
    | none => rfl
    | some head =>
      obtain ⟨⟨later, hraw⟩, -⟩ := ScratchFormat.Chains.eq_append_of_definition? hl hdef
      have hlen := congrArg byteLength hraw
      rw [hsame, byteLength_ascii rfl] at hlen
      rw [Option.map_some, Option.elim_some, Option.elim_some, add?_eq (by omega)]
  have hcut := hlinks
  rw [brokenLinks?, hsame] at hcut
  have hdefinition := @definition?_eq mode raw (by omega)
  have hsplit := @split?_eq mode raw (by omega)
  have hheadLine := @headLine?_eq style room mode raw hunit hle hroom
  unfold breakChain? breakChain
  simp only [hsame, indent?_eq, Option.bind_eq_bind, Option.bind_some, hdefinition, hplace, hsplit,
    hcut, hlinks, hheadLine,
    add?_eq (show startColumn style (ScratchFormat.Chains.definition? (scanLine mode raw))
      (style.columns raw) + style.colsOf 1 < wordSize by omega)]
  generalize ScratchFormat.Chains.linksOf none first parts = links
  rcases links with - | ⟨⟨- | pipe, text⟩, later⟩
  · rfl
  · simp only [place?_eq
      (show startColumn style (ScratchFormat.Chains.definition? (scanLine mode raw))
        (style.columns raw) < wordSize / 2 by omega), Option.bind_some]
    rw [linkLines?_eq (by omega)]
    rfl
  · simp only
    rw [linkLines?_eq (by omega)]
    rfl

/-- A line with pipes or without is laid out in words as it is without a bound. -/
theorem rule?_eq (hs : s.Within style room) (hunit : style.unit ≤ 8) (hle : style.extent raw ≤ room)
    (hroom : 4 * room + 64 < wordSize / 2) :
    rule? style (style.colsOf 1) s (scanLine mode raw) =
      some ((ScratchFormat.Chains.rule style s (scanLine mode raw)).1,
        (ScratchFormat.Chains.rule style s (scanLine mode raw)).2.lines) := by
  have hl := raw_scanLine mode raw
  have hsame : (scanLine mode raw).raw = raw := rfl
  have hbytes := style.byteLength_le_extent raw
  unfold rule? ScratchFormat.Chains.rule
  split
  · rfl
  · rw [pipes?_eq hl (by rw [hsame]; omega), startsWithPipe?_eq hl (by rw [hsame]; omega), hsame,
      measure?_eq (by omega)]
    simp only [Style.measure, Option.bind_eq_bind, Option.bind_some]
    split
    · exact continueChain?_eq hs hunit hle hroom
    split
    · rfl
    · exact breakChain?_eq (List.ne_nil_of_length_pos (by omega)) hunit hle hroom

/-- No column of a chain overflows on a line that leaves room. -/
theorem lineOverflow?_eq (hs : s.Within style room) (l : ScannedLine) (hunit : style.unit ≤ 8)
    (hle : style.extent l.raw ≤ room) (hroom : 4 * room + 64 < wordSize / 2) :
    ScratchFormat.Chains.lineOverflow? style s l = none := by
  have hone : style.colsOf 1 = style.unit := Nat.one_mul _
  have hcols := style.extent_eq_columns l.raw
  have hjoin := hs.joinColumn_le (show style.columns l.raw ≤ room by omega)
  have hstart := ScratchFormat.Chains.startColumn_le style (ScratchFormat.Chains.definition? l)
    (show style.columns l.raw ≤ room by omega)
  have hcolumns : ∀ c ∈ ScratchFormat.Chains.lineColumns style s l, c < wordSize / 2 := by
    intro c hc
    unfold ScratchFormat.Chains.lineColumns at hc
    split at hc
    · rw [List.mem_singleton] at hc
      omega
    split at hc
    · cases hc
    · simp only [ScratchFormat.Chains.breakColumns, List.mem_append, List.mem_ite_nil_right,
        List.mem_singleton] at hc
      omega
  unfold ScratchFormat.Chains.lineOverflow?
  split
  · rw [countOverflow?_eq (by omega)]
    exact List.findSome?_eq_none_iff.mpr fun c hc => columnOverflow?_eq (hcolumns c hc)
  · rfl

end Lines

end Chains

end Bytewise

end ScratchFormat
