import ScratchFormat.Proofs.Scopes

/-! Second runs of the rules that move lines. A second run goes over the lines of the first in step
with it: it finds every line where it belongs and leaves it there, and what it keeps for the lines
below agrees with what the first run kept.

When lines are given their levels both runs keep the same. When bindings are aligned they do not:
the first run keeps a column for the level that a binding had, the second for the level that the
column itself has. But every column that the first run keeps is also kept for its own level, and
that is all the second run reads. -/

namespace ScratchFormat

/-- A second run, in a state that is related to that of the first, leaves the line that the first
puts out, and the states stay related. -/
def Retraces {σ : Type} (rule : σ → ScannedLine → σ × Output) (related : σ → σ → Prop) : Prop :=
  ∀ s t mode raw raw', related s t → (rule s (scanLine mode raw)).2.lines = [raw'] →
    (rule t (scanLine mode raw')).2 = .line raw' ∧
      related (rule s (scanLine mode raw)).1 (rule t (scanLine mode raw')).1

namespace Retraces

variable {σ : Type} {rule : σ → ScannedLine → σ × Output} {related : σ → σ → Prop}
    (h : Retraces rule related)
  (hmoves : Reindents rule)
include h hmoves

/-- The second run puts out the lines of the first, and has nothing to note. -/
theorem walk_walk {s t : σ} (hst : related s t) (mode : Mode) (ls : List (List Char)) :
    walk rule t (scanFrom mode (walk rule s (scanFrom mode ls)).lines) =
      ⟨(walk rule s (scanFrom mode ls)).lines, []⟩ := by
  induction ls generalizing mode s t with
  | nil => rfl
  | cons raw ls ih =>
    -- moving a line keeps the mode it ends in, so below it both runs read on in the same mode
    obtain ⟨raw', hlines, -, hscan⟩ := hmoves.exists_scanFrom_walk s mode raw ls
    obtain ⟨hstays, hnext⟩ := h s t mode raw raw' hst hlines
    have hlater := ih hnext (scanLine mode raw).endsIn.carried
    rw [hscan, walk, hstays, hlater, scanFrom, walk, Output.append, Output.append, hlines]
    rfl

theorem outcome_outcome {s : σ} (hs : related s s) {text : List Char}
    (hnewline : ∀ m ∈ (walk rule s (scan text)).lines, '\n' ∉ m) :
    (walk rule s (scan (walk rule s (scan text)).outcome.text)).outcome =
      ⟨(walk rule s (scan text)).outcome.text, []⟩ := by
  have hscan : scan (walk rule s (scan text)).outcome.text =
      scanFrom .code (walk rule s (scan text)).lines :=
    scan_unlines (hmoves.walk_ne_nil s text) hnewline
  have hwalk := h.walk_walk hmoves hs .code (lines text)
  rw [← scan, ← hscan] at hwalk
  rw [hwalk]
  rfl

end Retraces

/-- A rule leaves a line for which it puts out the line itself and notes nothing. -/
theorem Output.eq_line {o : Output} {raw : List Char} (hlines : o.lines = [raw])
    (hnotes : o.notes = []) : o = .line raw := by
  obtain ⟨lines, notes⟩ := o
  rw [Output.line, Output.mk.injEq]
  exact ⟨hlines, hnotes⟩

namespace Levels

/-- A line at the level that it was given is given that level again. -/
theorem level_level (s : Levels) (role : Role) (code : List Char) (nearest : Nat) :
    s.level role code (s.level role code nearest) = s.level role code nearest := by
  cases hzero : s.belongsAtZero role code <;> by_cases hnearest :
    0 < nearest <;> simp [level, hzero, hnearest]

section Settled

variable (style : Style) (s : Levels) (raw : List Char)

/-- Put at its level, a line has that level for its nearest. -/
theorem levelOf_settled (l : ScannedLine) :
    style.levelOf (style.columns (settled style s l)) = lineLevel style s l := by
  rw [settled, (style.columns_place _ (head?_dropWhile_eq_false isIndent l.raw)).2,
    style.levelOf_colsOf]

theorem lineLevel_settled :
    lineLevel style s (scanLine .code (settled style s (scanLine .code raw))) =
      lineLevel style s (scanLine .code raw) := by
  have hcode : trim (scanLine .code (settled style s (scanLine .code raw))).codeText =
      trim (scanLine .code raw).codeText :=
    ScannedLine.trim_codeText_place style _ raw
  rw [lineLevel, hcode, scanLine_raw, levelOf_settled, lineLevel, level_level]

theorem settled_settled :
    settled style s (scanLine .code (settled style s (scanLine .code raw))) =
      settled style s (scanLine .code raw) := by
  have hrest : (settled style s (scanLine .code raw)).dropWhile isIndent = raw.dropWhile isIndent :=
    style.dropWhile_place _ (head?_dropWhile_eq_false isIndent raw)
  rw [settled, lineLevel_settled, scanLine_raw, hrest]
  rfl

end Settled

/-- The second run is in the state of the first all along. -/
theorem retraces (style : Style) : Retraces (rule style) (· = ·) := by
  rintro s _ mode raw raw' rfl hlines
  rcases line_cases (scanLine mode raw) with hkept | ⟨hstart, hblank⟩ | hline
  · rw [rule_kept style s hkept] at hlines ⊢
    obtain rfl := List.singleton_inj.mp hlines
    exact ⟨congrArg Prod.snd (rule_kept style s hkept),
      (congrArg Prod.fst (rule_kept style s hkept)).symm⟩
  · obtain rfl : mode = .code := of_decide_eq_true hstart
    rw [rule_blank style s hstart hblank] at hlines ⊢
    obtain rfl := List.singleton_inj.mp hlines
    rw [rule_blank style s rfl rfl]
    exact ⟨rfl, rfl⟩
  · obtain rfl := mode_of_isCodeLine hline
    obtain ⟨hstate, hout, -⟩ := rule_code style s hline
    obtain rfl := List.singleton_inj.mp (hout.symm.trans hlines)
    have hline' : (scanLine .code (settled style s (scanLine .code raw))).isCodeLine = true :=
      (ScannedLine.isCodeLine_place style _ raw).trans hline
    have hcode : trim (scanLine .code (settled style s (scanLine .code raw))).codeText =
        trim (scanLine .code raw).codeText :=
      ScannedLine.trim_codeText_place style _ raw
    obtain ⟨hstate', hout', hnotes'⟩ := rule_code style s hline'
    rw [settled_settled] at hout'
    rw [lineLevel_settled, hcode] at hstate'
    rw [lineLevel_settled] at hnotes'
    exact ⟨Output.eq_line hout' (hnotes' (levelOf_settled style s _).symm),
      hstate.trans hstate'.symm⟩

/-- Giving the lines of a text their levels a second time changes nothing, and no line has to be
forced. -/
theorem assign_assign (style : Style) (text : List Char) :
    assign style (assign style text).text = ⟨(assign style text).text, []⟩ :=
  (retraces style).outcome_outcome (reindents style) rfl (newline_notMem_lines style initial text)

end Levels

namespace Scopes

/-- What is kept for the level of a binding is where the binding goes. -/
theorem target_eq {s : Scopes} {style : Style} {cols column : Nat}
    (h : s.columns.get? (style.levelOf cols) = some column) : s.target style cols = column := by
  rw [target, h]

structure Rooted (style : Style) (s : Scopes) : Prop where
  columns : ∀ level column, s.columns.get? level = some column →
    s.columns.get? (style.levelOf column) = some column
  neighbour : ∀ column ∈ s.neighbour, s.columns.get? (style.levelOf column) = some column
  ne_zero : ∀ level column, s.columns.get? level = some column → column ≠ 0

theorem rooted_empty (style : Style) : Rooted style ⟨[], none⟩ := ⟨nofun, nofun, nofun⟩

namespace Rooted

variable {style : Style} {s : Scopes} (hs : Rooted style s)
include hs

/-- A binding goes to a column that is kept for its own level, or it is the first at its level and
stays. -/
theorem target_cases (cols : Nat) :
    s.columns.get? (style.levelOf (s.target style cols)) = some (s.target style cols) ∨
      s.columns.get? (style.levelOf cols) = none ∧ s.target style cols = cols ∧
        ∀ column ∈ s.neighbour, cols ≤ column := by
  rcases s.target_cases style cols with hlevel | ⟨hnone, ⟨hneighbour, -⟩ | hstays⟩
  · exact .inl (hs.columns _ _ hlevel)
  · exact .inl (hs.neighbour _ hneighbour)
  · exact .inr ⟨hnone, hstays⟩

theorem target_ne_zero {cols : Nat} (hcols : cols ≠ 0) : s.target style cols ≠ 0 := by
  rcases hs.target_cases cols with hown | ⟨-, hstays, -⟩
  · exact hs.ne_zero _ _ hown
  · rw [hstays]
    exact hcols

/-- Once it is recorded, the column of a binding is kept for its own level. -/
theorem get?_record_target (cols : Nat) :
    (s.columns.record (style.levelOf cols) (s.target style cols)).get?
      (style.levelOf (s.target style cols)) = some (s.target style cols) := by
  rw [ScopeColumns.get?_record]
  split
  · rfl
  · rename_i hother
    rcases hs.target_cases cols with hown | ⟨-, hstays, -⟩
    · exact hown
    · exact absurd (by rw [hstays]) hother

/-- The state stays rooted when a column is recorded under its level. -/
theorem record {cols : Nat} (hcols : cols ≠ 0) :
    Rooted style ⟨s.columns.record (style.levelOf cols) (s.target style cols),
      some (s.target style cols)⟩ := by
  have hrecorded := hs.get?_record_target cols
  constructor
  · intro level column hget
    rw [ScopeColumns.get?_record] at hget
    split at hget
    · obtain rfl := Option.some.inj hget
      exact hrecorded
    · have hown := hs.columns level column hget
      rw [ScopeColumns.get?_record]
      split
      · -- the binding goes where its level has its column, so this column is recorded once more
        rename_i hsame
        rw [hsame] at hown
        rw [target_eq hown]
      · exact hown
  · intro column hmem
    obtain rfl := Option.some.inj hmem
    exact hrecorded
  · intro level column hget
    rw [ScopeColumns.get?_record] at hget
    split at hget
    · obtain rfl := Option.some.inj hget
      exact hs.target_ne_zero hcols
    · exact hs.ne_zero level column hget

end Rooted

/-- What a second run keeps when the first keeps `s`: the same neighbour, and of the columns those
that are kept for their own level. The others belong to levels at which no line stands any more. -/
structure Mirrors (style : Style) (s t : Scopes) : Prop where
  rooted : Rooted style s
  neighbour : t.neighbour = s.neighbour
  columns : ∀ level column, t.columns.get? level = some column ↔
    s.columns.get? level = some column ∧ style.levelOf column = level

theorem mirrors_empty (style : Style) : Mirrors style ⟨[], none⟩ ⟨[], none⟩ :=
  ⟨rooted_empty style, rfl, fun _ _ => ⟨nofun, nofun⟩⟩

namespace Mirrors

variable {style : Style} {s t : Scopes} (h : Mirrors style s t)
include h

/-- Where the first run puts a binding, the second leaves it. -/
theorem target_target (cols : Nat) :
    t.target style (s.target style cols) = s.target style cols := by
  rcases h.rooted.target_cases cols with hown | ⟨hnone, hstays, hneighbour⟩
  · have hsecond := (h.columns _ _).mpr ⟨hown, rfl⟩
    rw [target, hsecond]
  · -- a level that is new to the first run is new to the second, which then looks at the same neighbour
    have hsecond : t.columns.get? (style.levelOf cols) = none := by
      apply Option.eq_none_iff_forall_ne_some.mpr
      intro column hget
      rw [((h.columns _ _).mp hget).1] at hnone
      cases hnone
    rw [hstays, target, hsecond, h.neighbour]
    cases hmem : s.neighbour with
    | none => rfl
    | some column => exact if_neg (Nat.not_lt.mpr (hneighbour column hmem))

theorem column_column (binding : Bool) (cols : Nat) :
    t.column style binding (s.column style binding cols) = s.column style binding cols := by
  unfold column
  by_cases hmoves : (binding && cols ≠ 0) = true
  · rw [if_pos hmoves, h.target_target, ite_self]
  · rw [if_neg hmoves, if_neg hmoves]

/-- The column of a binding is recorded by both runs, by the second under its own level. -/
theorem record {cols : Nat} (hcols : cols ≠ 0) :
    Mirrors style ⟨s.columns.record (style.levelOf cols) (s.target style cols),
      some (s.target style cols)⟩
      ⟨t.columns.record (style.levelOf (s.target style cols)) (s.target style cols),
        some (s.target style cols)⟩ := by
  refine ⟨h.rooted.record hcols, rfl, fun level column => ?_⟩
  have hrecorded := h.rooted.get?_record_target cols
  by_cases hown : level = style.levelOf (s.target style cols)
  · rw [hown, hrecorded, ScopeColumns.get?_record, if_pos rfl]
    constructor
    · intro hsome
      obtain rfl := Option.some.inj hsome
      exact ⟨rfl, rfl⟩
    · exact fun hsome => hsome.1
  · rw [ScopeColumns.get?_record, if_neg hown, ScopeColumns.get?_record, h.columns]
    -- under another level the first run may record the column, but then nothing is kept there by the second
    split
    · rename_i hsame
      constructor
      · intro hkept
        obtain ⟨hget, hlevel⟩ := hkept
        rw [hsame] at hget
        exact absurd (by rw [target_eq hget, hlevel]) hown
      · intro hkept
        obtain ⟨hsome, hlevel⟩ := hkept
        obtain rfl := Option.some.inj hsome
        exact absurd hlevel.symm hown
    · rfl

/-- After a line that the first run moves from `cols` and the second leaves, what is kept still
agrees. -/
theorem after (binding opener : Bool) (cols : Nat) :
    Mirrors style (s.after style binding opener cols (s.column style binding cols))
      (t.after style binding opener (s.column style binding cols)
        (s.column style binding cols)) := by
  cases opener with
  | true =>
    rw [after_opener, after_opener]
    exact mirrors_empty style
  | false =>
    cases binding with
    | false =>
      rw [after_other, after_other]
      refine ⟨⟨h.rooted.columns, fun column hmem => ?_, h.rooted.ne_zero⟩, by rw [h.neighbour],
        h.columns⟩
      split at hmem
      · cases hmem
      · exact h.rooted.neighbour column hmem
    | true =>
      by_cases hcols : cols = 0
      · subst hcols
        rw [column_zero, after_top, after_top]
        exact mirrors_empty style
      · have hcolumn : s.column style true cols = s.target style cols := if_pos (by simp [hcols])
        have htarget := h.rooted.target_ne_zero hcols
        rw [hcolumn, after_binding s style hcols htarget, after_binding t style htarget htarget]
        exact h.record hcols

end Mirrors

/-- A second run of the scopes retraces the first. -/
theorem retraces (style : Style) : Retraces (rule style) (Mirrors style) := by
  intro s t mode raw raw' hst hlines
  cases hcode : (scanLine mode raw).isCodeLine with
  | false =>
    rw [rule_kept style s hcode] at hlines ⊢
    obtain rfl := List.singleton_inj.mp hlines
    rw [scanLine_raw, rule_kept style t hcode]
    exact ⟨rfl, hst⟩
  | true =>
    obtain rfl := mode_of_isCodeLine hcode
    obtain ⟨hstate, hout, -⟩ := rule_code style s hcode
    obtain rfl := List.singleton_inj.mp (hout.symm.trans hlines)
    obtain ⟨hstate', hout', hnotes'⟩ :=
      rule_code style t ((isCodeLine_settled style s raw).trans hcode)
    -- the second run finds the line in the column that the first has put it in
    have hcolumns : style.columns (scanLine .code (settled style s (scanLine .code raw))).raw =
        lineColumn style s (scanLine .code raw) := columns_settled style s _
    have hstays : lineColumn style t (scanLine .code (settled style s (scanLine .code raw))) =
        lineColumn style s (scanLine .code raw) := by
      rw [lineColumn, hcolumns, isBinding_settled]
      exact hst.column_column _ _
    have hsettled : settled style t (scanLine .code (settled style s (scanLine .code raw))) =
        settled style s (scanLine .code raw) := if_pos (hstays.trans hcolumns.symm)
    rw [hsettled] at hout'
    rw [hstays, hcolumns, isBinding_settled, trim_codeText_settled] at hstate'
    refine ⟨Output.eq_line hout' (hnotes' (hstays.trans hcolumns.symm)), ?_⟩
    rw [hstate, hstate']
    exact hst.after _ _ _

/-- Aligning the bindings of a text a second time changes nothing, and no binding has to be moved,
be the text indented in whatever way. -/
theorem align_align (style : Style) (text : List Char) :
    align style (align style text).text = ⟨(align style text).text, []⟩ :=
  (retraces style).outcome_outcome (reindents style) (mirrors_empty style)
    (newline_notMem_lines style initial text)

end Scopes

end ScratchFormat
