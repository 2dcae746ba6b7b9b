import ScratchFormat.Proofs.Grid
import ScratchFormat.Proofs.Indentation

/-! Where bindings go. A binding that is indented goes to the column that its level has been given,
else to that of its neighbour if this lies to the left, else nowhere. In a text whose lines stand at
their levels no binding goes to the right, and none to column zero. -/

namespace ScratchFormat

namespace ScopeColumns

theorem lookup_filter_ne (m : ScopeColumns) {level other : Nat} (h : other ≠ level) :
    (m.filter (·.1 != level)).lookup other = m.lookup other := by
  induction m with
  | nil => rfl
  | cons entry m ih =>
    by_cases hentry : entry.1 = level
    · have hother : (other == entry.1) = false := by simpa [hentry] using h
      rw [List.filter_cons_of_neg (by simp [hentry]), ih, List.lookup_cons, hother]
    · rw [List.filter_cons_of_pos (by simp [hentry]), List.lookup_cons, List.lookup_cons, ih]

/-- Recording a column changes what is kept for its level and nothing else. -/
theorem get?_record (m : ScopeColumns) (level cols other : Nat) :
    (m.record level cols).get? other = if other = level then some cols else m.get? other := by
  by_cases hsame : other = level
  · rw [if_pos hsame, hsame]
    exact List.lookup_cons_self
  · have hother : (other == level) = false := by simpa using hsame
    rw [if_neg hsame, get?, record, List.lookup_cons, hother]
    exact lookup_filter_ne m hsame

end ScopeColumns

def ScannedLine.isBinding (l : ScannedLine) : Bool :=
  l.isCodeLine && (bindingHead? (trim l.codeText)).isSome

theorem ScannedLine.isBinding_of_isCodeLine {l : ScannedLine} (h : l.isCodeLine = true) :
    l.isBinding = (bindingHead? (trim l.codeText)).isSome := by
  rw [isBinding, h, Bool.true_and]

/-- In another column a line binds what it did. -/
theorem ScannedLine.isBinding_place (style : Style) (cols : Nat) (raw : List Char) :
    (scanLine .code (style.place cols (raw.dropWhile isIndent))).isBinding =
      (scanLine .code raw).isBinding := by
  rw [isBinding, isCodeLine_place, trim_codeText_place, isBinding]

namespace Scopes

/-- Where a binding goes: to the column of its level; to that of its neighbour, if the level has
none and the neighbour stands to the left; or nowhere, if the level has none and no neighbour stands
there. -/
theorem target_cases (s : Scopes) (style : Style) (cols : Nat) :
    s.columns.get? (style.levelOf cols) = some (s.target style cols) ∨
      s.columns.get? (style.levelOf cols) = none ∧
        (s.neighbour = some (s.target style cols) ∧ s.target style cols < cols ∨
          s.target style cols = cols ∧ ∀ column ∈ s.neighbour, cols ≤ column) := by
  unfold target
  cases hlevel : s.columns.get? (style.levelOf cols) with
  | some established => exact .inl rfl
  | none =>
    refine .inr ⟨rfl, ?_⟩
    cases hneighbour : s.neighbour with
    | none => exact .inr ⟨rfl, nofun⟩
    | some column =>
      by_cases hleft : column < cols
      · simp [hleft]
      · simp [hleft, Nat.le_of_not_lt hleft]

section After

variable (s : Scopes) (style : Style)

theorem after_opener (binding : Bool) (cols column : Nat) :
    s.after style binding true cols column = ⟨[], none⟩ := by
  simp [Scopes.after]

theorem after_top (opener : Bool) : s.after style true opener 0 0 = ⟨[], none⟩ := by
  simp [Scopes.after]

theorem after_binding {cols column : Nat} (hcols : cols ≠ 0) (hcolumn : column ≠ 0) :
    s.after style true false cols column =
      ⟨s.columns.record (style.levelOf cols) column, some column⟩ := by
  simp [Scopes.after, hcols, hcolumn]

theorem after_other (cols column : Nat) :
    s.after style false false cols column =
      ⟨s.columns, if column = 0 then none else s.neighbour⟩ := by
  simp [Scopes.after]

end After

theorem column_zero (s : Scopes) (style : Style) (binding : Bool) :
    s.column style binding 0 = 0 := by
  simp [column]

theorem rule_kept (style : Style) (s : Scopes) {l : ScannedLine} (h : l.isCodeLine = false) :
    rule style s l = (s, .line l.raw) := by
  simp [rule, h]

def lineColumn (style : Style) (s : Scopes) (l : ScannedLine) : Nat :=
  s.column style l.isBinding (style.columns l.raw)

def settled (style : Style) (s : Scopes) (l : ScannedLine) : List Char :=
  if lineColumn style s l = style.columns l.raw then l.raw
  else style.place (lineColumn style s l) (l.raw.dropWhile isIndent)

/-- A line of code is put in its column. It is noted if it has to move. -/
theorem rule_code (style : Style) (s : Scopes) {l : ScannedLine} (h : l.isCodeLine = true) :
    (rule style s l).1 =
        s.after style l.isBinding (opensBlock (trim l.codeText)) (style.columns l.raw)
          (lineColumn style s l) ∧
      (rule style s l).2.lines = [settled style s l] ∧
      (lineColumn style s l = style.columns l.raw → (rule style s l).2.notes = []) := by
  simp only [settled, lineColumn, ScannedLine.isBinding_of_isCodeLine h, rule, h, Bool.not_true,
    Bool.false_eq_true, if_false]
  exact ⟨rfl, rfl, fun hstays => if_pos hstays⟩

section Settled

variable (style : Style) (s : Scopes)

theorem columns_settled (l : ScannedLine) :
    style.columns (settled style s l) = lineColumn style s l := by
  unfold settled
  split
  · rename_i hstays
    exact hstays.symm
  · exact (style.columns_place _ (head?_dropWhile_eq_false isIndent l.raw)).2

variable (raw : List Char)

/-- The line that is put out is read as before. -/
theorem isCodeLine_settled :
    (scanLine .code (settled style s (scanLine .code raw))).isCodeLine =
      (scanLine .code raw).isCodeLine := by
  unfold settled
  split
  · rfl
  · exact ScannedLine.isCodeLine_place style _ raw

theorem isBinding_settled :
    (scanLine .code (settled style s (scanLine .code raw))).isBinding =
      (scanLine .code raw).isBinding := by
  unfold settled
  split
  · rfl
  · exact ScannedLine.isBinding_place style _ raw

theorem trim_codeText_settled :
    trim (scanLine .code (settled style s (scanLine .code raw))).codeText =
      trim (scanLine .code raw).codeText := by
  unfold settled
  split
  · rfl
  · exact ScannedLine.trim_codeText_place style _ raw

end Settled

def Hosts (style : Style) (above : List ScannedLine) (column : Nat) : Prop :=
  0 < column ∧ ∃ k ∈ above, k.isBinding = true ∧ style.columns k.raw = column

/-- What may become of a line below the lines `above` that are put out already: it stays to the
character, or it is a binding and moves to the left, into the column of a binding above. -/
def MovesLeft (style : Style) (above : List ScannedLine) (l m : ScannedLine) : Prop :=
  m.raw = l.raw ∨
    l.isBinding = true ∧ ∃ column < style.columns l.raw, Hosts style above column ∧
      m.raw = style.place column (l.raw.dropWhile isIndent)

/-- The columns that are kept for the lines below are those of bindings above, and no level has one
to the right of its own. -/
structure Founded (style : Style) (above : List ScannedLine) (s : Scopes) : Prop where
  columns : ∀ level column, s.columns.get? level = some column → column ≤ style.colsOf level ∧
    Hosts style above column
  neighbour : ∀ column ∈ s.neighbour, Hosts style above column

theorem founded_empty (style : Style) (above : List ScannedLine) : Founded style above ⟨[], none⟩ :=
  ⟨nofun, nofun⟩

theorem Hosts.append {style : Style} {above : List ScannedLine} {column : Nat}
    (h : Hosts style above column) (m : ScannedLine) : Hosts style (above ++ [m]) column := by
  obtain ⟨hpos, k, hk, hbinding⟩ := h
  exact ⟨hpos, k, List.mem_append_left [m] hk, hbinding⟩

theorem hosts_last {style : Style} {m : ScannedLine} (hbinding : m.isBinding = true)
    (hpos : 0 < style.columns m.raw) (above : List ScannedLine) :
    Hosts style (above ++ [m]) (style.columns m.raw) :=
  ⟨hpos, m, List.mem_append_right above (List.mem_singleton_self m), hbinding, rfl⟩

namespace Founded

variable {style : Style} {above : List ScannedLine} {s : Scopes} (hs : Founded style above s)
include hs

/-- Further lines change nothing about it. -/
theorem append (m : ScannedLine) : Founded style (above ++ [m]) s where
  columns level column hget := (hs.columns level column hget).imp_right fun hhosts =>
    hhosts.append m
  neighbour column hmem := (hs.neighbour column hmem).append m

/-- A line at its level stays in its column, or is a binding and goes to that of a binding above, to
the left. -/
theorem lineColumn_cases {l : ScannedLine} (hgrid : style.unit ∣ style.columns l.raw) :
    lineColumn style s l = style.columns l.raw ∨
      l.isBinding = true ∧ lineColumn style s l < style.columns l.raw ∧
        Hosts style above (lineColumn style s l) := by
  by_cases hmoves : (l.isBinding && style.columns l.raw ≠ 0) = true
  · have hcolumn : lineColumn style s l = s.target style (style.columns l.raw) := if_pos hmoves
    have hbinding : l.isBinding = true := (Bool.and_eq_true _ _ ▸ hmoves).1
    rw [hcolumn]
    rcases s.target_cases style (style.columns l.raw)
      with hlevel | ⟨-, ⟨hneighbour, hleft⟩ | ⟨hstays, -⟩⟩
    · -- on the grid the columns of its level are the column of the line
      obtain ⟨hle, hhosts⟩ := hs.columns _ _ hlevel
      rw [Style.colsOf_levelOf hgrid] at hle
      rcases Nat.lt_or_eq_of_le hle with hlt | heq
      · exact .inr ⟨hbinding, hlt, hhosts⟩
      · exact .inl heq
    · exact .inr ⟨hbinding, hleft, hs.neighbour _ hneighbour⟩
    · exact .inl hstays
  · exact .inl (if_neg hmoves)

/-- What is kept after a line that is put out as `m`. -/
theorem after {l m : ScannedLine} (hgrid : style.unit ∣ style.columns l.raw)
    (hbinding : m.isBinding = l.isBinding) (hcolumn : style.columns m.raw = lineColumn style s l)
    (opener : Bool) :
    Founded style (above ++ [m])
      (s.after style l.isBinding opener (style.columns l.raw) (lineColumn style s l)) := by
  cases opener with
  | true =>
    rw [after_opener]
    exact founded_empty style _
  | false =>
    cases hbinds : l.isBinding with
    | false =>
      rw [after_other]
      refine ⟨(hs.append m).columns, fun column hmem => ?_⟩
      split at hmem
      · cases hmem
      · exact (hs.append m).neighbour column hmem
    | true =>
      by_cases hcols : style.columns l.raw = 0
      · have hstays : lineColumn style s l = 0 := by rw [lineColumn, hcols, column_zero]
        rw [hcols, hstays, after_top]
        exact founded_empty style _
      · have hle : lineColumn style s l ≤ style.columns l.raw ∧ 0 < lineColumn style s l := by
          rcases hs.lineColumn_cases hgrid with hstays | ⟨-, hleft, hhosts⟩
          · exact ⟨hstays.le, hstays ▸ Nat.pos_of_ne_zero hcols⟩
          · exact ⟨hleft.le, hhosts.1⟩
        have hhosts : Hosts style (above ++ [m]) (lineColumn style s l) := by
          rw [← hcolumn]
          exact hosts_last (hbinding.trans hbinds) (hcolumn ▸ hle.2) above
        rw [after_binding s style hcols hle.2.ne']
        constructor
        · intro level column hget
          -- the column is recorded under the level that the line had, which is that of its old column
          rw [ScopeColumns.get?_record] at hget
          split at hget
          · rename_i hsame
            obtain rfl := Option.some.inj hget
            rw [hsame, Style.colsOf_levelOf hgrid]
            exact ⟨hle.1, hhosts⟩
          · exact (hs.append m).columns level column hget
        · intro column hmem
          obtain rfl := Option.some.inj hmem
          exact hhosts

/-- One line is moved to the left at most, and what is kept for the next is again founded on the
lines above. -/
theorem step {mode : Mode} {raw raw' : List Char}
    (hgrid : (scanLine mode raw).isCodeLine = true → style.OnGrid raw)
    (hlines : (rule style s (scanLine mode raw)).2.lines = [raw']) :
    MovesLeft style above (scanLine mode raw) (scanLine mode raw') ∧
      Founded style (above ++ [scanLine mode raw']) (rule style s (scanLine mode raw)).1 := by
  cases hcode : (scanLine mode raw).isCodeLine with
  | false =>
    rw [rule_kept style s hcode] at hlines ⊢
    obtain rfl := List.singleton_inj.mp hlines
    exact ⟨.inl rfl, hs.append _⟩
  | true =>
    obtain rfl := mode_of_isCodeLine hcode
    obtain ⟨hstate, hout, -⟩ := rule_code style s hcode
    obtain rfl := List.singleton_inj.mp (hout.symm.trans hlines)
    have hunit : style.unit ∣ style.columns (scanLine .code raw).raw := (hgrid hcode).unit_dvd
    constructor
    · rcases hs.lineColumn_cases hunit with hstays | ⟨hbinding, hleft, hhosts⟩
      · exact .inl (if_pos hstays)
      · exact .inr ⟨hbinding, _, hleft, hhosts, if_neg hleft.ne⟩
    · rw [hstate]
      exact hs.after hunit (isBinding_settled style s raw) (columns_settled style s _) _

/-- All lines are moved to the left at most. The lines above a line are those that came before the
walk and those that the walk has put out for it so far. -/
theorem walk {mode : Mode} {ls : List (List Char)}
    (hgrid : ∀ l ∈ scanFrom mode ls, l.isCodeLine = true → style.OnGrid l.raw) :
    ∀ i l, (scanFrom mode ls)[i]? = some l →
      ∃ m,
        (scanFrom mode (ScratchFormat.walk (rule style) s (scanFrom mode ls)).lines)[i]? = some m ∧
        MovesLeft style (above ++
          (scanFrom mode (ScratchFormat.walk (rule style) s (scanFrom mode ls)).lines).take i) l m := by
  -- the lines above a line grow along the walk, so the induction is over all of them
  induction ls generalizing mode s above with
  | nil => exact nofun
  | cons raw ls ih =>
    obtain ⟨raw', hlines, -, hscan⟩ := (reindents style).exists_scanFrom_walk s mode raw ls
    obtain ⟨hfirst, hnext⟩ := hs.step (hgrid _ List.mem_cons_self) hlines
    rw [hscan]
    intro i l hl
    cases i with
    | zero =>
      obtain rfl := Option.some.inj hl
      exact ⟨scanLine mode raw', rfl, by simpa using hfirst⟩
    | succ i =>
      obtain ⟨m, hm, hleft⟩ := ih hnext (fun k hk => hgrid k (List.mem_cons_of_mem _ hk)) i l hl
      refine ⟨m, hm, ?_⟩
      rw [List.append_assoc, List.singleton_append] at hleft
      exact hleft

end Founded

/-- Aligning the bindings of a text whose lines stand at their levels keeps every line but bindings
that are indented. Such a binding may move to the left, into the column of a binding above it, which
is never column zero. -/
theorem align_assign_moves_left (style : Style) (text : List Char) :
    (scan (align style (Levels.assign style text).text).text).length =
        (scan (Levels.assign style text).text).length ∧
      ∀ i l, (scan (Levels.assign style text).text)[i]? = some l →
        ∃ m, (scan (align style (Levels.assign style text).text).text)[i]? = some m ∧
          MovesLeft style
            ((scan (align style (Levels.assign style text).text).text).take i) l m := by
  have hnewline := newline_notMem_lines style initial (Levels.assign style text).text
  constructor
  · exact ((reindents style).forall₂_scan hnewline).length_eq.symm
  · have hgrid := Levels.gridded_assign style text
    have hscan : scan (align style (Levels.assign style text).text).text =
        scanFrom .code
          (ScratchFormat.walk (rule style) initial (scan (Levels.assign style text).text)).lines :=
      scan_unlines ((reindents style).walk_ne_nil initial _) hnewline
    rw [hscan]
    exact (founded_empty style []).walk hgrid

/-- A binding that has drifted behind another one goes back with it to the first of the block. -/
theorem align_assign_moves_left_drifted :
    (scan (Levels.assign .standard "f =\n  a = 1\n      b = 2\n    c = 3".toList).text)[3]? =
        some (scanLine .code "    c = 3".toList) ∧
      (scan
        (align .standard
          (Levels.assign .standard "f =\n  a = 1\n      b = 2\n    c = 3".toList).text).text)[3]? =
          some (scanLine .code "  c = 3".toList) ∧
      ∃ m, (scan (align .standard
          (Levels.assign .standard "f =\n  a = 1\n      b = 2\n    c = 3".toList).text).text)[3]? =
            some m ∧
        MovesLeft .standard
          ((scan (align .standard (Levels.assign .standard
            "f =\n  a = 1\n      b = 2\n    c = 3".toList).text).text).take 3)
          (scanLine .code "    c = 3".toList) m :=
  ⟨by decide +kernel, by decide +kernel,
    (align_assign_moves_left .standard "f =\n  a = 1\n      b = 2\n    c = 3".toList).2 3 _
    (by decide +kernel)⟩

end Scopes

end ScratchFormat
