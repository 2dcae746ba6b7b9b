import ScratchFormat.Proofs.Broken
import ScratchFormat.Proofs.Extent
import ScratchFormat.Proofs.Settling

/-! The grid of a formatted text: every line of code stands at a whole number of levels, indented as
the style says. The first stage that measures lines puts them on the grid; the later ones move them
to columns that they have seen, or one level further. -/

namespace ScratchFormat

namespace Style

/-- A line is indented by a whole number of levels, with the characters that the style asks for. -/
structure OnGrid (style : Style) (raw : List Char) : Prop where
  indent_eq : raw.takeWhile isIndent = style.render (style.columns raw)
  unit_dvd : style.unit ∣ style.columns raw

theorem columns_place (style : Style) (cols : Nat) {rest : List Char}
    (h : ∀ c ∈ rest.head?, isIndent c = false) :
    (style.place cols rest).takeWhile isIndent = style.render cols ∧
      style.columns (style.place cols rest) = cols := by
  have hindent : (style.place cols rest).takeWhile isIndent = style.render cols := by
    have hempty : rest.takeWhile isIndent = [] := takeWhile_append_of_head [] h
    rw [place, List.takeWhile_append_of_pos fun c hc => isIndent_of_mem_render hc, hempty,
      List.append_nil]
  exact ⟨hindent, by rw [columns_eq, hindent, extent_render]⟩

theorem dropWhile_place (style : Style) (cols : Nat) {rest : List Char}
    (h : ∀ c ∈ rest.head?, isIndent c = false) :
    (style.place cols rest).dropWhile isIndent = rest := by
  rw [place, List.dropWhile_append_of_pos fun c hc => isIndent_of_mem_render hc]
  cases rest with
  | nil => rfl
  | cons c cs => exact List.dropWhile_cons_of_neg (by simp [h c rfl])

theorem onGrid_place {style : Style} {cols : Nat} (hcols : style.unit ∣ cols) {rest : List Char}
    (h : ∀ c ∈ rest.head?, isIndent c = false) : style.OnGrid (style.place cols rest) := by
  obtain ⟨hindent, hcolumns⟩ := style.columns_place cols h
  exact ⟨by rw [hindent, hcolumns], by rwa [hcolumns]⟩

theorem OnGrid.congr {style : Style} {raw raw' : List Char} (h : style.OnGrid raw)
    (hindent : raw.takeWhile isIndent = raw'.takeWhile isIndent) : style.OnGrid raw' := by
  have hcolumns : style.columns raw' = style.columns raw := by rw [columns_eq, columns_eq, hindent]
  exact ⟨by rw [← hindent, hcolumns, h.indent_eq], by rw [hcolumns]; exact h.unit_dvd⟩

/-- On the grid all indentation is made of one character. -/
theorem OnGrid.mem_indent {style : Style} {raw : List Char} (h : style.OnGrid raw) :
    ∀ c ∈ raw.takeWhile isIndent, c = if style.useSpaces then ' ' else '\t' := by
  intro c hc
  rw [h.indent_eq, render, Nat.mod_eq_zero_of_dvd h.unit_dvd, List.replicate_zero, List.append_nil]
    at hc
  split at hc <;> rename_i hspaces
  · rw [if_pos hspaces]
    exact List.eq_of_mem_replicate hc
  · rw [if_neg hspaces]
    exact List.eq_of_mem_replicate hc

theorem unit_dvd_colsOf (style : Style) (level : Nat) : style.unit ∣ style.colsOf level :=
  Nat.dvd_mul_left _ _

/-- The column of a level is nearest to that level. -/
theorem levelOf_colsOf (style : Style) (level : Nat) :
    style.levelOf (style.colsOf level) = level := by
  have hpos := style.unit_pos
  have hhalf : style.unit / 2 / style.unit = 0 :=
    Nat.div_eq_of_lt (Nat.div_lt_self hpos Nat.one_lt_two)
  rw [levelOf, colsOf, Nat.add_comm, Nat.add_mul_div_right _ _ hpos, hhalf, Nat.zero_add]

theorem colsOf_levelOf {style : Style} {cols : Nat} (h : style.unit ∣ cols) :
    style.colsOf (style.levelOf cols) = cols := by
  obtain ⟨level, rfl⟩ := h
  have hcols : style.unit * level = style.colsOf level := Nat.mul_comm _ _
  rw [hcols, levelOf_colsOf]

end Style

theorem not_isIndent_head_trim (cs : List Char) : ∀ c ∈ (trim cs).head?, isIndent c = false := by
  intro c hc
  refine Bool.eq_false_iff.mpr fun hindent => ?_
  obtain ⟨tail, htail, -⟩ := dropEndWhile_append isSpace (trimStart cs)
  have hhead : (cs.dropWhile isSpace).head? = some c := by
    rw [← trimStart, ← htail, List.head?_append, ← trim, Option.mem_def.mp hc]
    rfl
  exact absurd (isSpace_of_isIndent hindent)
    (Bool.eq_false_iff.mp (head?_dropWhile_eq_false isSpace cs c hhead))

def Gridded (style : Style) (text : List Char) : Prop :=
  ∀ l ∈ scan text, l.isCodeLine = true → style.OnGrid l.raw

theorem not_isCodeLine_empty (mode : Mode) : (scanLine mode []).isCodeLine = false := by
  rw [ScannedLine.isCodeLine_scanLine]
  simp [Cursor.shows, Cursor.marks]

theorem onGrid_of_mem_scanFrom {style : Style} {out : List (List Char)}
    (h : ∀ m ∈ out, style.OnGrid m) (mode : Mode) :
    ∀ m ∈ scanFrom mode out, m.isCodeLine = true → style.OnGrid m.raw :=
  fun m hm _ => h m.raw (mem_scanFrom hm).2

/-- A rule that keeps the modes leaves a text on the grid if each of its steps puts lines of code on
the grid. -/
theorem gridded_walk {style : Style} {σ : Type} {rule : σ → ScannedLine → σ × Output}
    {text : List Char} {s : σ} (hkeeps : KeepsModes rule)
    (hnewline : ∀ m ∈ (walk rule s (scan text)).lines, '\n' ∉ m) (inv : σ → Prop)
    (hstep : ∀ s, ∀ l ∈ scan text, l = scanLine l.startsIn l.raw → inv s → inv (rule s l).1 ∧
      ∀ m ∈ scanFrom l.startsIn (rule s l).2.lines, m.isCodeLine = true → style.OnGrid m.raw)
    (hs : inv s) : Gridded style (unlines (walk rule s (scan text)).lines) := by
  intro l hl hcode
  rcases mem_scan_unlines hnewline hl with hl | rfl
  · exact hkeeps.forall_walk inv hstep hs l hl hcode
  · rw [not_isCodeLine_empty] at hcode
    cases hcode

/-- A line that stays is a line of code only if it was. -/
theorem onGrid_line {style : Style} {l : ScannedLine} (hline : l = scanLine l.startsIn l.raw)
    (h : l.isCodeLine = true → style.OnGrid l.raw) :
    ∀ m ∈ scanFrom l.startsIn [l.raw], m.isCodeLine = true → style.OnGrid m.raw := by
  intro m hm
  rw [scanFrom, scanFrom, List.mem_singleton, ← hline] at hm
  rw [hm]
  exact h

/-- Levels are put on the grid whatever the text. -/
theorem Levels.gridded_assign (style : Style) (text : List Char) :
    Gridded style (assign style text).text := by
  refine gridded_walk (keepsModes style)
    (newline_notMem_lines style _ text) (fun _ => True) ?_ trivial
  intro s l _ hline _
  refine ⟨trivial, ?_⟩
  rcases rule_lines style s l with ⟨hlines, hcode⟩ | ⟨-, hlines⟩ | ⟨level, hlines⟩
  · rw [hlines]
    exact onGrid_line hline fun h => absurd h (by rw [hcode]; exact Bool.false_ne_true)
  · rw [hlines]
    intro m hm hcode
    rw [scanFrom, scanFrom, List.mem_singleton] at hm
    rw [hm, not_isCodeLine_empty] at hcode
    cases hcode
  · rw [hlines]
    refine onGrid_of_mem_scanFrom ?_ _
    rintro m (_ | ⟨_, ⟨⟩⟩)
    exact Style.onGrid_place (style.unit_dvd_colsOf level) (head?_dropWhile_eq_false isIndent l.raw)

/-- Lines stay on the grid when they are put under their bindings. -/
theorem Scopes.gridded_align {style : Style} {text : List Char} (h : Gridded style text) :
    Gridded style (align style text).text := by
  refine gridded_walk (keepsModes style)
    (newline_notMem_lines style _ text)
    (Keeps (style.unit ∣ ·)) ?_ (keeps_initial _)
  intro s l hl hline hs
  rcases rule_cases style s l with hrule | ⟨hcode, binding, opener, column, rfl, hstate, hlines⟩
  · rw [hrule]
    exact ⟨hs, onGrid_line hline (h l hl)⟩
  · have hcolumn := hs.column style binding (h l hl hcode).unit_dvd
    rw [hstate]
    refine ⟨hs.after style binding opener hcolumn, ?_⟩
    rcases hlines with hlines | hlines
    · rw [hlines]
      exact onGrid_line hline (h l hl)
    · rw [hlines]
      refine onGrid_of_mem_scanFrom ?_ _
      rintro m (_ | ⟨_, ⟨⟩⟩)
      exact Style.onGrid_place hcolumn (head?_dropWhile_eq_false isIndent l.raw)

namespace Chains

structure OnGrid (style : Style) (s : Chains) : Prop where
  base : ∀ b ∈ s.base, style.unit ∣ b
  previous : ∀ p ∈ s.previous, style.unit ∣ p

variable {style : Style}

theorem onGrid_some {column : Nat} (h : style.unit ∣ column) :
    OnGrid style ⟨some column, some column⟩ := by
  refine ⟨fun b hb => ?_, fun p hp => ?_⟩
  · cases hb
    exact h
  · cases hp
    exact h

theorem OnGrid.joinColumn {s : Chains} (hs : s.OnGrid style) {cols : Nat}
    (hcols : style.unit ∣ cols) : style.unit ∣ s.joinColumn style cols := by
  unfold Chains.joinColumn
  cases hbase : s.base with
  | some b => exact hs.base b hbase
  | none =>
    cases hprevious : s.previous with
    | some p => exact Nat.dvd_add (hs.previous p hprevious) (style.unit_dvd_colsOf 1)
    | none => exact hcols

theorem unit_dvd_startColumn (head : Option (List Char)) {cols : Nat} (hcols : style.unit ∣ cols) :
    style.unit ∣ startColumn style head cols := by
  unfold startColumn
  split
  · exact Nat.dvd_add hcols (style.unit_dvd_colsOf 1)
  · exact hcols

/-- The head of a definition is the head that its code shows. -/
theorem definitionHead?_of_definition? {l : ScannedLine} {head : List Char}
    (h : definition? l = some head) : ∃ code, definitionHead? code = some head := by
  unfold definition? at h
  split at h
  · split at h
    · cases h
    · split at h
      · exact ⟨_, (Option.filter_eq_some_iff.mp h).1⟩
      · cases h
  · cases h

/-- The head of a definition does not begin with a blank, for it is a name or a bracket at least. -/
theorem trim_ne_nil_of_definition? {l : ScannedLine} {head : List Char}
    (h : definition? l = some head) : trim head ≠ [] := by
  obtain ⟨code, hcode⟩ := definitionHead?_of_definition? h
  intro hempty
  have hhead := (Option.filter_eq_some_iff.mp hcode).2
  rw [hempty] at hhead
  exact absurd hhead (by decide)

/-- The lines of a broken line stand on the grid if its columns do. -/
theorem Broken.onGrid {l : ScannedLine} {head : Option (List Char)} {column base : Nat}
    {first : List Char} {parts : List (Pipe × List Char)} {out : List (List Char)}
    (h : Broken style l head column base first parts out) (hcols : style.unit ∣ style.columns l.raw)
    (hcolumn : style.unit ∣ column) (hbase : style.unit ∣ base) : ∀ m ∈ out, style.OnGrid m := by
  have hpipe : ∀ (p : Pipe) (text more : List Char),
      ∀ c ∈ (Link.render ⟨some p, text⟩ ++ more).head?, isIndent c = false := by
    intro p text more c hc
    unfold Link.render at hc
    simp only at hc
    split at hc <;> cases p <;> cases hc <;> rfl
  intro m hm
  rcases h.mem_out hm with ⟨text, htext, rfl⟩ | rfl | ⟨q, -, rfl | rfl⟩
  · refine Style.onGrid_place hcols fun c hc => ?_
    have hfirst := not_isIndent_head_trim text
    obtain ⟨d, ds, hd⟩ :=
      List.exists_cons_of_ne_nil (trim_ne_nil_of_definition? (h.head_eq text htext))
    rw [hd] at hc hfirst
    exact hfirst c hc
  · exact Style.onGrid_place hcolumn (not_isIndent_head_trim first)
  · refine Style.onGrid_place hbase ?_
    rw [← List.append_nil (Link.render _)]
    exact hpipe q.1 (trim q.2) []
  · exact Style.onGrid_place hbase (hpipe q.1 (trim q.2) _)

/-- Chains are laid out at the columns of lines of code and at one or two levels more. -/
theorem gridded_layOut {text : List Char} (h : Gridded style text) :
    Gridded style (layOut style text).text := by
  refine gridded_walk (keepsModes style)
    (newline_notMem_lines style _ text)
    (OnGrid style) ?_ ⟨nofun, nofun⟩
  intro s l hmem hline hs
  rcases rule_cases style s (raw_eq_flatMap_text hmem) with hrule | ⟨hcode, hrule⟩ |
    ⟨hcode, base, rfl, hstate, hlines⟩ | ⟨hcode, column, rfl, hstate, first, parts, hbroken⟩
  · rw [hrule]
    exact ⟨hs, onGrid_line hline (h l hmem)⟩
  · rw [hrule]
    refine ⟨⟨fun b hb => ?_, fun p hp => ?_⟩, onGrid_line hline (h l hmem)⟩
    · exact hs.base b (Option.filter_eq_some_iff.mp hb).1
    · cases hp
      exact (h l hmem hcode).unit_dvd
  · have hcols := (h l hmem hcode).unit_dvd
    have hbase := hs.joinColumn hcols
    rw [hstate]
    refine ⟨onGrid_some hbase, onGrid_of_mem_scanFrom ?_ _⟩
    rcases hlines with hlines | ⟨first, parts, hbroken⟩
    · rw [hlines]
      rintro m (_ | ⟨_, ⟨⟩⟩)
      exact Style.onGrid_place hbase (head?_dropWhile_eq_false isIndent l.raw)
    · exact hbroken.onGrid hcols hbase hbase
  · have hcols := (h l hmem hcode).unit_dvd
    have hcolumn := unit_dvd_startColumn (definition? l) hcols
    have hbase := Nat.dvd_add hcolumn (style.unit_dvd_colsOf 1)
    rw [hstate]
    exact ⟨onGrid_some hbase, onGrid_of_mem_scanFrom (hbroken.onGrid hcols hcolumn hbase) _⟩

end Chains

/-- Lines stay on the grid when paragraphs are set apart. -/
theorem Paragraphs.gridded_separate {style : Style} {text : List Char} (h : Gridded style text) :
    Gridded style (separate text) := by
  refine gridded_walk keepsModes (newline_notMem_lines _ text)
    (fun _ => True) ?_ trivial
  intro s l hl hline _
  refine ⟨trivial, ?_⟩
  rcases rule_lines s l with ⟨-, hlines⟩ | ⟨-, -, hlines⟩ | ⟨hcode, -, hlines | hlines⟩
  · rw [hlines]
    exact onGrid_line hline (h l hl)
  · rw [hlines]
    exact nofun
  · rw [hlines]
    exact onGrid_line hline (h l hl)
  · rw [hlines]
    intro m hm hm'
    rw [scanFrom, List.mem_cons] at hm
    rcases hm with rfl | hm
    · rw [not_isCodeLine_empty] at hm'
      cases hm'
    · have hstart : l.startsIn = .code := of_decide_eq_true hcode
      rw [hstart] at hm
      refine onGrid_line hline (h l hl) m ?_ hm'
      rw [hstart]
      exact hm

/-- The end of a line does not change its indentation, unless the line is blank. -/
theorem Endings.gridded_trim {style : Style} {text : List Char} (h : Gridded style text) :
    Gridded style (trim text) := by
  intro m hm hcode
  rcases mem_scan_trim hm with ⟨l, hl, rfl⟩ | ⟨mode, rfl⟩
  · obtain ⟨tail, htail, hblank⟩ := line_append l
    have hspace : ∀ c ∈ tail, isSpace c = true := fun c hc => isSpace_of_isIndent (hblank c hc)
    -- the line shows nothing else than it did before
    have hcodeLine : l.isCodeLine = true := by
      rw [(mem_scan hl).1, ScannedLine.isCodeLine_scanLine, ← htail,
        Cursor.shows_append_space hspace]
      rwa [ScannedLine.isCodeLine_scanLine] at hcode
    -- so it is not blank, and its indentation is that of the whole line
    have hindent : (line l).takeWhile isIndent = l.raw.takeWhile isIndent := by
      rw [← htail, List.takeWhile_append, if_neg]
      intro hall
      have hself : (line l).takeWhile isIndent = line l :=
        (List.takeWhile_prefix isIndent).eq_of_length hall
      have hblanks : ∀ c ∈ line l, isSpace c = true := by
        intro c hc
        rw [← hself] at hc
        exact isSpace_of_mem_indent hc
      rw [ScannedLine.isCodeLine_scanLine, Cursor.shows_eq_false_of_isSpace _ hblanks,
        Bool.and_false] at hcode
      cases hcode
    exact (h l hl hcodeLine).congr hindent.symm
  · rw [not_isCodeLine_empty] at hcode
    cases hcode

theorem gridded_nextText (style : Style) (text : List Char) :
    Gridded style (nextText style text) := by
  -- the first two stages may leave lines anywhere
  have hlevels := Levels.gridded_assign style (Gaps.set (Margin.remove text).text)
  rw [nextText_eq]
  exact Endings.gridded_trim
    (Paragraphs.gridded_separate (Chains.gridded_layOut (Scopes.gridded_align hlevels)))

/-- In a formatted text every line of code stands at a whole number of levels. Its indentation is
what the style renders for its column: blanks only or tabs only. -/
theorem format_onGrid (style : Style) (text : List Char) :
    ∀ l ∈ scan (format style text), l.isCodeLine = true →
      l.raw.takeWhile isIndent = style.render (style.measure l.raw).1 ∧
        style.unit ∣ (style.measure l.raw).1 ∧
        ∀ c ∈ l.raw.takeWhile isIndent, c = if style.useSpaces then ' ' else '\t' := by
  intro l hl hcode
  have hgrid : style.OnGrid l.raw := by
    rcases format_cases style text with ⟨-, hempty⟩ | ⟨-, last, -, hpass⟩
    · rw [hempty] at hl
      rw [List.mem_singleton.mp hl, not_isCodeLine_empty] at hcode
      cases hcode
    · rw [hpass] at hl
      exact gridded_nextText style last l hl hcode
  exact ⟨hgrid.indent_eq, hgrid.unit_dvd, hgrid.mem_indent⟩

theorem format_onGrid_chain :
    (scanLine .code "\t\t|> g".toList ∈ scan (format (.clamped 4 false) "x=a|>f|>g".toList) ∧
        (scanLine .code "\t\t|> g".toList).isCodeLine = true) ∧
      "\t\t|> g".toList.takeWhile isIndent =
          (Style.clamped 4 false).render ((Style.clamped 4 false).measure "\t\t|> g".toList).1 ∧
        (Style.clamped 4 false).unit ∣ ((Style.clamped 4 false).measure "\t\t|> g".toList).1 ∧
        ∀ c ∈ "\t\t|> g".toList.takeWhile isIndent,
          c = if (Style.clamped 4 false).useSpaces then ' ' else '\t' :=
  ⟨⟨by decide +kernel, by decide +kernel⟩,
    format_onGrid (.clamped 4 false) "x=a|>f|>g".toList (scanLine .code "\t\t|> g".toList)
      (by decide +kernel) (by decide +kernel)⟩

end ScratchFormat
