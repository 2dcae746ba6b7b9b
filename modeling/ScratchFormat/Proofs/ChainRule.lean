import ScratchFormat.Proofs.LinkLines

/-! What the rule for chains does with a line, and how the lines that it puts out are read. Whatever
the text, no line of code that comes out of it has more than one pipe. -/

namespace ScratchFormat

namespace Chains

inductive Laid (style : Style) (s : Chains) (l : ScannedLine) : Chains → List (List Char) → Prop
  | kept (hcode : l.isCodeLine = false) : Laid style s l s [l.raw]
  | plain (hcode : l.isCodeLine = true) (hstart : l.startsWithPipe = false)
    (hfew : l.pipes.length ≤ 1) :
    Laid style s l ⟨s.base.filter (· < style.columns l.raw), some (style.columns l.raw)⟩ [l.raw]
  | joined {base : Nat} (hcode : l.isCodeLine = true) (hstart : l.startsWithPipe = true)
    (hfew : l.pipes.length ≤ 1) (hbase : base = s.joinColumn style (style.columns l.raw)) :
    Laid style s l ⟨some base, some base⟩ [style.place base (l.raw.dropWhile isIndent)]
  | continued {base : Nat} {first : List Char} {parts : List (Pipe × List Char)}
    {out : List (List Char)}
    (hcode : l.isCodeLine = true) (hstart : l.startsWithPipe = true) (hmany : 1 < l.pipes.length)
    (hbase : base = s.joinColumn style (style.columns l.raw))
      (h : Broken style l none base base first parts out) :
    Laid style s l ⟨some base, some base⟩ out
  | broken {column base : Nat} {first : List Char} {parts : List (Pipe × List Char)}
    {out : List (List Char)}
    (hcode : l.isCodeLine = true) (hstart : l.startsWithPipe = false) (hmany : 1 < l.pipes.length)
    (hcolumn : column = startColumn style (definition? l) (style.columns l.raw))
    (hbase : base = column + style.colsOf 1)
    (hlinks : brokenLinks? l (definition? l) = some (linksOf none first parts))
    (h : Broken style l (definition? l) column base first parts out) :
    Laid style s l ⟨some base, some base⟩ out

/-- Every line is laid out in one of the ways that `Laid` lists. -/
theorem laid_rule (style : Style) (s : Chains) {l : ScannedLine}
    (hl : l.raw = l.segments.flatMap Segment.text) :
    Laid style s l (rule style s l).1 (rule style s l).2.lines := by
  unfold rule
  split
  · rename_i hcode
    apply Laid.kept
    simpa using hcode
  rename_i hcode
  have hcode : l.isCodeLine = true := by simpa using hcode
  split
  · rename_i hstart
    obtain ⟨hstate, ⟨hfew, hlines⟩ | ⟨hmany, first, parts, hbroken⟩⟩ :=
      continueChain_cases style s hl rfl
    · rw [hstate, hlines]
      exact .joined hcode hstart hfew rfl
    · rw [hstate]
      exact .continued hcode hstart hmany rfl hbroken
  rename_i hstart
  have hstart : l.startsWithPipe = false := by simpa using hstart
  split
  · rename_i hfew
    exact .plain hcode hstart (by omega)
  · obtain ⟨hstate, first, parts, hlinks, hbroken⟩ :=
      breakChain_cases style hl (List.ne_nil_of_length_pos (by omega)) rfl
    rw [hstate]
    exact .broken hcode hstart (by omega) rfl rfl hlinks hbroken

section Place

variable (style : Style) (cols : Nat) (text : List Char)

theorem isCodeLine_place :
    (scanLine .code (style.place cols text)).isCodeLine = (scanLine .code text).isCodeLine :=
  ScannedLine.isCodeLine_space_append (fun _ hc => isSpace_of_mem_render hc) text

theorem startsWithPipe_place :
    (scanLine .code (style.place cols text)).startsWithPipe =
      (scanLine .code text).startsWithPipe :=
  ScannedLine.startsWithPipe_space_append (fun _ hc => isSpace_of_mem_render hc) text

theorem length_pipes_place :
    (scanLine .code (style.place cols text)).pipes.length = (scanLine .code text).pipes.length := by
  rw [Style.place, ScannedLine.pipes_space_append fun _ hc => isSpace_of_mem_render hc,
    List.length_map]

end Place

/-- Without its indentation a line of code has as many pipes. -/
theorem length_pipes_dropWhile (raw : List Char) :
    (scanLine .code (raw.dropWhile isIndent)).pipes.length = (scanLine .code raw).pipes.length := by
  conv => rhs; rw [← List.takeWhile_append_dropWhile (p := isIndent) (l := raw)]
  rw [ScannedLine.pipes_space_append fun _ hc => isSpace_of_mem_indent hc, List.length_map]

/-- No line of a broken line has more than one pipe. -/
theorem Broken.pipes_le_one {style : Style} {raw : List Char} {head : Option (List Char)}
    {column base : Nat} {first : List Char} {parts : List (Pipe × List Char)}
    {out : List (List Char)}
    (h : Broken style (scanLine .code raw) head column base first parts out) :
    ∀ m ∈ out, (scanLine .code m).pipes.length ≤ 1 := by
  intro m hm
  rw [h.out_eq, linkLines_eq_map, List.mem_append, List.mem_append] at hm
  rcases hm with hm | hm | hm
  · cases hhead : head with
    | none =>
      rw [hhead] at hm
      cases hm
    | some text =>
      subst hhead
      obtain rfl := List.mem_singleton.mp hm
      rw [length_pipes_place, h.headLine.2]
      exact Nat.zero_le 1
  · split at hm
    · cases hm
    · obtain rfl := List.mem_singleton.mp hm
      rw [length_pipes_place]
      exact h.pipes_first_le
  · obtain ⟨text, htext, rfl⟩ := List.mem_map.mp hm
    rw [length_pipes_place]
    exact Nat.le_of_eq (h.isLink text htext).one

/-- The rule puts out lines of code with at most one pipe. -/
theorem Laid.pipes_le_one {style : Style} {s s' : Chains} {mode : Mode} {raw : List Char}
    {out : List (List Char)} (h : Laid style s (scanLine mode raw) s' out) :
    ∀ m ∈ scanFrom mode out, m.isCodeLine = true → m.pipes.length ≤ 1 := by
  -- a line of code starts in code, so its pipes are those of its text
  have hscan : (∀ t ∈ out, (scanLine .code t).pipes.length ≤ 1) →
      ∀ m ∈ scanFrom mode out, m.isCodeLine = true → m.pipes.length ≤ 1 := by
    intro hout m hm hcode
    obtain ⟨hline, hraw⟩ := mem_scanFrom hm
    rw [hline] at hcode ⊢
    rw [mode_of_isCodeLine hcode]
    exact hout m.raw hraw
  cases h with
  | kept hcode =>
    intro m hm hm'
    obtain rfl := List.mem_singleton.mp hm
    exact absurd (hcode.symm.trans hm') (by decide)
  | plain hcode hstart hfew =>
    intro m hm _
    obtain rfl := List.mem_singleton.mp hm
    exact hfew
  | joined hcode hstart hfew hbase =>
    obtain rfl := mode_of_isCodeLine hcode
    apply hscan
    intro t ht
    obtain rfl := List.mem_singleton.mp ht
    rw [length_pipes_place, length_pipes_dropWhile]
    exact hfew
  | continued hcode hstart hmany hbase hbroken =>
    obtain rfl := mode_of_isCodeLine hcode
    exact hscan hbroken.pipes_le_one
  | broken hcode hstart hmany hcolumn hbase hlinks hbroken =>
    obtain rfl := mode_of_isCodeLine hcode
    exact hscan hbroken.pipes_le_one

/-- Once the chains of a text are broken, no line of code has more than one pipe. -/
theorem layOut_pipes_le_one (style : Style) (text : List Char) :
    ∀ m ∈ scan (layOut style text).text, m.isCodeLine = true → m.pipes.length ≤ 1 := by
  intro m hm hcode
  rcases mem_scan_unlines (newline_notMem_lines style initial text) hm with hm | rfl
  · have hwalk : ∀ m ∈ scanFrom .code (walk (rule style) initial (scan text)).lines,
        m.isCodeLine = true → m.pipes.length ≤ 1 := by
      refine (keepsModes style).forall_walk (fun _ => True) ?_ trivial
      intro s l hl hline _
      refine ⟨trivial, ?_⟩
      have hlaid := laid_rule style s (raw_eq_flatMap_text hl)
      rw [hline] at hlaid
      rw [hline]
      exact hlaid.pipes_le_one
    exact hwalk m hm hcode
  · exact absurd hcode (by decide)

/-- A definition with two pipes is broken, and its first link comes to stand on a line with one
pipe. -/
theorem layOut_pipes_le_one_definition :
    scanLine .code "    |> g".toList ∈ scan (layOut .standard "x = f |> g |> h".toList).text ∧
      (scanLine .code "    |> g".toList).isCodeLine = true ∧
        (scanLine .code "    |> g".toList).pipes.length ≤ 1 := by
  have hmem :
      scanLine .code "    |> g".toList ∈ scan (layOut .standard "x = f |> g |> h".toList).text := by
    decide +kernel
  have hcode : (scanLine .code "    |> g".toList).isCodeLine = true := by decide +kernel
  exact ⟨hmem, hcode, layOut_pipes_le_one .standard "x = f |> g |> h".toList _ hmem hcode⟩

end Chains

end ScratchFormat
