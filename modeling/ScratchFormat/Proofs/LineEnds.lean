import ScratchFormat.Proofs.Broken
import ScratchFormat.Proofs.Settling

/-! Line ends. A carriage return is joined with the line feed behind it before the stages run, and
only then. Blanks at the end of a line are cut off later, so what counts is the last character of a
line that is neither a space nor a tab: no stage makes that a carriage return. -/

namespace ScratchFormat

/-- The last character of a line, its spaces and tabs apart. -/
def tip (l : List Char) : Option Char := (without isIndent l).getLast?

theorem tip_append (as bs : List Char) : tip (as ++ bs) = (tip bs).or (tip as) := by
  rw [tip, without_append, List.getLast?_append]
  rfl

theorem tip_eq_none {cs : List Char} (h : ∀ c ∈ cs, isIndent c = true) : tip cs = none := by
  rw [tip, without_eq_nil h]
  rfl

theorem tip_indent_append {as : List Char} (h : ∀ c ∈ as, isIndent c = true) (bs : List Char) :
    tip (as ++ bs) = tip bs := by
  rw [tip_append, tip_eq_none h, Option.or_none]

theorem tip_blank_cons (cs : List Char) : tip (' ' :: cs) = tip cs :=
  tip_indent_append (List.forall_mem_singleton.mpr rfl) cs

theorem tip_append_indent (as : List Char) {bs : List Char} (h : ∀ c ∈ bs, isIndent c = true) :
    tip (as ++ bs) = tip as := by
  rw [tip_append, tip_eq_none h, Option.none_or]

theorem tip_concat (as : List Char) {c : Char} (h : isIndent c = false) :
    tip (as ++ [c]) = some c := by
  have hsingle : tip [c] = some c := by simp [tip, without, h]
  rw [tip_append, hsingle, Option.some_or]

theorem tip_dropWhile_isIndent (cs : List Char) : tip (cs.dropWhile isIndent) = tip cs := by
  rw [tip, without_dropWhile fun _ h => h]
  rfl

theorem tip_place (style : Style) (cols : Nat) (rest : List Char) :
    tip (style.place cols rest) = tip rest :=
  tip_indent_append (fun _ hc => isIndent_of_mem_render hc) rest

/-- A line that ends with a carriage return, if not with blanks behind it. -/
def EndsInReturn (l : List Char) : Prop := tip l = some '\r'

/-- What is put behind a line that does not end with a carriage return must itself end with one to
change that. -/
theorem EndsInReturn.of_append {as bs : List Char} (h : EndsInReturn (as ++ bs)) :
    EndsInReturn bs ∨ tip bs = none ∧ EndsInReturn as := by
  rw [EndsInReturn, tip_append] at h
  cases hbs : tip bs with
  | none => exact .inr ⟨rfl, by rwa [hbs, Option.none_or] at h⟩
  | some c => exact .inl (by rwa [hbs, Option.some_or, ← hbs] at h)

theorem EndsInReturn.append_left {bs : List Char} (h : EndsInReturn bs) (as : List Char) :
    EndsInReturn (as ++ bs) := by
  rw [EndsInReturn, tip_append, h, Option.some_or]

theorem not_endsInReturn_nil : ¬ EndsInReturn [] := nofun

/-- A trimmed text ends with a character that is not white space. -/
theorem not_endsInReturn_trim (cs : List Char) : ¬ EndsInReturn (trim cs) := by
  intro h
  unfold trim dropEndWhile at h
  have hhead := head?_dropWhile_eq_false isSpace (trimStart cs).reverse
  cases hdrop : (trimStart cs).reverse.dropWhile isSpace with
  | nil =>
    rw [hdrop] at h
    exact not_endsInReturn_nil h
  | cons c ds =>
    rw [hdrop, List.head?_cons] at hhead
    have hsolid : isSpace c = false := hhead c rfl
    have hindent : isIndent c = false := by
      rw [Bool.eq_false_iff]
      exact fun hc => absurd (isSpace_of_isIndent hc) (Bool.eq_false_iff.mp hsolid)
    rw [hdrop, EndsInReturn, List.reverse_cons, tip_concat _ hindent, Option.some.injEq] at h
    subst h
    exact absurd hsolid (by decide)

def Clean (text : List Char) : Prop := ∀ l ∈ lines text, ¬ EndsInReturn l

theorem clean_unlines {ls : List (List Char)} (hnewline : ∀ l ∈ ls, '\n' ∉ l)
    (h : ∀ l ∈ ls, ¬ EndsInReturn l) : Clean (unlines ls) := by
  by_cases hne : ls = []
  · subst hne
    intro l hl
    rw [List.mem_singleton.mp hl]
    exact not_endsInReturn_nil
  · rw [Clean, lines_unlines hne hnewline]
    exact h

/-- A text in which a line feed follows a carriage return is not clean. -/
theorem Clean.not_returnFeed {text : List Char} (h : Clean text) : ¬ ['\r', '\n'] <:+: text := by
  rintro ⟨before, behind, rfl⟩
  -- the last line of what ends with the carriage return ends with it
  have hlast : ∀ as : List Char, ∃ l ∈ lines (as ++ ['\r']), EndsInReturn l := by
    intro as
    induction as with
    | nil => exact ⟨['\r'], by decide, by unfold EndsInReturn; decide⟩
    | cons a as ih =>
      obtain ⟨l, hl, hreturn⟩ := ih
      by_cases ha : a = '\n'
      · subst ha
        rw [List.cons_append, lines_newline]
        exact ⟨l, List.mem_cons_of_mem _ hl, hreturn⟩
      · obtain ⟨m, ms, hms, hall⟩ := lines_cons_of_ne ha (as ++ ['\r'])
        rw [List.cons_append, hall]
        rw [hms, List.mem_cons] at hl
        rcases hl with rfl | hl
        · exact ⟨a :: l, List.mem_cons_self, hreturn.append_left [a]⟩
        · exact ⟨l, List.mem_cons_of_mem _ hl, hreturn⟩
  obtain ⟨l, hl, hreturn⟩ := hlast before
  have hsplit : before ++ ['\r', '\n'] ++ behind = (before ++ ['\r']) ++ '\n' :: behind := by simp
  rw [hsplit, Clean, lines_append] at h
  exact h l (List.mem_append_left _ hl) hreturn

theorem Clean.scan_map {text : List Char} (h : Clean text) {f : ScannedLine → List Char}
    (hnewline : ∀ l ∈ scan text, '\n' ∉ f l)
    (hf : ∀ l ∈ scan text, EndsInReturn (f l) → EndsInReturn l.raw) :
    Clean (unlines ((scan text).map f)) := by
  rw [Clean, lines_unlines_map_scan hnewline]
  intro m hm hreturn
  obtain ⟨l, hl, rfl⟩ := List.mem_map.mp hm
  exact h l.raw (mem_scan hl).2 (hf l hl hreturn)

theorem Margin.clean_remove {text : List Char} (h : Clean text) : Clean (remove text).text := by
  rcases remove_cases text with hsame | ⟨margin, hmargin, hstrip⟩
  · rwa [hsame]
  · rw [hstrip]
    apply h.scan_map fun l hl => newline_notMem_strip hmargin hl
    intro l _ hreturn
    obtain ⟨front, hfront, -⟩ := strip_append hmargin l
    rw [← hfront]
    exact hreturn.append_left front

namespace Gaps

/-- Where nothing stands behind a marker, the line ends with the marker. -/
theorem endsInReturn_codeLine {role : Role} {head : List Char} {later : List Segment}
    (h : EndsInReturn (codeLine role head later)) :
    EndsInReturn (head ++ later.flatMap Segment.text) := by
  obtain ⟨marker, rest, rfl, hmarker, hline⟩ := without_codeLine (fun _ h => h) role head later
  have htip : EndsInReturn (marker ++ (if marker = [] then rest else trimStart rest) ++
      later.flatMap Segment.text) := by
    rwa [EndsInReturn, tip, without_append, without_append, ← hline]
  rcases htip.of_append with hlater | ⟨hnone, hhead⟩
  · exact hlater.append_left _
  · -- the later segments are blank, so the head ends the line
    rw [EndsInReturn, tip_append, hnone, Option.none_or]
    rcases hhead.of_append with hrest | ⟨-, hreturn⟩
    · split at hrest
      · exact hrest.append_left marker
      · have hdrop : rest.takeWhile isSpace ++ trimStart rest = rest :=
          List.takeWhile_append_dropWhile
        rw [← hdrop]
        exact (hrest.append_left _).append_left marker
    · rcases hmarker with rfl | rfl | rfl
      · exact absurd hreturn not_endsInReturn_nil
      · exact absurd hreturn (by unfold EndsInReturn; decide)
      · exact absurd hreturn (by unfold EndsInReturn; decide)

/-- A line ends with a carriage return only if it did before its gaps were set. -/
theorem endsInReturn_line {l : ScannedLine} (hl : l.raw = l.segments.flatMap Segment.text)
    (h : EndsInReturn (line l)) : EndsInReturn l.raw := by
  have hsegments : without isIndent (segments [] l.segments).reverse = without isIndent l.raw := by
    rw [without_reverse, without_segments fun _ h => h, without_reverse, ← hl]
    simp
  have hwhole : EndsInReturn (segments [] l.segments).reverse → EndsInReturn l.raw := by
    intro hreturn
    rwa [EndsInReturn, tip, hsegments] at hreturn
  unfold line at h
  split at h
  · exact h
  split at h
  · exact hwhole h
  dsimp only at h
  split at h
  · exact h
  split at h
  · exact h
  · rename_i first later hss
    split at h
    · rw [hl, hss, List.flatMap_cons]
      rcases h.of_append with hcode | ⟨-, hindent⟩
      · have hfirst : first.text = first.text.takeWhile isIndent ++ first.text.dropWhile isIndent :=
          List.takeWhile_append_dropWhile.symm
        rw [hfirst, List.append_assoc]
        exact (endsInReturn_codeLine hcode).append_left _
      · have hnone : tip (first.text.takeWhile isIndent) = none :=
          tip_eq_none fun c hc => List.all_eq_true.mp List.all_takeWhile c hc
        rw [EndsInReturn, hnone] at hindent
        cases hindent
    · exact hwhole h

theorem clean_set {text : List Char} (h : Clean text) : Clean (set text) :=
  h.scan_map (fun _ hl => newline_notMem_line hl) fun _ hl =>
    endsInReturn_line (raw_eq_flatMap_text hl)

end Gaps

theorem Clean.walk {σ : Type} {rule : σ → ScannedLine → σ × Output} {s : σ} {text : List Char}
    (h : Clean text) (hnewline : ∀ m ∈ (ScratchFormat.walk rule s (scan text)).lines, '\n' ∉ m)
    (hrule : ∀ s, ∀ l ∈ scan text, ∀ m ∈ (rule s l).2.lines, EndsInReturn m → EndsInReturn l.raw) :
    Clean (unlines (ScratchFormat.walk rule s (scan text)).lines) := by
  refine clean_unlines hnewline fun m hm hreturn => ?_
  obtain ⟨s', l, hl, hm⟩ := mem_walk_lines hm
  exact h l.raw (mem_scan hl).2 (hrule s' l hl m hm hreturn)

theorem endsInReturn_place {style : Style} {cols : Nat} {raw : List Char}
    (h : EndsInReturn (style.place cols (raw.dropWhile isIndent))) : EndsInReturn raw := by
  rwa [EndsInReturn, tip_place, tip_dropWhile_isIndent] at h

/-- Levels keep carriage returns away from the ends of lines. -/
theorem Levels.clean_assign {style : Style} {text : List Char} (h : Clean text) :
    Clean (assign style text).text := by
  refine h.walk (newline_notMem_lines style _ text) ?_
  intro s l _ m hm hreturn
  rcases rule_lines style s l with ⟨hlines, -⟩ | ⟨-, hlines⟩ | ⟨level, hlines⟩
  · rw [hlines, List.mem_singleton] at hm
    exact hm ▸ hreturn
  · rw [hlines, List.mem_singleton] at hm
    exact absurd (hm ▸ hreturn) not_endsInReturn_nil
  · rw [hlines, List.mem_singleton] at hm
    exact endsInReturn_place (hm ▸ hreturn)

/-- Scopes keep carriage returns away from the ends of lines. -/
theorem Scopes.clean_align {style : Style} {text : List Char} (h : Clean text) :
    Clean (align style text).text := by
  refine h.walk (newline_notMem_lines style _ text) ?_
  intro s l _ m hm hreturn
  rcases rule_cases style s l with hrule | ⟨-, -, -, column, -, -, hlines | hlines⟩
  · rw [hrule] at hm
    exact List.mem_singleton.mp hm ▸ hreturn
  · rw [hlines, List.mem_singleton] at hm
    exact hm ▸ hreturn
  · rw [hlines, List.mem_singleton] at hm
    exact endsInReturn_place (hm ▸ hreturn)

/-- Paragraphs keep carriage returns away from the ends of lines. -/
theorem Paragraphs.clean_separate {text : List Char} (h : Clean text) : Clean (separate text) := by
  refine h.walk (newline_notMem_lines _ text) ?_
  intro s l _ m hm hreturn
  rcases rule_lines s l with ⟨-, hlines⟩ | ⟨-, -, hlines⟩ | ⟨-, -, hlines | hlines⟩
  · rw [hlines, List.mem_singleton] at hm
    exact hm ▸ hreturn
  · rw [hlines] at hm
    cases hm
  · rw [hlines, List.mem_singleton] at hm
    exact hm ▸ hreturn
  · rw [hlines, List.mem_cons, List.mem_singleton] at hm
    rcases hm with rfl | rfl
    · exact absurd hreturn not_endsInReturn_nil
    · exact hreturn

namespace Chains

/-- No link ends with a carriage return, because its text is trimmed. -/
theorem not_endsInReturn_render (p : Pipe) (text : List Char) :
    ¬ EndsInReturn (Link.render ⟨some p, trim text⟩) := by
  have hpipe : ¬ EndsInReturn p.text := by
    unfold EndsInReturn
    cases p <;> decide
  unfold Link.render
  simp only
  split
  · exact hpipe
  · intro h
    rcases h.of_append with hbehind | ⟨-, hreturn⟩
    · rw [EndsInReturn, tip_blank_cons] at hbehind
      exact not_endsInReturn_trim text hbehind
    · exact hpipe hreturn

/-- The lines of a broken line end with what is not white space, but for the last, which ends with
the comment of the line if there is one. -/
theorem Broken.endsInReturn {style : Style} {l : ScannedLine} {head : Option (List Char)}
    {column base : Nat} {first : List Char} {parts : List (Pipe × List Char)}
    {out : List (List Char)} (h : Broken style l head column base first parts out) :
    ∀ m ∈ out, EndsInReturn m → EndsInReturn l.raw := by
  intro m hm hreturn
  rcases h.mem_out hm with ⟨text, -, rfl⟩ | rfl | ⟨q, -, rfl | rfl⟩
  · have hequals : tip (trim text ++ " =".toList) = some '=' := by
      rw [tip_append]
      rfl
    rw [EndsInReturn, tip_place, hequals] at hreturn
    cases hreturn
  · rw [EndsInReturn, tip_place] at hreturn
    exact absurd hreturn (not_endsInReturn_trim first)
  · rw [EndsInReturn, tip_place] at hreturn
    exact absurd hreturn (not_endsInReturn_render q.1 q.2)
  · rw [EndsInReturn, tip_place] at hreturn
    rcases EndsInReturn.of_append hreturn with hcomment | ⟨-, hrender⟩
    · have hraw := h.raw_eq
      cases hc : l.trailingComment? with
      | none =>
        rw [hc] at hcomment
        exact absurd hcomment not_endsInReturn_nil
      | some comment =>
        rw [hc, EndsInReturn, Option.elim_some, tip_blank_cons] at hcomment
        rw [hraw, hc]
        exact (EndsInReturn.append_left hcomment _).append_left _
    · exact absurd hrender (not_endsInReturn_render q.1 q.2)

/-- Laying out chains keeps carriage returns away from the ends of lines. -/
theorem clean_layOut {style : Style} {text : List Char} (h : Clean text) :
    Clean (layOut style text).text := by
  refine h.walk (newline_notMem_lines style _ text) ?_
  intro s l hl m hm hreturn
  rcases rule_cases style s (raw_eq_flatMap_text hl) with hrule | ⟨-, hrule⟩ |
    ⟨-, base, -, -, hlines | ⟨first, parts, hbroken⟩⟩ | ⟨-, column, -, -, first, parts, hbroken⟩
  · rw [hrule] at hm
    exact List.mem_singleton.mp hm ▸ hreturn
  · rw [hrule] at hm
    exact List.mem_singleton.mp hm ▸ hreturn
  · rw [hlines, List.mem_singleton] at hm
    exact endsInReturn_place (hm ▸ hreturn)
  · exact hbroken.endsInReturn m hm hreturn
  · exact hbroken.endsInReturn m hm hreturn

end Chains

/-- Trimming keeps carriage returns away from the ends of lines. -/
theorem Endings.clean_trim {text : List Char} (h : Clean text) : Clean (trim text) := by
  intro m hm hreturn
  rw [← scan_map_raw] at hm
  obtain ⟨k, hk, rfl⟩ := List.mem_map.mp hm
  rcases mem_scan_trim hk with ⟨l, hl, rfl⟩ | ⟨mode, rfl⟩
  · obtain ⟨tail, htail, hblank⟩ := line_append l
    apply h l.raw (mem_scan hl).2
    rw [← htail, EndsInReturn, tip_append_indent _ hblank]
    exact hreturn
  · exact not_endsInReturn_nil hreturn

theorem clean_nextText (style : Style) {text : List Char} (h : Clean text) :
    Clean (nextText style text) := by
  rw [nextText_eq]
  apply Endings.clean_trim
  apply Paragraphs.clean_separate
  apply Chains.clean_layOut
  apply Scopes.clean_align
  apply Levels.clean_assign
  apply Gaps.clean_set
  exact Margin.clean_remove h

theorem clean_iterate (style : Style) (n : Nat) {text : List Char} (h : Clean text) :
    Clean ((nextText style)^[n] text) := by
  induction n generalizing text with
  | zero => exact h
  | succ n ih => exact ih (clean_nextText style h)

/-- A formatted text has no carriage return before a line feed if no line of the text ends with one
once its line ends are joined, whether blanks follow there or not. -/
theorem format_lineEnds (style : Style) (text : List Char)
    (h : ∀ l ∈ lines (joinLineEnds text), tip l ≠ some '\r') :
    ¬ ['\r', '\n'] <:+: format style text := by
  by_cases hblank : isBlankText text = true
  · rcases format_cases style text with ⟨-, hempty⟩ | ⟨hsolid, -⟩
    · rw [hempty]
      decide
    · rw [hblank] at hsolid
      cases hsolid
  · rw [format_eq_iterate_joinLineEnds hblank]
    exact (clean_iterate style maxPasses h).not_returnFeed

theorem format_lineEnds_inner :
    (∀ l ∈ lines (joinLineEnds "x=\"a\rb\" \r\n\ty = 2\r\n".toList), tip l ≠ some '\r') ∧
      ¬ ['\r', '\n'] <:+: format .standard "x=\"a\rb\" \r\n\ty = 2\r\n".toList :=
  ⟨by decide, format_lineEnds .standard "x=\"a\rb\" \r\n\ty = 2\r\n".toList (by decide)⟩

/-- A second carriage return, blanks that are cut off behind one, and the line feed that is put at
the end of the text: each brings a carriage return before a line feed that was not there when line
ends were joined. -/
theorem format_lineEnds_repeated :
    format .standard "x = 1\r\r\n".toList = "x = 1\r\n".toList ∧
      format .standard "x = 1\r \ny = 2".toList = "x = 1\r\n\ny = 2\n".toList ∧
      format .standard "x = 1\r".toList = "x = 1\r\n".toList ∧
      ['\r', '\n'] <:+: format .standard "x = 1\r\r\n".toList := by
  refine ⟨by decide +kernel, by decide +kernel, by decide +kernel, ?_⟩
  exact ⟨"x = 1".toList, [], by decide +kernel⟩

end ScratchFormat
