import ScratchFormat.Format
import ScratchFormat.Proofs.Links
import ScratchFormat.Proofs.Margin
import ScratchFormat.Proofs.Operators

/-! No stage loses, repeats, changes or reorders a character that is not white space. The gaps of
code are made of spaces and tabs alone, so there the same holds of every other character. -/

namespace ScratchFormat

namespace Gaps

section Without

variable {p : Char → Bool} (hp : ∀ c, isIndent c = true → p c = true)
include hp

/-- A gap takes or adds white space only. -/
theorem without_before (out : List Char) : without p (before out) = without p out := by
  rw [before, ← without_dropWhile hp out]
  split
  · rename_i h
    rw [h]
  · rename_i h
    rw [h]
    split
    · rfl
    · exact without_cons_of_mem (hp ' ' rfl) _

theorem without_after (more : Bool) (rest out : List Char) :
    without p (after more rest out) = without p out := by
  unfold after
  split
  · split
    · exact without_cons_of_mem (hp ' ' rfl) _
    · rfl
  · split
    · rfl
    · exact without_cons_of_mem (hp ' ' rfl) _

theorem without_binary (more : Bool) (text rest out : List Char) :
    without p (binary more text rest out) = without p text.reverse ++ without p out := by
  rw [binary, without_after hp, without_append, without_before hp]

/-- The blanks that are used up behind a text add nothing to it. -/
theorem without_take_blanks (text rest : List Char) :
    without p ((text ++ rest).take (text.length + (rest.takeWhile isIndent).length)).reverse =
      without p text.reverse := by
  have htake : rest.take (rest.takeWhile isIndent).length = rest.takeWhile isIndent :=
    (List.prefix_iff_eq_take.mp (List.takeWhile_prefix _)).symm
  rw [List.take_length_add_append, htake, List.reverse_append, without_append, without_reverse,
    without_takeWhile hp]
  rfl

/-- The operators of a run keep their characters. -/
theorem without_operators (more : Bool) (ops : List Operator) (later out : List Char) :
    let rest := ops.flatMap Operator.text ++ later
    let r := operators more rest out ops
    without p r.1 = without p (rest.take r.2).reverse ++ without p out := by
  induction ops generalizing out with
  | nil => simp [operators]
  | cons op ops ih =>
    have hdrop : (op.text ++ (ops.flatMap Operator.text ++ later)).drop op.text.length =
        ops.flatMap Operator.text ++ later := List.drop_left
    simp only [List.flatMap_cons, List.append_assoc, operators, hdrop]
    split
    · simp only [ih, List.take_length_add_append, List.reverse_append, without_append,
        List.append_assoc]
    · split
      · simp only [without_binary hp, without_take_blanks hp]
      · simp only [ih, List.take_length_add_append, List.reverse_append, without_append,
          List.append_assoc, without_cons_of_mem (hp ' ' rfl), without_before hp]

/-- One place puts out the characters that it uses up, some blanks apart. -/
theorem without_place (more : Bool) (special : Option Nat) (front : List Char) (c : Char)
    (cs out : List Char) :
    let r := place more special front c cs out
    without p r.1 = without p (c :: cs.take r.2).reverse ++ without p out := by
  have hblanks : without p (c :: cs.take (cs.takeWhile isIndent).length).reverse =
      without p [c] := by
    have h := without_take_blanks hp [c] cs
    rwa [List.length_singleton, Nat.add_comm, List.singleton_append, List.take_succ_cons] at h
  by_cases hs : special = some 0
  · simp only [place, if_pos hs, without_binary hp, hblanks, List.reverse_singleton]
  by_cases hc : c = ','
  · simp only [place, if_neg hs, if_pos hc, without_after hp, hblanks]
    rw [without_cons, without_dropWhile hp, hc]
  by_cases hop : isOperatorChar c = true
  · obtain ⟨rest, hrest, hplace⟩ := place_operator more front cs out hs hc hop
    rw [hplace]
    split
    · have htake : cs.take (runAfter special cs).length = runAfter special cs :=
        (List.prefix_iff_eq_take.mp (runAfter_front special cs)).symm
      simp only [htake, without_append]
    · rename_i ops hops
      obtain ⟨-, hflat, -⟩ := splitRun?_flatMap_text hops
      have hcs : ops.flatMap Operator.text ++ rest = c :: cs := by
        rw [hflat, List.drop_zero, List.cons_append, ← hrest]
      have h := without_operators hp more ops rest out
      simp only [hcs] at h
      have hpos : 0 < (operators more (c :: cs) out ops).2 := by
        have hlen := length_le_operators more ops (c :: cs) out
        rw [hflat, List.drop_zero, List.length_cons] at hlen
        omega
      obtain ⟨n, hn⟩ := Nat.exists_eq_succ_of_ne_zero (Nat.ne_of_gt hpos)
      rw [hn] at h
      simp only [h, hn, Nat.succ_sub_one, List.take_succ_cons]
  · simp only [place, if_neg hs, if_neg hc, if_neg hop, List.take_zero, List.reverse_singleton,
      ← without_cons]

/-- Code keeps all characters but white space. -/
theorem without_code (more : Bool) (special : Option Nat) (owed : Nat) (front out cs : List Char) :
    without p (code more special owed front out cs) = without p (cs.drop owed).reverse ++
      without p out := by
  induction cs generalizing special owed front out with
  | nil => simp [code]
  | cons c cs ih =>
    cases owed with
    | succ n => rw [code, ih, List.drop_succ_cons]
    | zero =>
      rw [code, ih, without_place hp, ← List.append_assoc, ← without_append, ← List.reverse_append,
        List.cons_append, List.take_append_drop, List.drop_zero]

theorem without_segments (out : List Char) (ss : List Segment) :
    without p (segments out ss) = without p (ss.flatMap Segment.text).reverse ++ without p out := by
  induction ss generalizing out with
  | nil => rfl
  | cons s ss ih =>
    rw [segments, List.flatMap_cons, List.reverse_append, without_append, List.append_assoc]
    split
    · rw [ih, without_code hp, List.drop_zero]
    · rw [ih, without_append]

/-- A line of code puts out what it begins with, a marker or nothing, then the rest, for which white
space behind a marker does not count, and then its later segments. -/
theorem without_codeLine (role : Role) (head : List Char) (later : List Segment) :
    ∃ marker rest, head = marker ++ rest ∧ (marker = [] ∨ marker = testMarker ∨ marker = ['>']) ∧
      without p (codeLine role head later) = without p marker ++
        without p (if marker = [] then rest else trimStart rest) ++
          without p (later.flatMap Segment.text) := by
  unfold codeLine
  generalize hm :
    (if role = .watch ∨ role = .test then (watchMarker? head).getD [] else []) = marker
  have hhead : ∃ rest, head = marker ++ rest ∧
      (marker = [] ∨ marker = testMarker ∨ marker = ['>']) := by
    split at hm
    · cases hw : watchMarker? head with
      | none => exact ⟨head, by rw [← hm, hw]; rfl, .inl (by rw [← hm, hw]; rfl)⟩
      | some m =>
        rw [hw, Option.getD_some] at hm
        obtain ⟨rest, hrest⟩ := eq_append_of_watchMarker? (hm ▸ hw)
        exact ⟨rest, hrest, .inr (marker_of_watchMarker? (hm ▸ hw))⟩
    · exact ⟨head, by rw [← hm]; rfl, .inl hm.symm⟩
  obtain ⟨rest, rfl, hmarker⟩ := hhead
  refine ⟨marker, rest, rfl, hmarker, ?_⟩
  simp only [without_reverse, without_segments hp, without_code hp, List.drop_zero,
    List.reverse_append, List.reverse_reverse]
  by_cases hempty : marker = []
  · simp [hempty]
  · have hfront : without p (if trimStart rest = [] ∧ later = [] then marker.reverse
        else ' ' :: marker.reverse) = (without p marker).reverse := by
      split
      · exact without_reverse marker
      · rw [without_cons_of_mem (hp ' ' rfl), without_reverse]
    simp [hempty, hfront]

end Without

theorem solid_code (more : Bool) (place : Option Nat) (base text : List Char) :
    solid (code more place 0 [] base text) = solid text.reverse ++ solid base :=
  without_code (fun _ h => isSpace_of_isIndent h) more place 0 [] base text

theorem solid_segments (out : List Char) (ss : List Segment) :
    solid (segments out ss) = solid (ss.flatMap Segment.text).reverse ++ solid out :=
  without_segments (fun _ h => isSpace_of_isIndent h) out ss

theorem solid_codeLine (role : Role) (head : List Char) (later : List Segment) :
    solid (codeLine role head later) = solid head ++ solid (later.flatMap Segment.text) := by
  obtain ⟨marker, rest, rfl, -, hline⟩ :=
    without_codeLine (fun _ h => isSpace_of_isIndent h) role head later
  have hbody : solid (if marker = [] then rest else trimStart rest) = solid rest := by
    split
    · rfl
    · exact solid_trimStart rest
  rw [solid_append, ← hbody]
  exact hline

/-- Setting its gaps keeps the solid characters of a line. -/
theorem solid_line {l : ScannedLine} (hl : l.raw = l.segments.flatMap Segment.text) :
    solid (line l) = solid l.raw := by
  have hsegs : solid (segments [] l.segments).reverse = solid l.raw := by
    rw [solid_reverse, solid_segments, solid_reverse, ← hl]
    simp
  unfold line
  split
  · rfl
  · split
    · exact hsegs
    · dsimp only
      split
      · rfl
      · split
        · rfl
        · rename_i first later hss
          split
          · rw [solid_append, solid_takeWhile_isIndent, solid_codeLine,
              solid_dropWhile_isIndent, hl, hss, List.flatMap_cons, solid_append, List.nil_append]
          · exact hsegs

theorem solid_set (text : List Char) : solid (set text) = solid text := by
  apply solid_unlines_map_scan
  intro l hl
  exact solid_line (raw_eq_flatMap_text hl)

end Gaps

theorem solid_place_text (style : Style) (cols : Nat) (rest : List Char) :
    solid (style.place cols rest) = solid rest := by
  have hrender : ∀ c ∈ style.render cols, isSpace c = true := by
    intro c hc
    apply isSpace_of_isIndent
    unfold Style.render at hc
    split at hc
    · rw [List.eq_of_mem_replicate hc]
      rfl
    · rcases List.mem_append.mp hc with h | h <;> rw [List.eq_of_mem_replicate h] <;> rfl
  rw [Style.place, solid_append, solid_eq_nil hrender, List.nil_append]

/-- A rule that keeps the solid part of each line keeps that of the text. -/
theorem solid_walk {σ : Type} (rule : σ → ScannedLine → σ × Output)
    (hrule : ∀ s l, l.raw = l.segments.flatMap Segment.text →
      (rule s l).2.lines.flatMap solid = solid l.raw)
    (s : σ) (text : List Char) : solid (unlines (walk rule s (scan text)).lines) = solid text := by
  have hwalk : ∀ ls : List ScannedLine, (∀ l ∈ ls, l.raw = l.segments.flatMap Segment.text) →
      ∀ s, (walk rule s ls).lines.flatMap solid = ls.flatMap fun l => solid l.raw := by
    intro ls
    induction ls with
    | nil => intro _ s; rfl
    | cons l ls ih =>
      intro hls s
      rw [walk, Output.append, List.flatMap_append, hrule s l (hls l List.mem_cons_self),
        ih (fun m hm => hls m (List.mem_cons_of_mem l hm)), List.flatMap_cons]
  rw [solid_unlines, hwalk (scan text) (fun l hl => raw_eq_flatMap_text hl) s]
  have hmap : (scan text).flatMap (fun l => solid l.raw) =
      ((scan text).map ScannedLine.raw).flatMap solid := by rw [List.flatMap_map]
  rw [hmap, scan_map_raw, ← solid_unlines, unlines_lines]

theorem solid_raw_of_isBlank {l : ScannedLine} (hl : l.raw = l.segments.flatMap Segment.text)
    (h : l.isBlank = true) : solid l.raw = [] := by
  rw [hl]
  apply solid_eq_nil
  intro c hc
  obtain ⟨s, hs, hcs⟩ := List.mem_flatMap.mp hc
  have hblank := List.all_eq_true.mp h s hs
  exact List.all_eq_true.mp hblank c hcs

namespace Margin

theorem solid_remove (text : List Char) : solid (remove text).text = solid text := by
  rcases remove_cases text with hsame | ⟨margin, hmargin, hstrip⟩
  · rw [hsame]
  · rw [hstrip]
    apply solid_unlines_map_scan
    intro l _
    obtain ⟨front, hfront, hblank⟩ := strip_append hmargin l
    rw [← hfront, solid_append, solid_eq_nil fun c hc => isSpace_of_isIndent (hblank c hc),
      List.nil_append]

end Margin

namespace Levels

/-- Putting a line on its level keeps its solid characters. -/
theorem solid_rule (style : Style) (s : Levels) (l : ScannedLine)
    (hl : l.raw = l.segments.flatMap Segment.text) :
    (rule style s l).2.lines.flatMap solid = solid l.raw := by
  unfold rule
  split
  · simp [Output.line]
  · split
    · rename_i hblank
      simp [Output.line, solid_raw_of_isBlank hl hblank]
    · simp [Style.measure, solid_place_text]

end Levels

namespace Scopes

/-- Putting a line under its binding keeps its solid characters. -/
theorem solid_rule (style : Style) (s : Scopes) (l : ScannedLine) :
    (rule style s l).2.lines.flatMap solid = solid l.raw := by
  unfold rule
  split
  · simp [Output.line]
  · simp only [Style.measure, List.flatMap_singleton]
    by_cases h : s.column style (bindingHead? (trim l.codeText)).isSome (style.columns l.raw) =
        style.columns l.raw
    · simp [h]
    · simp [h, solid_place_text]

end Scopes

namespace Paragraphs

/-- A gap above a line keeps its solid characters. -/
theorem solid_rule (s : Paragraphs) (l : ScannedLine)
    (hl : l.raw = l.segments.flatMap Segment.text) :
    (rule s l).2.lines.flatMap solid = solid l.raw := by
  unfold rule
  split
  · simp [Output.line]
  · split
    · rename_i hblank
      simp [Output.nothing, solid_raw_of_isBlank hl hblank]
    · simp only
      split <;> simp

end Paragraphs

namespace Chains

theorem solid_render (k : Link) :
    solid k.render = solid (k.pipe.elim [] Pipe.text) ++ solid k.text := by
  unfold Link.render
  split
  · rename_i h
    simp [h]
  · rename_i p h
    rw [h, Option.elim_some]
    split
    · rename_i hempty
      simp [List.isEmpty_iff.mp hempty]
    · rw [solid_append, solid_cons_of_space (by rfl)]

/-- Links keep the solid characters that they are cut from. -/
theorem solid_linksOf (first : List Char) (parts : List (Pipe × List Char)) :
    ((linksOf none first parts).flatMap fun k => solid k.render) =
      solid (chainText first parts) := by
  have hparts :
      ((parts.map fun q => (⟨some q.1, trim q.2⟩ : Link)).flatMap fun k => solid k.render) =
      solid (parts.flatMap fun q => q.1.text ++ q.2) := by
    induction parts with
    | nil => rfl
    | cons q parts ih =>
      rw [List.map_cons, List.flatMap_cons, List.flatMap_cons, ih, solid_render, solid_append,
        solid_append]
      simp
  rw [linksOf, List.flatMap_append, hparts, chainText, solid_append]
  congr 1
  split
  · simp [solid_render]
  · rename_i h
    simp only [Option.isSome_none, Bool.false_or, Bool.or_eq_true, Bool.not_eq_true', not_or,
      Bool.not_eq_false] at h
    rw [← solid_trim first, List.isEmpty_iff.mp h.2]
    rfl

/-- The lines of links keep the solid characters of the links, and then those of the comment. -/
theorem solid_linkLines (style : Style) (cols : Nat) (comment : Option (List Char))
    {links : List Link} (h : links ≠ []) :
    (linkLines style cols comment links).flatMap solid =
      (links.flatMap fun k => solid k.render) ++ solid (comment.getD []) := by
  induction links with
  | nil => exact absurd rfl h
  | cons k ks ih =>
    cases ks with
    | nil =>
      have hcomment : solid (comment.elim [] (' ' :: ·)) = solid (comment.getD []) := by
        cases comment with
        | none => rfl
        | some c => exact solid_cons_of_space (by rfl) c
      simp [linkLines, solid_place_text, hcomment]
    | cons k' ks =>
      rw [linkLines]
      · rw [List.flatMap_cons, List.flatMap_cons, ih (by simp), solid_place_text, List.append_assoc]
      · simp

/-- A chain that goes on keeps the solid characters of its line. -/
theorem solid_continueChain (style : Style) (s : Chains) (l : ScannedLine)
    (hl : l.raw = l.segments.flatMap Segment.text) :
    (continueChain style s l).2.lines.flatMap solid = solid l.raw := by
  have hwhole (cols : Nat) : [style.place cols (l.raw.dropWhile isIndent)].flatMap solid =
      solid l.raw := by
    simp [solid_place_text]
  unfold continueChain
  simp only [Style.measure]
  split
  · rename_i hmany
    obtain ⟨first, parts, hrest, hparts, hsplit⟩ :=
      split?_eq hl (List.ne_nil_of_length_pos (by omega))
        (List.takeWhile_append_dropWhile (p := isIndent) (l := l.raw)).symm
        (byteLength_indent_le_pipe hl)
    have hpipes : l.pipes ≠ [] := List.ne_nil_of_length_pos (by omega)
    have hlinks : linksOf none first parts ≠ [] := by
      simp [linksOf, parts_ne_nil hparts hpipes]
    rw [hsplit, Option.elim_some, solid_linkLines style _ _ hlinks, solid_linksOf, ← solid_append,
      ← hrest, solid_dropWhile_isIndent]
  · exact hwhole _

/-- A line that is broken keeps its solid characters. -/
theorem solid_breakChain (style : Style) (l : ScannedLine)
    (hl : l.raw = l.segments.flatMap Segment.text) (hpipes : l.pipes ≠ []) :
    (breakChain style l).2.lines.flatMap solid = solid l.raw := by
  obtain ⟨first, parts, hraw, hparts, hlinks⟩ := brokenLinks?_eq hl hpipes
  have hne := parts_ne_nil hparts hpipes
  have hhead : ((definition? l).elim [] fun h =>
      [style.place (style.columns l.raw) (trim h ++ " =".toList)]).flatMap solid =
        solid (chainFront l) := by
    cases hdef : definition? l with
    | none => simp [chainFront, hdef]
    | some head =>
      simp only [chainFront, hdef, Option.elim_some, List.flatMap_singleton, solid_place_text,
        solid_append, solid_trim]
      rfl
  have hsolid : solid l.raw = solid (chainFront l) ++
      ((linksOf none first parts).flatMap fun k => solid k.render) ++
        solid (l.trailingComment?.getD []) := by
    rw [hraw, solid_append, solid_append, solid_linksOf, List.append_assoc]
  unfold breakChain
  simp only [hlinks]
  rw [List.flatMap_append, hhead, hsolid, List.append_assoc]
  congr 1
  -- the first text of the chain, if there is one, stands on a line of its own without the comment
  split
  · rename_i text later heq
    have hlater : later ≠ [] := by
      rintro rfl
      obtain ⟨q, qs, rfl⟩ := List.exists_cons_of_ne_nil hne
      unfold linksOf at heq
      split at heq <;> simp at heq
    rw [List.flatMap_cons, solid_place_text, solid_linkLines style _ _ hlater, heq,
      List.flatMap_cons, solid_render]
    simp
  · exact solid_linkLines style _ _ (by simp [linksOf, hne])

/-- However a line is laid out, it keeps its solid characters. -/
theorem solid_rule (style : Style) (s : Chains) (l : ScannedLine)
    (hl : l.raw = l.segments.flatMap Segment.text) :
    (rule style s l).2.lines.flatMap solid = solid l.raw := by
  unfold rule
  split
  · simp [Output.line]
  · split
    · exact solid_continueChain style s l hl
    · split
      · simp [Output.line]
      · exact solid_breakChain style l hl (List.ne_nil_of_length_pos (by omega))

end Chains

/-- Trimming keeps the solid characters of a text. -/
theorem solid_endings (text : List Char) : solid (Endings.trim text) = solid text := by
  have hline : ∀ l ∈ scan text, solid (Endings.line l) = solid l.raw := by
    intro l _
    unfold Endings.line
    split
    · rfl
    · exact solid_dropEndWhile (fun _ h => isSpace_of_isIndent h) l.raw
  have hlines := solid_unlines_map_scan text Endings.line hline
  obtain ⟨tail, htail, hempty⟩ := Endings.dropEmptyEnd_append ((scan text).map Endings.line)
  have hnil : tail.flatMap solid = [] := by
    rw [List.flatMap_eq_nil_iff]
    intro l hl
    rw [hempty l hl]
    rfl
  rw [solid_unlines, ← htail, List.flatMap_append, hnil, List.append_nil] at hlines
  unfold Endings.trim
  split
  · rename_i hnil
    rw [hnil] at hlines
    exact hlines
  · rw [solid_append, solid_unlines, hlines]
    simp [solid, isSpace, inRanges]

/-- Every stage keeps the solid characters of a text. -/
theorem solid_stage (style : Style) (text : List Char) (stage : Stage) :
    solid (stage.run style text).text = solid text := by
  cases stage with
  | margin => exact Margin.solid_remove text
  | gaps => exact Gaps.solid_set text
  | levels => exact solid_walk _ (Levels.solid_rule style) _ text
  | scopes => exact solid_walk _ (fun s l _ => Scopes.solid_rule style s l) _ text
  | chains => exact solid_walk _ (Chains.solid_rule style) _ text
  | paragraphs => exact solid_walk _ Paragraphs.solid_rule _ text
  | endings => exact solid_endings text

theorem solid_runStages (style : Style) (text : List Char) (stages : List Stage) :
    solid (runStages style text stages).text = solid text := by
  induction stages generalizing text with
  | nil => rfl
  | cons stage stages ih => rw [runStages, ih, solid_stage]

theorem solid_pass (style : Style) (text : List Char) : solid (pass style text).text = solid text :=
  solid_runStages style text Stage.all

theorem solid_settle (style : Style) (done : Nat) (text : List Char) (left : Nat) :
    solid (settle style done text left).text = solid text := by
  induction left generalizing done text with
  | zero => rfl
  | succ left ih =>
    rw [settle]
    simp only
    split
    · rfl
    · rw [ih, solid_pass]

theorem solid_joinLineEnds (text : List Char) : solid (joinLineEnds text) = solid text := by
  fun_induction joinLineEnds text with
  | case1 => rfl
  | case2 cs ih => rw [solid_cons_of_space (by rfl), solid_cons_of_space (by rfl),
      solid_cons_of_space (by rfl), ih]
  | case3 c cs _ ih => rw [solid_cons, ih, ← solid_cons]

/-- Formatting keeps every character that is not white space, once and in its order. -/
theorem format_keeps_solid (style : Style) (text : List Char) :
    solid (format style text) = solid text := by
  rw [← solid_joinLineEnds text, format, formatNoted]
  simp only
  split
  · rename_i hblank
    rw [solid_eq_nil_of_isBlankText hblank]
    rfl
  · rw [solid_settle, solid_pass]

end ScratchFormat
