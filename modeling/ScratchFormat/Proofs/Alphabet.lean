import ScratchFormat.Format
import ScratchFormat.Proofs.Links
import ScratchFormat.Proofs.Operators

/-! The characters of a text that is laid out are those of the text itself, blanks and line feeds. A
property of characters that blanks and line feeds have is kept by every stage. -/

namespace ScratchFormat

section

variable {ok : Char → Prop}

theorem ok_of_front {as bs : List Char} (h : as <+: bs) (hb : ∀ c ∈ bs, ok c) : ∀ c ∈ as, ok c :=
  fun c hc => hb c (h.subset hc)

theorem ok_dropWhile {p : Char → Bool} {cs : List Char} (h : ∀ c ∈ cs, ok c) :
    ∀ c ∈ cs.dropWhile p, ok c :=
  fun c hc => h c ((List.dropWhile_suffix p).subset hc)

theorem ok_dropEndWhile {p : Char → Bool} {cs : List Char} (h : ∀ c ∈ cs, ok c) :
    ∀ c ∈ dropEndWhile p cs, ok c := by
  intro c hc
  obtain ⟨tail, ht, -⟩ := dropEndWhile_append p cs
  exact h c (ht ▸ List.mem_append_left tail hc)

theorem ok_trim {cs : List Char} (h : ∀ c ∈ cs, ok c) : ∀ c ∈ trim cs, ok c :=
  ok_dropEndWhile (ok_dropWhile h)

/-- A line has no characters that its text does not have. -/
theorem ok_lines {text : List Char} (h : ∀ c ∈ text, ok c) : ∀ l ∈ lines text, ∀ c ∈ l, ok c := by
  induction text with
  | nil => simp [lines]
  | cons c cs ih =>
    have hcs := ih fun d hd => h d (List.mem_cons_of_mem c hd)
    by_cases hc : c = '\n'
    · subst hc
      rw [lines_newline]
      intro l hl
      rcases List.mem_cons.mp hl with rfl | hl
      · simp
      · exact hcs l hl
    · obtain ⟨m, ms, he, hl⟩ := lines_cons_of_ne hc cs
      rw [he] at hcs
      rw [hl]
      intro l hmem
      rcases List.mem_cons.mp hmem with rfl | hmem
      · intro d hd
        rcases List.mem_cons.mp hd with rfl | hd
        · exact h d List.mem_cons_self
        · exact hcs m List.mem_cons_self d hd
      · exact hcs l (List.mem_cons_of_mem m hmem)

/-- Lines that are put together bring in line feeds only. -/
theorem ok_unlines (hnewline : ok '\n') {ls : List (List Char)} (h : ∀ l ∈ ls, ∀ c ∈ l, ok c) :
    ∀ c ∈ unlines ls, ok c := by
  induction ls with
  | nil => intro c hc; cases hc
  | cons l ls ih =>
    have hl := h l List.mem_cons_self
    by_cases hls : ls = []
    · subst hls
      exact hl
    · have hrest := ih fun m hm => h m (List.mem_cons_of_mem l hm)
      rw [unlines_cons_of_ne_nil l hls, List.forall_mem_append]
      exact ⟨hl, List.forall_mem_cons.mpr ⟨hnewline, hrest⟩⟩

namespace Gaps

/-- A gap that is set brings in a blank only. -/
theorem ok_before (hblank : ok ' ') {out : List Char} (h : ∀ c ∈ out, ok c) :
    ∀ c ∈ before out, ok c := by
  have hdrop : ∀ c ∈ out.dropWhile isIndent, ok c := ok_dropWhile h
  unfold before
  split
  · intro c hc; cases hc
  · rename_i heq
    rw [heq] at hdrop
    split
    · exact hdrop
    · exact List.forall_mem_cons.mpr ⟨hblank, hdrop⟩

theorem ok_after (hblank : ok ' ') (more : Bool) (rest : List Char) {out : List Char}
    (h : ∀ c ∈ out, ok c) : ∀ c ∈ after more rest out, ok c := by
  have hcons : ∀ c ∈ ' ' :: out, ok c := List.forall_mem_cons.mpr ⟨hblank, h⟩
  unfold after
  split <;> split <;> assumption

theorem ok_binary (hblank : ok ' ') (more : Bool) {text : List Char} (rest : List Char)
    {out : List Char} (ht : ∀ c ∈ text, ok c) (h : ∀ c ∈ out, ok c) :
    ∀ c ∈ binary more text rest out, ok c := by
  apply ok_after hblank
  rw [List.forall_mem_append]
  exact ⟨fun c hc => ht c (List.mem_reverse.mp hc), ok_before hblank h⟩

/-- The operators of a run bring in blanks only. -/
theorem ok_operators (hblank : ok ' ') (more : Bool) {ops : List Operator} (rest : List Char)
    {out : List Char} (hops : ∀ c ∈ ops.flatMap Operator.text, ok c) (h : ∀ c ∈ out, ok c) :
    ∀ c ∈ (operators more rest out ops).1, ok c := by
  induction ops generalizing rest out with
  | nil => exact h
  | cons op ops ih =>
    rw [List.flatMap_cons, List.forall_mem_append] at hops
    have hrev : ∀ c ∈ op.text.reverse, ok c := fun c hc => hops.1 c (List.mem_reverse.mp hc)
    unfold operators
    simp only
    split
    · exact ih _ hops.2 (List.forall_mem_append.mpr ⟨hrev, h⟩)
    · split
      · exact ok_binary hblank more _ hops.1 h
      · apply ih _ hops.2
        exact List.forall_mem_cons.mpr
          ⟨hblank, List.forall_mem_append.mpr ⟨hrev, ok_before hblank h⟩⟩

/-- What one place of code puts out has the characters that are there, and blanks. -/
theorem ok_place (hblank : ok ' ') (more : Bool) (special : Option Nat)
    (front : List Char) {c : Char} {cs out : List Char} (hcs : ∀ d ∈ c :: cs, ok d)
    (h : ∀ d ∈ out, ok d) : ∀ d ∈ (place more special front c cs out).1, ok d := by
  have hc := hcs c List.mem_cons_self
  by_cases hs : special = some 0
  · simp only [place, if_pos hs]
    exact ok_binary hblank more cs (by simpa using hc) h
  by_cases hcomma : c = ','
  · simp only [place, if_neg hs, if_pos hcomma]
    exact ok_after hblank more _ (List.forall_mem_cons.mpr ⟨hcomma ▸ hc, ok_dropWhile h⟩)
  by_cases hop : isOperatorChar c = true
  · obtain ⟨rest, hrest, hplace⟩ := place_operator more front cs out hs hcomma hop
    have hrun : ∀ d ∈ c :: runAfter special cs, ok d :=
      ok_of_front (List.cons_prefix_cons.mpr ⟨rfl, runAfter_front special cs⟩) hcs
    rw [hplace]
    split
    · exact List.forall_mem_append.mpr ⟨fun d hd => hrun d (List.mem_reverse.mp hd), h⟩
    · rename_i ops hops
      have hflat := (splitRun?_flatMap_text hops).2.1
      rw [List.drop_zero] at hflat
      exact ok_operators hblank more _ (hflat ▸ hrun) h
  · simp only [place, if_neg hs, if_neg hcomma, if_neg hop]
    exact List.forall_mem_cons.mpr ⟨hc, h⟩

theorem ok_code (hblank : ok ' ') (more : Bool) (special : Option Nat) (owed : Nat)
    (front : List Char) {out cs : List Char} (hcs : ∀ c ∈ cs, ok c) (h : ∀ c ∈ out, ok c) :
    ∀ c ∈ code more special owed front out cs, ok c := by
  induction cs generalizing special owed front out with
  | nil => exact h
  | cons c cs ih =>
    have hrest : ∀ d ∈ cs, ok d := fun d hd => hcs d (List.mem_cons_of_mem c hd)
    cases owed with
    | succ n => exact ih _ _ _ hrest h
    | zero => exact ih _ _ _ hrest (ok_place hblank more special front hcs h)

theorem ok_segments (hblank : ok ' ') {out : List Char} {ss : List Segment}
    (hss : ∀ c ∈ ss.flatMap Segment.text, ok c) (h : ∀ c ∈ out, ok c) :
    ∀ c ∈ segments out ss, ok c := by
  induction ss generalizing out with
  | nil => exact h
  | cons s ss ih =>
    rw [List.flatMap_cons, List.forall_mem_append] at hss
    unfold segments
    split
    · exact ih hss.2 (ok_code hblank _ _ _ _ hss.1 h)
    · exact ih hss.2 (List.forall_mem_append.mpr ⟨fun c hc => hss.1 c (List.mem_reverse.mp hc), h⟩)

/-- A line of code has the characters of its segments, and blanks. -/
theorem ok_codeLine (hblank : ok ' ') (role : Role) {head : List Char} {later : List Segment}
    (hhead : ∀ c ∈ head, ok c) (hlater : ∀ c ∈ later.flatMap Segment.text, ok c) :
    ∀ c ∈ codeLine role head later, ok c := by
  unfold codeLine
  generalize hm :
    (if role = .watch ∨ role = .test then (watchMarker? head).getD [] else []) = marker
  have hmarker : ∀ c ∈ marker.reverse, ok c := by
    intro c hc
    rw [List.mem_reverse, ← hm] at hc
    split at hc
    · cases hw : watchMarker? head with
      | none => rw [hw] at hc; cases hc
      | some m =>
        rw [hw] at hc
        obtain ⟨rest, rfl⟩ := eq_append_of_watchMarker? hw
        exact hhead c (List.mem_append_left rest hc)
    · cases hc
  intro c hc
  rw [List.mem_reverse] at hc
  refine ok_segments hblank hlater (ok_code hblank _ _ _ _ ?_ ?_) c hc
  · split
    · exact hhead
    · exact ok_dropWhile fun d hd => hhead d (List.mem_of_mem_drop hd)
  · split
    · intro d hd; cases hd
    · split
      · exact hmarker
      · exact List.forall_mem_cons.mpr ⟨hblank, hmarker⟩

/-- Setting the gaps of a line brings in blanks only. -/
theorem ok_line (hblank : ok ' ') {l : ScannedLine} (hl : l.raw = l.segments.flatMap Segment.text)
    (h : ∀ c ∈ l.raw, ok c) : ∀ c ∈ line l, ok c := by
  have hsegs : ∀ c ∈ (segments [] l.segments).reverse, ok c := by
    intro c hc
    exact ok_segments hblank (hl ▸ h) (fun d hd => by cases hd) c (List.mem_reverse.mp hc)
  unfold line
  split
  · exact h
  · split
    · exact hsegs
    · dsimp only
      split
      · exact h
      · split
        · exact h
        · rename_i first later hss
          rw [hl, hss, List.flatMap_cons, List.forall_mem_append] at h
          split
          · rw [List.forall_mem_append]
            exact ⟨ok_of_front (List.takeWhile_prefix _) h.1,
              ok_codeLine hblank _ (ok_dropWhile h.1) h.2⟩
          · exact hsegs

theorem newline_notMem_line {text : List Char} {l : ScannedLine} (h : l ∈ scan text) :
    '\n' ∉ line l := by
  have hraw : ∀ c ∈ l.raw, c ≠ '\n' := by
    rintro c hc rfl
    exact newline_notMem_of_mem_lines (mem_scan h).2 hc
  have hline : ∀ c ∈ line l, c ≠ '\n' := ok_line (by decide) (raw_eq_flatMap_text h) hraw
  exact fun hc => hline _ hc rfl

/-- The lines of a text whose gaps have been set are its lines, each set. -/
theorem lines_set (text : List Char) : lines (set text) = (scan text).map line :=
  lines_unlines_map_scan fun _ hl => newline_notMem_line hl

end Gaps

theorem ok_scan_map (hnewline : ok '\n') {text : List Char} {f : ScannedLine → List Char}
    (hf : ∀ l ∈ scan text, (∀ c ∈ l.raw, ok c) → ∀ c ∈ f l, ok c) (h : ∀ c ∈ text, ok c) :
    ∀ c ∈ unlines ((scan text).map f), ok c := by
  apply ok_unlines hnewline
  intro l hl
  obtain ⟨s, hs, rfl⟩ := List.mem_map.mp hl
  exact hf s hs (ok_lines h s.raw (mem_scan hs).2)

/-- Every line that a walk puts out is put out for one of the lines walked over. -/
theorem mem_walk_lines {σ : Type} {rule : σ → ScannedLine → σ × Output} {s : σ}
    {ls : List ScannedLine} {m : List Char} (hm : m ∈ (walk rule s ls).lines) :
    ∃ s', ∃ l ∈ ls, m ∈ (rule s' l).2.lines := by
  induction ls generalizing s with
  | nil => cases hm
  | cons l ls ih =>
    rcases List.mem_append.mp hm with hm | hm
    · exact ⟨s, l, List.mem_cons_self, hm⟩
    · obtain ⟨s', k, hk, hm⟩ := ih hm
      exact ⟨s', k, List.mem_cons_of_mem l hk, hm⟩

theorem ok_walk_lines {σ : Type} {rule : σ → ScannedLine → σ × Output}
    (hrule : ∀ s l, l.raw = l.segments.flatMap Segment.text → (∀ c ∈ l.raw, ok c) →
      ∀ m ∈ (rule s l).2.lines, ∀ c ∈ m, ok c)
    (s : σ) {text : List Char} (h : ∀ l ∈ lines text, ∀ c ∈ l, ok c) :
    ∀ m ∈ (walk rule s (scan text)).lines, ∀ c ∈ m, ok c := by
  intro m hm
  obtain ⟨s', l, hl, hm⟩ := mem_walk_lines hm
  exact hrule s' l (raw_eq_flatMap_text hl) (h l.raw (mem_scan hl).2) m hm

theorem ok_walk (hnewline : ok '\n') {σ : Type} {rule : σ → ScannedLine → σ × Output}
    (hrule : ∀ s l, l.raw = l.segments.flatMap Segment.text → (∀ c ∈ l.raw, ok c) →
      ∀ m ∈ (rule s l).2.lines, ∀ c ∈ m, ok c)
    (s : σ) {text : List Char} (h : ∀ c ∈ text, ok c) :
    ∀ c ∈ unlines (walk rule s (scan text)).lines, ok c := by
  apply ok_unlines hnewline
  exact ok_walk_lines hrule s (ok_lines h)

theorem ok_style_place (hblank : ok ' ') (htab : ok '\t') (style : Style) (cols : Nat)
    {rest : List Char} (h : ∀ c ∈ rest, ok c) : ∀ c ∈ style.place cols rest, ok c := by
  rw [Style.place, List.forall_mem_append]
  refine ⟨?_, h⟩
  intro c hc
  unfold Style.render at hc
  split at hc
  · rw [List.eq_of_mem_replicate hc]
    exact hblank
  · rcases List.mem_append.mp hc with hc | hc
    · rw [List.eq_of_mem_replicate hc]
      exact htab
    · rw [List.eq_of_mem_replicate hc]
      exact hblank

/-- Taking the margin away brings in line feeds only. -/
theorem ok_margin (hnewline : ok '\n') {text : List Char} (h : ∀ c ∈ text, ok c) :
    ∀ c ∈ (Margin.remove text).text, ok c := by
  unfold Margin.remove
  simp only
  split
  · exact h
  · split
    · exact h
    · split
      · refine ok_scan_map hnewline ?_ h
        intro l _ hl
        unfold Margin.strip dropFront?
        split
        · split
          · exact fun c hc => hl c (List.mem_of_mem_drop hc)
          · exact hl
        · exact hl
      · exact h

/-- A line that is put on its level brings in spaces and tabs only. -/
theorem ok_levels_rule (hblank : ok ' ') (htab : ok '\t') (style : Style) (s : Levels)
    {l : ScannedLine} (h : ∀ c ∈ l.raw, ok c) :
    ∀ m ∈ (Levels.rule style s l).2.lines, ∀ c ∈ m, ok c := by
  unfold Levels.rule
  split
  · simpa [Output.line] using h
  · split
    · simp [Output.line]
    · simp only [Style.measure, List.mem_singleton, forall_eq]
      exact ok_style_place hblank htab style _ (ok_dropWhile h)

/-- A line that is put under its binding brings in spaces and tabs only. -/
theorem ok_scopes_rule (hblank : ok ' ') (htab : ok '\t') (style : Style) (s : Scopes)
    {l : ScannedLine} (h : ∀ c ∈ l.raw, ok c) :
    ∀ m ∈ (Scopes.rule style s l).2.lines, ∀ c ∈ m, ok c := by
  have hplace (cols : Nat) : ∀ c ∈ style.place cols (l.raw.dropWhile isIndent), ok c :=
    ok_style_place hblank htab style cols (ok_dropWhile h)
  unfold Scopes.rule
  split
  · simpa [Output.line] using h
  · simp only [Style.measure, List.mem_singleton, forall_eq]
    by_cases hcol : s.column style (bindingHead? (trim l.codeText)).isSome (style.columns l.raw) =
        style.columns l.raw
    · simpa [hcol] using h
    · simpa [hcol] using hplace _

theorem ok_paragraphs_rule (s : Paragraphs) {l : ScannedLine} (h : ∀ c ∈ l.raw, ok c) :
    ∀ m ∈ (Paragraphs.rule s l).2.lines, ∀ c ∈ m, ok c := by
  unfold Paragraphs.rule
  split
  · simpa [Output.line] using h
  · split
    · simp [Output.nothing]
    · simp only
      split <;> simpa using h

/-- Trimming the ends of lines brings in line feeds only. -/
theorem ok_endings (hnewline : ok '\n') {text : List Char} (h : ∀ c ∈ text, ok c) :
    ∀ c ∈ Endings.trim text, ok c := by
  have hlines : ∀ l ∈ (scan text).map Endings.line, ∀ c ∈ l, ok c := by
    intro l hl
    obtain ⟨s, hs, rfl⟩ := List.mem_map.mp hl
    have hraw := ok_lines h s.raw (mem_scan hs).2
    unfold Endings.line
    split
    · exact hraw
    · exact ok_dropEndWhile hraw
  have hkept : ∀ l ∈ Endings.dropEmptyEnd ((scan text).map Endings.line), ∀ c ∈ l, ok c := by
    intro l hl
    obtain ⟨tail, ht, -⟩ := Endings.dropEmptyEnd_append ((scan text).map Endings.line)
    exact hlines l (ht ▸ List.mem_append_left tail hl)
  unfold Endings.trim
  split
  · intro c hc; cases hc
  · rw [List.forall_mem_append]
    exact ⟨ok_unlines hnewline hkept, by simpa using hnewline⟩

namespace Chains

/-- The lines of links have the characters of the links and of the comment, and indentation. -/
theorem ok_linkLines (hblank : ok ' ') (htab : ok '\t') (style : Style) (cols : Nat)
    {comment : Option (List Char)} {links : List Link} (hcomment : ∀ c ∈ comment.getD [], ok c)
    (h : ∀ k ∈ links, ∀ c ∈ k.render, ok c) :
    ∀ m ∈ linkLines style cols comment links, ∀ c ∈ m, ok c := by
  induction links with
  | nil => intro m hm; cases hm
  | cons k ks ih =>
    have hk := h k List.mem_cons_self
    cases ks with
    | nil =>
      simp only [linkLines, List.mem_singleton, forall_eq]
      apply ok_style_place hblank htab
      rw [List.forall_mem_append]
      refine ⟨hk, ?_⟩
      cases comment with
      | none => intro c hc; cases hc
      | some text => exact List.forall_mem_cons.mpr ⟨hblank, hcomment⟩
    | cons k' ks =>
      intro m hm
      rw [linkLines] at hm
      · rcases List.mem_cons.mp hm with rfl | hm
        · exact ok_style_place hblank htab style cols hk
        · exact ih (fun j hj => h j (List.mem_cons_of_mem k hj)) m hm
      · simp

/-- Links have the characters of the text that they are cut from. -/
theorem ok_linksOf (hblank : ok ' ') {first : List Char} {parts : List (Pipe × List Char)}
    (h : ∀ c ∈ chainText first parts, ok c) :
    ∀ k ∈ linksOf none first parts, (∀ c ∈ k.text, ok c) ∧ ∀ c ∈ k.render, ok c := by
  rw [chainText, List.forall_mem_append] at h
  intro k hk
  rcases List.mem_append.mp hk with hk | hk
  · split at hk
    · rw [List.mem_singleton.mp hk]
      exact ⟨ok_trim h.1, ok_trim h.1⟩
    · cases hk
  · obtain ⟨q, hq, rfl⟩ := List.mem_map.mp hk
    have hpart : ∀ c ∈ q.1.text ++ q.2, ok c := fun c hc =>
      h.2 c (List.mem_flatMap.mpr ⟨q, hq, hc⟩)
    rw [List.forall_mem_append] at hpart
    refine ⟨ok_trim hpart.2, ?_⟩
    simp only [Link.render]
    split
    · exact hpart.1
    · exact List.forall_mem_append.mpr
        ⟨hpart.1, List.forall_mem_cons.mpr ⟨hblank, ok_trim hpart.2⟩⟩

/-- A chain that goes on brings in spaces and tabs only. -/
theorem ok_continueChain (hblank : ok ' ') (htab : ok '\t') (style : Style) (s : Chains)
    {l : ScannedLine} (hl : l.raw = l.segments.flatMap Segment.text) (h : ∀ c ∈ l.raw, ok c) :
    ∀ m ∈ (continueChain style s l).2.lines, ∀ c ∈ m, ok c := by
  unfold continueChain
  simp only [Style.measure]
  split
  · obtain ⟨first, parts, hrest, -, hsplit⟩ :=
      split?_eq hl (List.ne_nil_of_length_pos (by omega))
        (List.takeWhile_append_dropWhile (p := isIndent) (l := l.raw)).symm
        (byteLength_indent_le_pipe hl)
    have hparts : ∀ c ∈ l.raw.dropWhile isIndent, ok c := ok_dropWhile h
    rw [hrest, List.forall_mem_append] at hparts
    rw [hsplit]
    exact ok_linkLines hblank htab style _ hparts.2 fun k hk => (ok_linksOf hblank hparts.1 k hk).2
  · simp only [List.mem_singleton, forall_eq]
    exact ok_style_place hblank htab style _ (ok_dropWhile h)

/-- A line that is broken brings in spaces and tabs only. -/
theorem ok_breakChain (hblank : ok ' ') (htab : ok '\t') (style : Style) {l : ScannedLine}
    (hl : l.raw = l.segments.flatMap Segment.text) (hpipes : l.pipes ≠ [])
    (h : ∀ c ∈ l.raw, ok c) : ∀ m ∈ (breakChain style l).2.lines, ∀ c ∈ m, ok c := by
  obtain ⟨first, parts, hraw, -, hlinks⟩ := brokenLinks?_eq hl hpipes
  have hall := h
  rw [hraw, List.forall_mem_append, List.forall_mem_append] at hall
  obtain ⟨hfront, hchain, hcomment⟩ := hall
  have hof := ok_linksOf hblank hchain
  have hhead : ∀ m ∈ (definition? l).elim [] fun head =>
      [style.place (style.columns l.raw) (trim head ++ " =".toList)], ∀ c ∈ m, ok c := by
    cases hdef : definition? l with
    | none => intro m hm; cases hm
    | some head =>
      simp only [chainFront, hdef, Option.elim_some, List.forall_mem_append] at hfront
      simp only [Option.elim_some, List.mem_singleton, forall_eq]
      apply ok_style_place hblank htab
      rw [List.forall_mem_append]
      refine ⟨ok_trim hfront.1, ?_⟩
      exact List.forall_mem_cons.mpr ⟨hblank, hfront.2⟩
  unfold breakChain
  simp only [hlinks, List.forall_mem_append]
  refine ⟨hhead, ?_⟩
  split
  · rename_i text later heq
    rw [heq] at hof
    refine List.forall_mem_cons.mpr ⟨?_, ?_⟩
    · exact ok_style_place hblank htab style _ (hof _ List.mem_cons_self).1
    · exact ok_linkLines hblank htab style _ hcomment fun k hk =>
        (hof k (List.mem_cons_of_mem _ hk)).2
  · exact ok_linkLines hblank htab style _ hcomment fun k hk => (hof k hk).2

theorem ok_rule (hblank : ok ' ') (htab : ok '\t') (style : Style) (s : Chains) {l : ScannedLine}
    (hl : l.raw = l.segments.flatMap Segment.text) (h : ∀ c ∈ l.raw, ok c) :
    ∀ m ∈ (rule style s l).2.lines, ∀ c ∈ m, ok c := by
  unfold rule
  split
  · simpa [Output.line] using h
  · split
    · exact ok_continueChain hblank htab style s hl h
    · split
      · simpa [Output.line] using h
      · exact ok_breakChain hblank htab style hl (List.ne_nil_of_length_pos (by omega)) h

end Chains

/-- No stage brings in a character other than blanks and line feeds. -/
theorem ok_stage (hblank : ok ' ') (htab : ok '\t') (hnewline : ok '\n') (style : Style)
    {text : List Char} (stage : Stage) (h : ∀ c ∈ text, ok c) :
    ∀ c ∈ (stage.run style text).text, ok c := by
  cases stage with
  | margin => exact ok_margin hnewline h
  | gaps =>
    exact ok_scan_map hnewline (fun l hl hraw => Gaps.ok_line hblank (raw_eq_flatMap_text hl) hraw)
      h
  | levels => exact ok_walk hnewline (fun s l _ hraw => ok_levels_rule hblank htab style s hraw) _ h
  | scopes => exact ok_walk hnewline (fun s l _ hraw => ok_scopes_rule hblank htab style s hraw) _ h
  | chains =>
    exact ok_walk hnewline (fun s l hl hraw => Chains.ok_rule hblank htab style s hl hraw) _ h
  | paragraphs => exact ok_walk hnewline (fun s l _ hraw => ok_paragraphs_rule s hraw) _ h
  | endings => exact ok_endings hnewline h

theorem ok_runStages (hblank : ok ' ') (htab : ok '\t') (hnewline : ok '\n') (style : Style)
    {text : List Char} (stages : List Stage) (h : ∀ c ∈ text, ok c) :
    ∀ c ∈ (runStages style text stages).text, ok c := by
  induction stages generalizing text with
  | nil => exact h
  | cons stage stages ih =>
    rw [runStages]
    exact ih (ok_stage hblank htab hnewline style stage h)

end

end ScratchFormat
