import ScratchFormat.Proofs.Solid

/-! How wide lines become. A stage widens them by a small factor at most, so four passes over a text
leave every column and every offset far from the end of a word. -/

namespace ScratchFormat

namespace Style

/-- The room that a text takes: its bytes, with every tab as wide as a level. -/
def extent (s : Style) : List Char → Nat
  | [] => 0
  | c :: cs => (if c = '\t' then s.unit else c.utf8Size) + extent s cs

variable (s : Style)

theorem unit_pos : 0 < s.unit := Nat.lt_of_lt_of_le Nat.one_pos (Nat.le_max_right _ _)

@[simp] theorem extent_nil : s.extent [] = 0 := rfl

theorem extent_cons (c : Char) (cs : List Char) :
    s.extent (c :: cs) = s.extent [c] + s.extent cs := by
  simp [extent]

@[simp] theorem extent_append (as bs : List Char) :
    s.extent (as ++ bs) = s.extent as + s.extent bs := by
  induction as with
  | nil => simp
  | cons a as ih => rw [List.cons_append, extent_cons, ih, ← Nat.add_assoc, ← extent_cons]

@[simp] theorem extent_reverse (cs : List Char) : s.extent cs.reverse = s.extent cs := by
  induction cs with
  | nil => rfl
  | cons c cs ih => rw [List.reverse_cons, extent_append, ih, extent_cons s c cs, Nat.add_comm]

theorem extent_blank (cs : List Char) : s.extent (' ' :: cs) = 1 + s.extent cs := rfl

theorem extent_le_of_sublist {as bs : List Char} (h : List.Sublist as bs) :
    s.extent as ≤ s.extent bs := by
  induction h with
  | slnil => exact Nat.le_refl _
  | cons c _ ih =>
    rw [extent_cons s c]
    omega
  | @cons_cons as bs c _ ih =>
    rw [extent_cons s c as, extent_cons s c bs]
    omega

/-- A text takes at least the room of its bytes. -/
theorem byteLength_le_extent (cs : List Char) : byteLength cs ≤ s.extent cs := by
  induction cs with
  | nil => exact Nat.le_refl _
  | cons c cs ih =>
    have hunit := s.unit_pos
    rw [extent, byteLength_cons]
    split
    · rename_i htab
      rw [htab, show ('\t' : Char).utf8Size = 1 by rfl]
      omega
    · omega

theorem length_le_extent (cs : List Char) : cs.length ≤ s.extent cs :=
  Nat.le_trans (length_le_byteLength cs) (s.byteLength_le_extent cs)

/-- A text takes no more room than if every byte were as wide as a level. -/
theorem extent_le_mul_byteLength (cs : List Char) : s.extent cs ≤ s.unit * byteLength cs := by
  induction cs with
  | nil => exact Nat.zero_le _
  | cons c cs ih =>
    have hunit := s.unit_pos
    have hsize : (if c = '\t' then s.unit else c.utf8Size) ≤ s.unit * c.utf8Size := by
      split
      · exact Nat.le_mul_of_pos_right s.unit c.utf8Size_pos
      · exact Nat.le_mul_of_pos_left c.utf8Size hunit
    rw [extent, byteLength_cons, Nat.mul_add]
    omega

/-- The columns of an indentation are the room that it takes. -/
theorem columns_eq (line : List Char) : s.columns line = s.extent (line.takeWhile isIndent) := by
  have hfold : ∀ cs : List Char, (∀ c ∈ cs, isIndent c = true) →
      cs.foldr (fun c n => s.width c + n) 0 = s.extent cs := by
    intro cs hcs
    induction cs with
    | nil => rfl
    | cons c cs ih =>
      have hc := hcs c List.mem_cons_self
      have hwidth : s.width c = if c = '\t' then s.unit else c.utf8Size := by
        simp only [isIndent, Bool.or_eq_true, beq_iff_eq] at hc
        rcases hc with rfl | rfl <;> rfl
      rw [List.foldr_cons, ih fun d hd => hcs d (List.mem_cons_of_mem c hd), extent, hwidth]
  exact hfold _ (List.all_eq_true.mp List.all_takeWhile)

theorem extent_eq_columns (line : List Char) :
    s.extent line = s.columns line + s.extent (line.dropWhile isIndent) := by
  rw [columns_eq, ← extent_append, List.takeWhile_append_dropWhile]

/-- Indentation takes the room of its columns. -/
theorem extent_render (cols : Nat) : s.extent (s.render cols) = cols := by
  have hblanks : ∀ n, s.extent (List.replicate n ' ') = n := by
    intro n
    induction n with
    | zero => rfl
    | succ n ih =>
      rw [List.replicate_succ, extent_blank, ih, Nat.add_comm]
  have htabs : ∀ n, s.extent (List.replicate n '\t') = n * s.unit := by
    intro n
    induction n with
    | zero => simp
    | succ n ih =>
      rw [List.replicate_succ, extent, if_pos rfl, ih, Nat.succ_mul, Nat.add_comm]
  unfold render
  split
  · exact hblanks cols
  · rw [extent_append, htabs, hblanks, Nat.mul_comm]
    exact Nat.div_add_mod cols s.unit

theorem extent_place (cols : Nat) (rest : List Char) :
    s.extent (s.place cols rest) = cols + s.extent rest := by
  rw [place, extent_append, extent_render]

end Style

theorem dropEndWhile_sublist (p : Char → Bool) (cs : List Char) :
    List.Sublist (dropEndWhile p cs) cs := by
  have h : List.Sublist (cs.reverse.dropWhile p).reverse cs.reverse.reverse :=
    (List.dropWhile_sublist p).reverse
  rwa [List.reverse_reverse] at h

theorem trim_sublist (cs : List Char) : List.Sublist (trim cs) cs :=
  (dropEndWhile_sublist isSpace _).trans (List.dropWhile_sublist _)

/-- The characters of a line are among those of the text, in their order. -/
theorem sublist_of_mem_lines {text l : List Char} (h : l ∈ lines text) : List.Sublist l text := by
  induction text generalizing l with
  | nil =>
    rw [lines, List.mem_singleton] at h
    exact h ▸ List.nil_sublist _
  | cons c text ih =>
    by_cases hc : c = '\n'
    · subst hc
      rw [lines_newline] at h
      rcases List.mem_cons.mp h with rfl | h
      · exact List.nil_sublist _
      · exact (ih h).cons _
    · obtain ⟨m, ms, hms, hall⟩ := lines_cons_of_ne hc text
      rw [hms] at ih
      rw [hall] at h
      rcases List.mem_cons.mp h with rfl | h
      · exact (ih List.mem_cons_self).cons_cons c
      · exact (ih (List.mem_cons_of_mem m h)).cons c

def Style.Within (style : Style) (room : Nat) (text : List Char) : Prop :=
  ∀ l ∈ lines text, style.extent l ≤ room

namespace Style

variable {style : Style} {room : Nat}

theorem Within.mono {text : List Char} (h : style.Within room text) {more : Nat}
    (hle : room ≤ more) :
    style.Within more text := fun l hl => Nat.le_trans (h l hl) hle

/-- A text stays within the room that its lines stay within. -/
theorem within_unlines {ls : List (List Char)} (h : ∀ l ∈ ls, style.extent l ≤ room) :
    style.Within room (unlines ls) := by
  induction ls with
  | nil =>
    intro l hl
    rw [unlines, lines, List.mem_singleton] at hl
    rw [hl]
    exact Nat.zero_le _
  | cons l ls ih =>
    have hfirst : style.Within room l := by
      intro m hm
      exact Nat.le_trans (style.extent_le_of_sublist (sublist_of_mem_lines hm))
        (h l List.mem_cons_self)
    have hlater := ih fun m hm => h m (List.mem_cons_of_mem l hm)
    by_cases hls : ls = []
    · subst hls
      exact hfirst
    · intro m hm
      rw [unlines_cons_of_ne_nil l hls, lines_append, List.mem_append] at hm
      exact hm.elim (hfirst m) (hlater m)

theorem within_scan_map {text : List Char} (h : style.Within room text)
    {f : ScannedLine → List Char} {more : Nat}
    (hf : ∀ l ∈ scan text, style.extent l.raw ≤ room → style.extent (f l) ≤ more) :
    style.Within more (unlines ((scan text).map f)) := by
  apply within_unlines
  intro m hm
  obtain ⟨l, hl, rfl⟩ := List.mem_map.mp hm
  exact hf l hl (h _ (mem_scan hl).2)

/-- A rule that keeps an invariant on its state and puts out lines that take at most the given
room. -/
theorem within_walk {σ : Type} {rule : σ → ScannedLine → σ × Output} (inv : σ → Prop)
    {text : List Char} {more : Nat} (h : style.Within room text)
    (hrule : ∀ s, ∀ l ∈ scan text, inv s → style.extent l.raw ≤ room →
      inv (rule s l).1 ∧ ∀ m ∈ (rule s l).2.lines, style.extent m ≤ more)
    {s : σ} (hs : inv s) : style.Within more (unlines (walk rule s (scan text)).lines) := by
  have hwalk : ∀ (ls : List ScannedLine), (∀ l ∈ ls, l ∈ scan text) → ∀ s, inv s →
      ∀ m ∈ (walk rule s ls).lines, style.extent m ≤ more := by
    intro ls
    induction ls with
    | nil => exact fun _ _ _ => nofun
    | cons l ls ih =>
      intro hls s hs m hm
      have hl := hls l List.mem_cons_self
      obtain ⟨hinv, hlines⟩ := hrule s l hl hs (h _ (mem_scan hl).2)
      rcases List.mem_append.mp hm with hm | hm
      · exact hlines m hm
      · exact ih (fun k hk => hls k (List.mem_cons_of_mem l hk)) _ hinv m hm
  apply within_unlines
  exact hwalk (scan text) (fun _ hl => hl) s hs

end Style

namespace Gaps

variable (style : Style)

/-- A gap adds one blank at most. -/
theorem extent_before_le (out : List Char) : style.extent (before out) ≤ style.extent out + 1 := by
  have hle := style.extent_le_of_sublist (List.dropWhile_sublist isIndent : List.Sublist _ out)
  unfold before
  split
  · exact Nat.zero_le _
  · rename_i c cs h
    rw [h] at hle
    split
    · omega
    · rw [Style.extent_blank]
      omega

theorem extent_after_le (more : Bool) (rest out : List Char) :
    style.extent (after more rest out) ≤ style.extent out + 1 := by
  unfold after
  split
  · split
    · rw [Style.extent_blank]
      omega
    · omega
  · split
    · omega
    · rw [Style.extent_blank]
      omega

theorem extent_binary_le (more : Bool) (text rest out : List Char) :
    style.extent (binary more text rest out) ≤ style.extent text + style.extent out + 2 := by
  have hafter := extent_after_le style more (rest.dropWhile isIndent) (text.reverse ++ before out)
  have hbefore := extent_before_le style out
  rw [Style.extent_append, Style.extent_reverse] at hafter
  unfold binary
  omega

/-- Every operator has a character of its own for the two blanks around it. -/
theorem extent_operators_le (more : Bool) {ops : List Operator}
    (hops : ∀ op ∈ ops, op ∈ Operator.table) (rest out : List Char) :
    style.extent (operators more rest out ops).1 ≤ style.extent out + 3 *
      style.extent (ops.flatMap Operator.text) := by
  induction ops generalizing rest out with
  | nil => exact Nat.le_add_right _ _
  | cons op ops ih =>
    have hpos : 0 < op.text.length :=
      List.length_pos_iff.mpr (Operator.isOperatorChar_of_mem_table (hops op List.mem_cons_self)).1
    have hlen := style.length_le_extent op.text
    have hlater := fun rest out => ih (fun o ho => hops o (List.mem_cons_of_mem op ho)) rest out
    have hbefore := extent_before_le style out
    rw [List.flatMap_cons, Style.extent_append, operators]
    simp only
    split
    · have h := hlater (rest.drop op.text.length) (op.text.reverse ++ out)
      rw [Style.extent_append, Style.extent_reverse] at h
      simp only
      omega
    split
    · have h := extent_binary_le style more op.text (rest.drop op.text.length) out
      simp only
      omega
    · have h := hlater (rest.drop op.text.length) (' ' :: (op.text.reverse ++ before out))
      rw [Style.extent_blank, Style.extent_append, Style.extent_reverse] at h
      simp only
      omega

/-- What one place of code puts out takes three times its room at most: the blanks around it are
two. -/
theorem extent_place_le (more : Bool) (special : Option Nat) (front : List Char) (c : Char)
    (cs out : List Char) :
    style.extent (place more special front c cs out).1 ≤
      style.extent out + 3 * style.extent (c :: cs.take (place more special front c cs out).2) := by
  have hone : 1 ≤ style.extent [c] := style.length_le_extent [c]
  have hmore : ∀ n, style.extent [c] ≤ style.extent (c :: cs.take n) := by
    intro n
    rw [Style.extent_cons style c (cs.take n)]
    omega
  by_cases hs : special = some 0
  · have hput := extent_binary_le style more [c] cs out
    have h := hmore (cs.takeWhile isIndent).length
    simp only [place, if_pos hs]
    omega
  by_cases hc : c = ','
  · have hput := extent_after_le style more (cs.dropWhile isIndent) (',' :: out.dropWhile isIndent)
    have hcut := style.extent_le_of_sublist (List.dropWhile_sublist isIndent : List.Sublist _ out)
    have h := hmore (cs.takeWhile isIndent).length
    rw [Style.extent_cons] at hput
    simp only [place, if_neg hs, if_pos hc]
    rw [hc] at h hone ⊢
    omega
  by_cases hop : isOperatorChar c = true
  · obtain ⟨rest, hrest, hplace⟩ := place_operator more front cs out hs hc hop
    rw [hplace]
    have htake : ∀ n, (runAfter special cs).length ≤ n →
        style.extent (c :: runAfter special cs) ≤ style.extent (c :: cs.take n) := by
      intro n hn
      apply style.extent_le_of_sublist
      refine List.Sublist.cons_cons c ?_
      have hpre := List.take_prefix_take_left (l := cs) hn
      rw [← List.prefix_iff_eq_take.mp (runAfter_front special cs)] at hpre
      exact hpre.sublist
    split
    · have h := htake (runAfter special cs).length (Nat.le_refl _)
      simp only [Style.extent_append, Style.extent_reverse]
      omega
    · rename_i ops hops
      obtain ⟨-, hflat, htable⟩ := splitRun?_flatMap_text hops
      rw [List.drop_zero] at hflat
      have hput := extent_operators_le style more htable (c :: cs) out
      have hlen := length_le_operators more ops (c :: cs) out
      rw [hflat] at hput hlen
      rw [List.length_cons] at hlen
      have h := htake ((operators more (c :: cs) out ops).2 - 1) (by omega)
      simp only
      omega
  · have h := hmore 0
    simp only [place, if_neg hs, if_neg hc, if_neg hop]
    rw [Style.extent_cons style c out]
    omega

/-- A stretch of code takes three times its room at most when its gaps are set. -/
theorem extent_code_le (more : Bool) (special : Option Nat) (owed : Nat)
    (front out cs : List Char) :
    style.extent (code more special owed front out cs) ≤
      style.extent out + 3 * style.extent (cs.drop owed) := by
  induction cs generalizing special owed front out with
  | nil => simp [code]
  | cons c cs ih =>
    cases owed with
    | succ n =>
      rw [code, List.drop_succ_cons]
      exact ih _ _ _ _
    | zero =>
      have hput := extent_place_le style more special front c cs out
      rw [code, List.drop_zero]
      generalize place more special front c cs out = r at hput ⊢
      have hlater :=
        ih (special.bind fun n => if n = 0 then none else some (n - 1)) r.2 (c :: front) r.1
      have hsplit : style.extent (c :: cs) = style.extent (c :: cs.take r.2) +
          style.extent (cs.drop r.2) := by
        rw [← Style.extent_append, List.cons_append, List.take_append_drop]
      omega

/-- The segments of a line take three times their room at most. -/
theorem extent_segments_le (out : List Char) (ss : List Segment) :
    style.extent (segments out ss) ≤ style.extent out + 3 *
      style.extent (ss.flatMap Segment.text) := by
  induction ss generalizing out with
  | nil => exact Nat.le_add_right _ _
  | cons s ss ih =>
    rw [segments, List.flatMap_cons, Style.extent_append]
    split
    · have hcode := extent_code_le style (!ss.isEmpty) none 0 [] out s.text
      have hlater := ih (code (!ss.isEmpty) none 0 [] out s.text)
      rw [List.drop_zero] at hcode
      omega
    · have hlater := ih (s.text.reverse ++ out)
      rw [Style.extent_append, Style.extent_reverse] at hlater
      omega

/-- A line of code takes three times its room at most, with its marker set apart. -/
theorem extent_codeLine_le (role : Role) (head : List Char) (later : List Segment) :
    style.extent (codeLine role head later) ≤
      3 * (style.extent head + style.extent (later.flatMap Segment.text)) := by
  -- the marker and the blank behind it
  have hset : ∀ front body, style.extent front + 3 * style.extent body ≤ 3 * style.extent head →
      style.extent
        (segments (code (!later.isEmpty) (special? role body) 0 [] front body) later).reverse ≤
        3 * (style.extent head + style.extent (later.flatMap Segment.text)) := by
    intro front body hle
    have hcode := extent_code_le style (!later.isEmpty) (special? role body) 0 [] front body
    have hlater :=
      extent_segments_le style (code (!later.isEmpty) (special? role body) 0 [] front body) later
    rw [List.drop_zero] at hcode
    rw [Style.extent_reverse]
    omega
  have hplain := hset [] head (by simp)
  unfold codeLine
  generalize hm :
    (if role = .watch ∨ role = .test then (watchMarker? head).getD [] else []) = marker
  by_cases hempty : marker = []
  · simpa [hempty] using hplain
  · have hwatch : watchMarker? head = some marker := by
      split at hm
      · cases hw : watchMarker? head with
        | none =>
          rw [hw] at hm
          exact absurd hm.symm hempty
        | some found =>
          rw [hw] at hm
          exact congrArg some hm
      · exact absurd hm.symm hempty
    obtain ⟨rest, rfl⟩ := eq_append_of_watchMarker? hwatch
    have hpos := List.length_pos_iff.mpr hempty
    have hlen := style.length_le_extent marker
    have hrest : style.extent (trimStart rest) ≤ style.extent rest :=
      style.extent_le_of_sublist (List.dropWhile_sublist _)
    have hfront : style.extent (if (trimStart rest).isEmpty && later.isEmpty then marker.reverse
        else ' ' :: marker.reverse) ≤ style.extent marker + 1 := by
      split
      · rw [Style.extent_reverse]
        omega
      · rw [Style.extent_blank, Style.extent_reverse]
        omega
    have h := hset _ (trimStart rest) (Nat.le_trans (Nat.add_le_add_right hfront _) (by
      rw [Style.extent_append]
      omega))
    simpa [hempty] using h

/-- Setting the gaps of a line makes it three times as wide at most. -/
theorem extent_line_le {l : ScannedLine} (hl : l.raw = l.segments.flatMap Segment.text) :
    style.extent (line l) ≤ 3 * style.extent l.raw := by
  have hall : style.extent (segments [] l.segments).reverse ≤ 3 * style.extent l.raw := by
    have h := extent_segments_le style [] l.segments
    rw [← hl, Style.extent_nil, Nat.zero_add] at h
    rwa [Style.extent_reverse]
  unfold line
  split
  · omega
  split
  · exact hall
  simp only
  split
  · omega
  split
  · omega
  · rename_i first later hss
    split
    · have h :=
        extent_codeLine_le style (Role.ofCode l.codeText) (first.text.dropWhile isIndent) later
      have hsplit : style.extent first.text =
          style.extent (first.text.takeWhile isIndent) +
          style.extent (first.text.dropWhile isIndent) := by
        rw [← Style.extent_append, List.takeWhile_append_dropWhile]
      rw [hl, hss, List.flatMap_cons, Style.extent_append, Style.extent_append]
      omega
    · exact hall

end Gaps

theorem Margin.extent_strip_le (style : Style) (margin : List Char) (l : ScannedLine) :
    style.extent (Margin.strip margin l) ≤ style.extent l.raw := by
  unfold Margin.strip dropFront?
  split
  · split
    · exact style.extent_le_of_sublist (List.drop_sublist _ _)
    · exact Nat.le_refl _
  · exact Nat.le_refl _

/-- Without its margin a text takes no more room. -/
theorem Margin.within_remove {style : Style} {room : Nat} {text : List Char}
    (h : style.Within room text) : style.Within room (Margin.remove text).text := by
  unfold Margin.remove
  simp only
  split
  · exact h
  split
  · exact h
  split
  · exact Style.within_scan_map h fun l _ hl => Nat.le_trans (Margin.extent_strip_le style _ l) hl
  · exact h

namespace Levels

/-- The nearest level is at most half a level away. -/
theorem colsOf_levelOf_le (style : Style) (cols : Nat) :
    style.colsOf (style.levelOf cols) ≤ cols + style.unit / 2 :=
  Nat.div_mul_le_self _ _

theorem colsOf_level_le (style : Style) (s : Levels) (role : Role) (code : List Char) (cols : Nat) :
    style.colsOf (s.level role code (style.levelOf cols)) ≤ cols + style.unit / 2 := by
  unfold level
  split
  · rw [Style.colsOf, Nat.zero_mul]
    exact Nat.zero_le _
  · exact colsOf_levelOf_le style cols

/-- A line that is put on its level takes half a level more at most. -/
theorem extent_rule_le (style : Style) (s : Levels) (l : ScannedLine) :
    ∀ m ∈ (rule style s l).2.lines, style.extent m ≤ style.extent l.raw + style.unit / 2 := by
  unfold rule
  split
  · intro m hm
    rw [Output.line, List.mem_singleton] at hm
    rw [hm]
    exact Nat.le_add_right _ _
  split
  · intro m hm
    rw [Output.line, List.mem_singleton] at hm
    rw [hm]
    exact Nat.zero_le _
  · intro m hm
    have hcols := colsOf_level_le style s (Role.ofCode (trim l.codeText)) (trim l.codeText)
      (style.columns l.raw)
    have hraw := style.extent_eq_columns l.raw
    simp only [Style.measure, List.mem_singleton] at hm
    rw [hm, Style.extent_place]
    omega

end Levels

namespace Scopes

structure Keeps (ok : Nat → Prop) (s : Scopes) : Prop where
  columns : ∀ p ∈ s.columns, ok p.2
  neighbour : ∀ c ∈ s.neighbour, ok c

namespace Keeps

variable {ok : Nat → Prop} {s : Scopes} (hs : s.Keeps ok) (style : Style) {cols : Nat}
include hs

theorem target (hcols : ok cols) : ok (s.target style cols) := by
  unfold Scopes.target
  split
  · rename_i established h
    have hmem : (style.levelOf cols, established) ∈ s.columns := by
      obtain ⟨front, back, hsplit, -⟩ := List.lookup_eq_some_iff.mp h
      rw [hsplit]
      simp
    exact hs.columns _ hmem
  split
  · rename_i column h
    split
    · exact hs.neighbour column h
    · exact hcols
  · exact hcols

/-- A line is put in its own column or in one that is kept. -/
theorem column (binding : Bool) (hcols : ok cols) : ok (s.column style binding cols) := by
  unfold Scopes.column
  split
  · exact hs.target style hcols
  · exact hcols

theorem after (binding opener : Bool) {column : Nat} (hcolumn : ok column) :
    (s.after style binding opener cols column).Keeps ok := by
  refine ⟨?_, ?_⟩
  · intro p hp
    simp only [Scopes.after] at hp
    split at hp
    · cases hp
    split at hp
    · rcases List.mem_cons.mp hp with rfl | hp
      · exact hcolumn
      · exact hs.columns p (List.mem_filter.mp hp).1
    · exact hs.columns p hp
  · intro c hc
    simp only [Scopes.after] at hc
    split at hc
    · cases hc
    split at hc
    · cases hc
      exact hcolumn
    · exact hs.neighbour c hc

end Keeps

theorem keeps_initial (ok : Nat → Prop) : initial.Keeps ok := ⟨nofun, nofun⟩

abbrev Within (room : Nat) (s : Scopes) : Prop := s.Keeps (· ≤ room)

/-- A line that is put under its binding takes twice the room at most, and the columns stay in the
room. -/
theorem within_rule {style : Style} {room : Nat} {s : Scopes} (hs : s.Within room) {l : ScannedLine}
    (hl : style.extent l.raw ≤ room) :
    (rule style s l).1.Within room ∧ ∀ m ∈ (rule style s l).2.lines, style.extent m ≤ 2 * room := by
  have hraw := style.extent_eq_columns l.raw
  unfold rule
  split
  · refine ⟨hs, fun m hm => ?_⟩
    rw [Output.line, List.mem_singleton] at hm
    rw [hm]
    omega
  · simp only [Style.measure]
    have hcolumn := hs.column style (bindingHead? (trim l.codeText)).isSome
      (show style.columns l.raw ≤ room by omega)
    refine ⟨hs.after style _ _ hcolumn, fun m hm => ?_⟩
    rw [List.mem_singleton] at hm
    by_cases hstays : s.column style (bindingHead? (trim l.codeText)).isSome (style.columns l.raw) =
      style.columns l.raw
    · simp only [hstays, if_true] at hm
      rw [hm]
      omega
    · simp only [hstays, if_false] at hm
      rw [hm, Style.extent_place]
      omega

end Scopes

namespace Chains

structure Within (style : Style) (room : Nat) (s : Chains) : Prop where
  base : ∀ b ∈ s.base, b ≤ room + 2 * style.unit
  previous : s.base = none → ∀ p ∈ s.previous, p ≤ room

variable {style : Style} {room : Nat}

theorem within_initial (style : Style) (room : Nat) : initial.Within style room := ⟨nofun, nofun⟩

theorem within_some {column : Nat} (h : column ≤ room + 2 * style.unit) :
    Within style room ⟨some column, some column⟩ := by
  refine ⟨fun b hb => ?_, nofun⟩
  cases hb
  exact h

/-- The column of a link is two levels beyond the room at most. -/
theorem Within.joinColumn_le {s : Chains} (hs : s.Within style room) {cols : Nat}
    (hcols : cols ≤ room) : s.joinColumn style cols ≤ room + 2 * style.unit := by
  have hone : style.colsOf 1 = style.unit := Nat.one_mul _
  unfold joinColumn
  cases hbase : s.base with
  | some b => exact hs.base b hbase
  | none =>
    cases hprevious : s.previous with
    | some p =>
      have hp := hs.previous hbase p hprevious
      simp only [Option.getD_none, Option.elim_some, hone]
      omega
    | none =>
      simp only [Option.getD_none, Option.elim_none]
      omega

theorem startColumn_le (style : Style) (head : Option (List Char)) {cols : Nat}
    (hcols : cols ≤ room) : startColumn style head cols ≤ room + style.unit := by
  have hone : style.colsOf 1 = style.unit := Nat.one_mul _
  unfold startColumn
  split <;> omega

/-- A link takes the room of its part of the chain and of one blank. -/
theorem extent_render_le (style : Style) (first : List Char) (parts : List (Pipe × List Char)) :
    ∀ k ∈ linksOf none first parts, style.extent k.render ≤
      style.extent (chainText first parts) + 1 := by
  intro k hk
  rw [chainText, Style.extent_append]
  rcases List.mem_append.mp hk with hk | hk
  · split at hk
    · rw [List.mem_singleton] at hk
      have htrim := style.extent_le_of_sublist (trim_sublist first)
      simp only [hk, Link.render]
      omega
    · cases hk
  · obtain ⟨q, hq, rfl⟩ := List.mem_map.mp hk
    have hpart : style.extent (q.1.text ++ q.2) ≤
        style.extent (parts.flatMap fun q => q.1.text ++ q.2) := by
      apply style.extent_le_of_sublist
      obtain ⟨before, after, rfl⟩ := List.append_of_mem hq
      rw [List.flatMap_append, List.flatMap_cons]
      exact (List.sublist_append_left _ _).trans (List.sublist_append_right _ _)
    have htrim := style.extent_le_of_sublist (trim_sublist q.2)
    rw [Style.extent_append] at hpart
    rw [Link.render]
    simp only
    split
    · omega
    · rw [Style.extent_append, Style.extent_blank]
      omega

/-- A link takes the room of its column, of its text and of the comment. -/
theorem extent_linkLines_le (style : Style) (cols : Nat) (comment : Option (List Char))
    {links : List Link} {size : Nat} (h : ∀ k ∈ links, style.extent k.render ≤ size) :
    ∀ m ∈ linkLines style cols comment links,
      style.extent m ≤ cols + size + 1 + style.extent (comment.getD []) := by
  have hcomment : style.extent (comment.elim [] (' ' :: ·)) ≤ 1 +
      style.extent (comment.getD []) := by
    cases comment with
    | none => exact Nat.zero_le _
    | some c => exact Nat.le_of_eq (style.extent_blank c)
  induction links with
  | nil => exact nofun
  | cons k ks ih =>
    have hk := h k List.mem_cons_self
    cases ks with
    | nil =>
      intro m hm
      rw [linkLines, List.mem_singleton] at hm
      rw [hm, Style.extent_place, Style.extent_append]
      omega
    | cons k' ks =>
      intro m hm
      rw [linkLines] at hm
      · rcases List.mem_cons.mp hm with rfl | hm
        · rw [Style.extent_place]
          omega
        · exact ih (fun j hj => h j (List.mem_cons_of_mem k hj)) m hm
      · simp

/-- A chain that goes on takes twice the room at most, two levels, and the blanks around its
comment. -/
theorem within_continueChain {s : Chains} (hs : s.Within style room) {l : ScannedLine}
    (hraw : l.raw = l.segments.flatMap Segment.text) (hl : style.extent l.raw ≤ room) :
    (continueChain style s l).1.Within style room ∧
      ∀ m ∈ (continueChain style s l).2.lines, style.extent m ≤ 2 * room + 2 * style.unit + 2 := by
  have hcols := style.extent_eq_columns l.raw
  have hjoin := hs.joinColumn_le (show style.columns l.raw ≤ room by omega)
  unfold continueChain
  simp only [Style.measure]
  refine ⟨within_some hjoin, ?_⟩
  have hwhole :
      ∀ m ∈ [style.place (s.joinColumn style (style.columns l.raw)) (l.raw.dropWhile isIndent)],
      style.extent m ≤ 2 * room + 2 * style.unit + 2 := by
    intro m hm
    rw [List.mem_singleton] at hm
    rw [hm, Style.extent_place]
    omega
  split
  · rename_i hmany
    obtain ⟨first, parts, hrest, -, hsplit⟩ :=
      split?_eq hraw (List.ne_nil_of_length_pos (by omega))
        (List.takeWhile_append_dropWhile (p := isIndent) (l := l.raw)).symm
          (byteLength_indent_le_pipe hraw)
    have hsize := congrArg style.extent hrest
    rw [Style.extent_append] at hsize
    rw [hsplit, Option.elim_some]
    intro m hm
    have h :=
      extent_linkLines_le style _ l.trailingComment? (extent_render_le style first parts) m hm
    omega
  · exact hwhole

/-- A broken line takes twice the room at most, two levels, and the blanks around its comment. -/
theorem within_breakChain {l : ScannedLine} (hraw : l.raw = l.segments.flatMap Segment.text)
    (hpipes : l.pipes ≠ []) (hl : style.extent l.raw ≤ room) :
    (breakChain style l).1.Within style room ∧
      ∀ m ∈ (breakChain style l).2.lines, style.extent m ≤ 2 * room + 2 * style.unit + 2 := by
  have hcols := style.extent_eq_columns l.raw
  have hstart := startColumn_le style (definition? l) (show style.columns l.raw ≤ room by omega)
  have hone : style.colsOf 1 = style.unit := Nat.one_mul _
  obtain ⟨first, parts, hsplit, -, hlinks⟩ := brokenLinks?_eq hraw hpipes
  have hsize := congrArg style.extent hsplit
  rw [Style.extent_append, Style.extent_append] at hsize
  have hfront : ∀ head ∈ definition? l, style.extent (trim head) ≤ style.extent (chainFront l) := by
    intro head hhead
    have htrim := style.extent_le_of_sublist (trim_sublist head)
    rw [chainFront, hhead, Option.elim_some, Style.extent_append]
    omega
  unfold breakChain
  simp only [hlinks]
  refine ⟨within_some (by omega), fun m hm => ?_⟩
  rcases List.mem_append.mp hm with hm | hm
  · cases hdef : definition? l with
    | none =>
      rw [hdef] at hm
      cases hm
    | some head =>
      rw [hdef, Option.elim_some, List.mem_singleton] at hm
      have hhead := hfront head hdef
      rw [hm, Style.extent_place, Style.extent_append, show style.extent " =".toList = 2 by rfl]
      omega
  · have hrender := extent_render_le style first parts
    split at hm
    · rename_i text later heq
      rw [heq] at hrender
      rcases List.mem_cons.mp hm with rfl | hm
      · have h := hrender _ List.mem_cons_self
        rw [Link.render] at h
        rw [Style.extent_place]
        simp only at h
        omega
      · have h := extent_linkLines_le style _ l.trailingComment?
          (fun k hk => hrender k (List.mem_cons_of_mem _ hk)) m hm
        omega
    · have h := extent_linkLines_le style _ l.trailingComment? hrender m hm
      omega

/-- However a line is laid out, it takes twice the room at most, two levels, and the blanks around
its comment. -/
theorem within_rule {s : Chains} (hs : s.Within style room) {l : ScannedLine}
    (hraw : l.raw = l.segments.flatMap Segment.text) (hl : style.extent l.raw ≤ room) :
    (rule style s l).1.Within style room ∧
      ∀ m ∈ (rule style s l).2.lines, style.extent m ≤ 2 * room + 2 * style.unit + 2 := by
  have hcols := style.extent_eq_columns l.raw
  have hline : ∀ m ∈ (Output.line l.raw).lines, style.extent m ≤ 2 * room + 2 * style.unit + 2 := by
    intro m hm
    rw [Output.line, List.mem_singleton] at hm
    rw [hm]
    omega
  unfold rule
  split
  · exact ⟨hs, hline⟩
  split
  · exact within_continueChain hs hraw hl
  split
  · refine ⟨⟨fun b hb => ?_, fun _ p hp => ?_⟩, hline⟩
    · exact hs.base b (Option.filter_eq_some_iff.mp hb).1
    · cases hp
      omega
  · exact within_breakChain hraw (List.ne_nil_of_length_pos (by omega)) hl

end Chains

theorem Paragraphs.extent_rule_le (style : Style) (s : Paragraphs) (l : ScannedLine) :
    ∀ m ∈ (Paragraphs.rule s l).2.lines, style.extent m ≤ style.extent l.raw := by
  unfold Paragraphs.rule
  split
  · intro m hm
    rw [Output.line, List.mem_singleton] at hm
    exact Nat.le_of_eq (congrArg style.extent hm)
  split
  · exact fun _ h => by cases h
  · intro m hm
    simp only at hm
    split at hm
    · simp only [List.mem_cons, List.not_mem_nil, or_false] at hm
      rcases hm with rfl | rfl
      · exact Nat.zero_le _
      · exact Nat.le_refl _
    · rw [List.mem_singleton] at hm
      exact Nat.le_of_eq (congrArg style.extent hm)

theorem Endings.extent_line_le (style : Style) (l : ScannedLine) :
    style.extent (Endings.line l) ≤ style.extent l.raw := by
  unfold Endings.line
  split
  · exact Nat.le_refl _
  · exact style.extent_le_of_sublist (dropEndWhile_sublist _ _)

/-- Without blanks at the ends of its lines a text takes no more room. -/
theorem Endings.within_trim {style : Style} {room : Nat} {text : List Char}
    (h : style.Within room text) : style.Within room (Endings.trim text) := by
  obtain ⟨tail, htail, -⟩ := Endings.dropEmptyEnd_append ((scan text).map Endings.line)
  have hlines : ∀ m ∈ Endings.dropEmptyEnd ((scan text).map Endings.line),
      style.extent m ≤ room := by
    intro m hm
    have hmem : m ∈ (scan text).map Endings.line := by
      rw [← htail]
      exact List.mem_append_left tail hm
    obtain ⟨l, hl, rfl⟩ := List.mem_map.mp hmem
    exact Nat.le_trans (Endings.extent_line_le style l) (h _ (mem_scan hl).2)
  unfold Endings.trim
  split
  · have hnil : style.Within room (unlines []) := Style.within_unlines nofun
    exact hnil
  · intro m hm
    rw [lines_append, List.mem_append] at hm
    rcases hm with hm | hm
    · exact Style.within_unlines hlines m hm
    · rw [lines, List.mem_singleton] at hm
      rw [hm]
      exact Nat.zero_le _

def Stage.room (style : Style) (room : Nat) : Stage → Nat
  | gaps => 3 * room
  | levels => room + style.unit / 2
  | scopes => 2 * room
  | chains => 2 * room + 2 * style.unit + 2
  | margin | paragraphs | endings => room

/-- Each stage takes no more than the room that is reckoned for it. -/
theorem within_stage {style : Style} {room : Nat} {text : List Char} (h : style.Within room text)
    (stage : Stage) : style.Within (stage.room style room) (stage.run style text).text := by
  cases stage with
  | margin => exact Margin.within_remove h
  | gaps =>
    refine Style.within_scan_map h fun l hl hle => ?_
    exact Nat.le_trans (Gaps.extent_line_le style (raw_eq_flatMap_text hl))
      (Nat.mul_le_mul_left 3 hle)
  | levels =>
    refine Style.within_walk (fun _ => True) h
      (fun s l _ _ hle => ⟨trivial, fun m hm => ?_⟩) trivial
    exact Nat.le_trans (Levels.extent_rule_le style s l m hm) (Nat.add_le_add_right hle _)
  | scopes =>
    exact Style.within_walk (Scopes.Within room) h (fun s l _ hs hle => Scopes.within_rule hs hle)
      (Scopes.keeps_initial _)
  | chains =>
    exact Style.within_walk (Chains.Within style room) h
      (fun s l hl hs hle => Chains.within_rule hs (raw_eq_flatMap_text hl) hle)
        (Chains.within_initial style room)
  | paragraphs =>
    refine Style.within_walk (fun _ => True) h
      (fun s l _ _ hle => ⟨trivial, fun m hm => ?_⟩) trivial
    exact Nat.le_trans (Paragraphs.extent_rule_le style s l m hm) hle
  | endings => exact Endings.within_trim h

/-- A text takes the room of its bytes at most, each as wide as a level. -/
theorem within_joinLineEnds (style : Style) (text : List Char) :
    style.Within (style.unit * byteLength text) (joinLineEnds text) := by
  have hlen : byteLength (joinLineEnds text) ≤ byteLength text := by
    fun_induction joinLineEnds text with
    | case1 => exact Nat.le_refl _
    | case2 cs ih =>
      simp only [byteLength_cons]
      omega
    | case3 c cs _ ih =>
      simp only [byteLength_cons]
      omega
  intro l hl
  calc style.extent l
      ≤ style.extent (joinLineEnds text) := style.extent_le_of_sublist (sublist_of_mem_lines hl)
    _ ≤ style.unit * byteLength (joinLineEnds text) := style.extent_le_mul_byteLength _
    _ ≤ style.unit * byteLength text := Nat.mul_le_mul_left _ hlen

end ScratchFormat
