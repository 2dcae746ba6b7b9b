import ScratchFormat.Proofs.ChainRule

/-! Breaking chains twice. The lines that come out of the first pass have one pipe each, so the
second pass only moves them. It leaves a chain in place exactly when the lines above its links lead
to the column that the first pass put the links in. -/

namespace ScratchFormat

section Walk

variable {σ : Type} {rule : σ → ScannedLine → σ × Output}

def stateBelow (rule : σ → ScannedLine → σ × Output) (s : σ) : List ScannedLine → σ
  | [] => s
  | l :: ls => stateBelow rule (rule s l).1 ls

theorem stateBelow_append (s : σ) (as bs : List ScannedLine) :
    stateBelow rule s (as ++ bs) = stateBelow rule (stateBelow rule s as) bs := by
  induction as generalizing s with
  | nil => rfl
  | cons l as ih => exact ih _

theorem walk_append (s : σ) (as bs : List ScannedLine) :
    (walk rule s (as ++ bs)).lines = (walk rule s as).lines ++
      (walk rule (stateBelow rule s as) bs).lines := by
  induction as generalizing s with
  | nil => rfl
  | cons l as ih =>
    have hlater := ih (rule s l).1
    rw [List.cons_append, walk, walk, Output.append, Output.append, hlater, stateBelow,
      List.append_assoc]

theorem walk_singleton (s : σ) (l : ScannedLine) :
    (walk rule s [l]).lines = (rule s l).2.lines := by
  rw [walk, walk, Output.append]
  exact List.append_nil _

end Walk

namespace Chains

variable {style : Style}

theorem rule_kept (style : Style) (s : Chains) {l : ScannedLine} (h : l.isCodeLine = false) :
    rule style s l = (s, .line l.raw) := by
  simp [rule, h]

theorem rule_plain (style : Style) (s : Chains) {l : ScannedLine} (hcode : l.isCodeLine = true)
    (hstart : l.startsWithPipe = false) (hfew : l.pipes.length ≤ 1) :
    rule style s l =
      (⟨s.base.filter (· < style.columns l.raw), some (style.columns l.raw)⟩, .line l.raw) := by
  have hlt : l.pipes.length < 2 := by omega
  simp [rule, hcode, hstart, hlt]

theorem rule_joined (s : Chains) {l : ScannedLine} (hcode : l.isCodeLine = true)
    (hstart : l.startsWithPipe = true) (hfew : l.pipes.length ≤ 1) :
    rule style s l =
      (⟨some (s.joinColumn style (style.columns l.raw)),
        some (s.joinColumn style (style.columns l.raw))⟩, .line
        (style.place (s.joinColumn style (style.columns l.raw)) (l.raw.dropWhile isIndent))) := by
  have hnot : ¬ 1 < l.pipes.length := by omega
  simp [rule, hcode, hstart, continueChain, Style.measure, hnot, Output.line]

theorem joinColumn_some (base cols : Nat) : joinColumn ⟨some base, some base⟩ style cols = base :=
  rfl

theorem joinColumn_joinColumn (s : Chains) (cols : Nat) :
    s.joinColumn style (s.joinColumn style cols) = s.joinColumn style cols := by
  cases hbase : s.base with
  | some b => simp [joinColumn, hbase]
  | none => cases hprevious : s.previous <;> simp [joinColumn, hbase, hprevious]

/-- A text stands in one column only. -/
theorem place_inj {text : List Char} (h : ∀ c ∈ text.head?, isIndent c = false) {cols cols' : Nat}
    (heq : style.place cols text = style.place cols' text) : cols = cols' := by
  rw [← (Style.columns_place style cols h).2, heq, (Style.columns_place style cols' h).2]

/-- A line with one link goes to the column of its chain. -/
theorem rule_link (style : Style) (s : Chains) {text : List Char} (h : IsLink text) (cols : Nat) :
    rule style s (scanLine .code (style.place cols text)) =
      (⟨some (s.joinColumn style cols), some (s.joinColumn style cols)⟩,
        .line (style.place (s.joinColumn style cols) text)) := by
  have hcolumns : style.columns (scanLine .code (style.place cols text)).raw = cols :=
    (Style.columns_place style cols h.head).2
  have hrest : (scanLine .code (style.place cols text)).raw.dropWhile isIndent = text :=
    style.dropWhile_place cols h.head
  rw [rule_joined s ((isCodeLine_place style cols text).trans h.isCodeLine)
    ((startsWithPipe_place style cols text).trans h.startsWithPipe)
    (Nat.le_of_eq ((length_pipes_place style cols text).trans h.one)), hcolumns, hrest]

/-- A line of code that does not start with a pipe stays where it is. -/
theorem rule_plain_place (style : Style) (s : Chains) {text : List Char}
    (hhead : ∀ c ∈ text.head?, isIndent c = false) (hcode : (scanLine .code text).isCodeLine = true)
    (hstart : (scanLine .code text).startsWithPipe = false)
    (hfew : (scanLine .code text).pipes.length ≤ 1) (cols : Nat) :
    rule style s (scanLine .code (style.place cols text)) =
      (⟨s.base.filter (· < cols), some cols⟩, .line (style.place cols text)) := by
  have hcolumns : style.columns (scanLine .code (style.place cols text)).raw = cols :=
    (Style.columns_place style cols hhead).2
  rw [rule_plain style s ((isCodeLine_place style cols text).trans hcode)
    ((startsWithPipe_place style cols text).trans hstart)
    ((length_pipes_place style cols text).symm ▸ hfew), hcolumns]
  rfl

theorem isLink_of_le {text : List Char} (hcode : (scanLine .code text).isCodeLine = true)
    (hstart : (scanLine .code text).startsWithPipe = true)
    (hfew : (scanLine .code text).pipes.length ≤ 1) (hhead : ∀ c ∈ text.head?, isIndent c = false) :
    IsLink text := by
  refine ⟨hcode, hstart, Nat.le_antisymm hfew ?_, hhead⟩
  obtain ⟨p, hp⟩ := (ScannedLine.startsWithPipe_iff text).mp hstart
  apply List.length_pos_iff.mpr
  intro hnil
  rw [hnil] at hp
  cases hp

/-- A line that starts with its only pipe is a link, once its indentation is off. -/
theorem isLink_dropWhile {raw : List Char} (hcode : (scanLine .code raw).isCodeLine = true)
    (hstart : (scanLine .code raw).startsWithPipe = true)
    (hfew : (scanLine .code raw).pipes.length ≤ 1) : IsLink (raw.dropWhile isIndent) := by
  have hindent : ∀ c ∈ raw.takeWhile isIndent, isSpace c = true :=
    fun _ hc => isSpace_of_mem_indent hc
  rw [← List.takeWhile_append_dropWhile (p := isIndent) (l := raw)] at hcode hstart hfew
  rw [ScannedLine.isCodeLine_space_append hindent] at hcode
  rw [ScannedLine.startsWithPipe_space_append hindent] at hstart
  rw [ScannedLine.pipes_space_append hindent, List.length_map] at hfew
  exact isLink_of_le hcode hstart hfew (head?_dropWhile_eq_false isIndent raw)

theorem not_startsWithPipe {text : List Char} (h : (scanLine .code text).pipes = []) :
    (scanLine .code text).startsWithPipe = false := by
  refine Bool.eq_false_iff.mpr fun hstart => ?_
  obtain ⟨p, hp⟩ := (ScannedLine.startsWithPipe_iff text).mp hstart
  rw [h] at hp
  cases hp

/-- The links of a chain all go to the column that the first of them goes to. -/
theorem walk_links (style : Style) (s : Chains) {texts : List (List Char)}
    (h : ∀ text ∈ texts, IsLink text) (hne : texts ≠ []) (cols : Nat) :
    (walk (rule style) s (texts.map fun text => scanLine .code (style.place cols text))).lines =
        texts.map (style.place (s.joinColumn style cols)) ∧
      stateBelow (rule style) s (texts.map fun text => scanLine .code (style.place cols text)) =
        ⟨some (s.joinColumn style cols), some (s.joinColumn style cols)⟩ := by
  induction texts generalizing s with
  | nil => exact absurd rfl hne
  | cons text texts ih =>
    have hfirst := rule_link style s (h text List.mem_cons_self) cols
    rw [List.map_cons, walk, Output.append, stateBelow, hfirst]
    by_cases hnil : texts = []
    · subst hnil
      exact ⟨rfl, rfl⟩
    · -- behind the first link the column is settled
      obtain ⟨hlines, hstate⟩ := ih ⟨some (s.joinColumn style cols), some (s.joinColumn style cols)⟩
        (fun t ht => h t (List.mem_cons_of_mem text ht)) hnil
      rw [joinColumn_some] at hlines hstate
      exact ⟨by rw [hlines]; rfl, hstate⟩

/-- Whether the links of a chain that is broken out of a line find the column again that they are
put in. They do if the line above them is code, is no link itself, and no chain with links before
the column of the line is still open. If what the chain starts from is a comment, the links are told
by the lines above that, and below the head of a definition that leads them one level short. -/
def settles (style : Style) (s : Chains) (l : ScannedLine) : Bool :=
  if l.isCodeLine && !l.startsWithPipe && decide (1 < l.pipes.length) then
    let cols := style.columns l.raw
    match brokenLinks? l (definition? l) with
    | some (⟨none, text⟩ :: _) =>
      let base := startColumn style (definition? l) cols + style.colsOf 1
      if (scanLine .code text).isCodeLine then
        !(scanLine .code text).startsWithPipe && s.base.all fun b => decide (cols ≤ b)
      else (definition? l).isNone && decide (s.joinColumn style base = base)
    | _ => false
  else true

/-- Whether all chains that are broken out of the lines settle. -/
def settlesFrom (style : Style) (s : Chains) : List ScannedLine → Bool
  | [] => true
  | l :: ls => settles style s l && settlesFrom style (rule style s l).1 ls

theorem trim_eq_nil {cs : List Char} (h : ∀ c ∈ cs, isSpace c = true) : trim cs = [] := by
  rw [trim, trimStart, ← List.append_nil cs, List.dropWhile_append_of_pos h]
  rfl

/-- A line starts with a pipe exactly when nothing stands before the chain that is broken behind its
indentation. -/
theorem Broken.startsWithPipe_iff {column base : Nat} {raw first : List Char}
    {parts : List (Pipe × List Char)} {out : List (List Char)}
    (h : Broken style (scanLine .code raw) none column base first parts out) :
    (scanLine .code raw).startsWithPipe = true ↔ trim first = [] := by
  obtain ⟨⟨p, text⟩, later, hparts⟩ := List.exists_cons_of_ne_nil h.parts_ne_nil
  have hraw : raw = raw.takeWhile isIndent ++ _ := h.raw_eq
  have hpipes : chainPipes (byteLength (raw.takeWhile isIndent)) first parts = _ := h.pipes_eq
  rw [hparts, chainText_cons, List.append_assoc, List.append_assoc, ← List.append_assoc] at hraw
  rw [hparts, chainPipes, ← byteLength_append] at hpipes
  have hindent : ∀ c ∈ raw.takeWhile isIndent, isSpace c = true :=
    fun _ hc => isSpace_of_mem_indent hc
  generalize raw.takeWhile isIndent = indent at hraw hpipes hindent
  rw [ScannedLine.startsWithPipe_iff, ← hpipes, List.head?_cons]
  constructor
  · rintro ⟨q, hq⟩
    have hbytes : byteLength (indent ++ first) = byteLength (raw.takeWhile isSpace) :=
      (Prod.mk.inj (Option.some.inj hq)).1
    -- two beginnings of the line with as many bytes are the same
    have hpre : indent ++ first <+: raw := ⟨_, hraw.symm⟩
    have hle := prefix_of_byteLength_le hpre (List.takeWhile_prefix isSpace) (Nat.le_of_eq hbytes)
    apply trim_eq_nil
    intro c hc
    exact List.all_eq_true.mp List.all_takeWhile c (hle.subset (List.mem_append_right indent hc))
  · intro htrim
    obtain ⟨lead, tail, hfirst, hlead, htail⟩ := Cursor.trim_decompose first
    have hspace : ∀ c ∈ indent ++ first, isSpace c = true := by
      intro c hc
      rw [hfirst, htrim, List.nil_append, List.mem_append, List.mem_append] at hc
      rcases hc with hc | hc | hc
      · exact hindent c hc
      · exact hlead c hc
      · exact htail c hc
    refine ⟨p, ?_⟩
    congr 2
    conv => rhs; rw [hraw]
    obtain ⟨c, cs, hp⟩ := List.exists_cons_of_ne_nil p.text_ne_nil
    have hc : isSpace c = false := by
      cases hc : isSpace c with
      | false => rfl
      | true =>
        have hop := Pipe.isOperatorChar_of_mem_text (p := p) (c := c) (hp ▸ List.mem_cons_self)
        exact absurd (not_operator_of_isSpace hc) (by simp [hop])
    rw [List.takeWhile_append_of_pos hspace, hp, List.cons_append,
      List.takeWhile_cons_of_neg (by simp [hc]), List.append_nil]

theorem colsOf_one_pos (style : Style) : 0 < style.colsOf 1 := by
  rw [Style.colsOf, Nat.one_mul]
  exact style.unit_pos

/-- Behind a line at `column` a chain starts one level deeper, unless one that is open stands before
`cols`. -/
theorem joinColumn_plain_iff (s : Chains) {cols column base : Nat} (h : cols ≤ column)
    (hbase : base = column + style.colsOf 1) (x : Nat) :
    joinColumn ⟨s.base.filter (· < cols), some column⟩ style x = base ↔
      s.base.all (fun b => decide (cols ≤ b)) = true := by
  subst hbase
  cases hbase : s.base with
  | none => simp [joinColumn]
  | some b =>
    by_cases hb : b < cols
    · have hne : b ≠ column + style.colsOf 1 := by omega
      simp [joinColumn, Option.filter_some, hb, hne]
    · simp [joinColumn, Option.filter_some, hb, Nat.not_lt.mp hb]

/-- So below the line of a head no link stands two levels deeper. -/
theorem joinColumn_head_ne (s : Chains) {cols column base : Nat}
    (hcolumn : column = cols + style.colsOf 1) (hbase : base = column + style.colsOf 1) (x : Nat) :
    joinColumn ⟨s.base.filter (· < cols), some cols⟩ style x ≠ base := by
  have hunit := colsOf_one_pos style
  cases hbase : s.base with
  | none =>
    simp only [joinColumn, Option.filter_none, Option.getD_none, Option.elim_some]
    omega
  | some b =>
    by_cases hb : b < cols
    · simp only [joinColumn, Option.filter_some, hb, decide_true, if_true, Option.getD_some]
      omega
    · simp only [joinColumn, Option.filter_some, hb, decide_false, Bool.false_eq_true, if_false,
        Option.getD_none, Option.elim_some]
      omega

theorem map_place_inj {texts : List (List Char)} (h : ∀ text ∈ texts, IsLink text)
    (hne : texts ≠ []) {cols cols' : Nat} :
    texts.map (style.place cols) = texts.map (style.place cols') ↔ cols = cols' := by
  constructor
  · intro heq
    obtain ⟨text, later, rfl⟩ := List.exists_cons_of_ne_nil hne
    exact place_inj (h text List.mem_cons_self).head (List.cons.inj heq).1
  · rintro rfl
    rfl

/-- The links below lines that stay are left in place exactly when the state there leads to their
column. -/
theorem walk_above_links (style : Style) (s : Chains) {t : Chains} (above : List (List Char))
    (hlines : (walk (rule style) s (above.map (scanLine .code))).lines = above)
    (hstate : stateBelow (rule style) s (above.map (scanLine .code)) = t)
    {texts : List (List Char)} (h : ∀ text ∈ texts, IsLink text) (hne : texts ≠ []) (base : Nat) :
    ((walk (rule style) s ((above ++ texts.map (style.place base)).map (scanLine .code))).lines =
        above ++ texts.map (style.place base) ↔ t.joinColumn style base = base) ∧
      (t.joinColumn style base = base →
        stateBelow (rule style) s ((above ++ texts.map (style.place base)).map (scanLine .code)) =
          ⟨some base, some base⟩) := by
  obtain ⟨hlinks, hbelow⟩ := walk_links style t h hne base
  rw [List.map_append, List.map_map, walk_append, stateBelow_append, hlines, hstate]
  refine ⟨?_, fun hcolumn => ?_⟩
  · rw [List.append_cancel_left_eq]
    refine (Eq.congr_left hlinks).trans ?_
    exact map_place_inj h hne
  · rw [hcolumn] at hbelow
    exact hbelow

theorem filter_lt_filter_lt (base : Option Nat) {cols column : Nat} (h : cols ≤ column) :
    (base.filter (· < cols)).filter (· < column) = base.filter (· < cols) := by
  cases base with
  | none => rfl
  | some b =>
    by_cases hb : b < cols
    · have hdeep : b < column := by omega
      simp [Option.filter_some, hb, hdeep]
    · simp [Option.filter_some, hb]

/-- Links below one another do not stay in two columns. -/
theorem not_walk_two_columns {s t : Chains} {head : List Char}
    (hhead : rule style s (scanLine .code head) = (t, .line head)) {text : List Char}
    (hlink : IsLink text) {texts : List (List Char)} (h : ∀ text ∈ texts, IsLink text)
    (hne : texts ≠ []) {column base : Nat} (hcolumns : column ≠ base) :
    (walk (rule style) s ((head :: ([style.place column text] ++ texts.map (style.place base))).map
      (scanLine .code))).lines ≠ head ::
        ([style.place column text] ++ texts.map (style.place base)) := by
  intro heq
  obtain ⟨hlinks, -⟩ := walk_links style
    ⟨some (t.joinColumn style column), some (t.joinColumn style column)⟩ h hne base
  have hfirst := rule_link style t hlink column
  rw [List.map_cons, walk, Output.append, hhead, List.singleton_append, List.map_cons, walk,
    Output.append, hfirst, List.map_map] at heq
  obtain ⟨hcolumn, hbase⟩ := List.cons.inj (List.cons.inj heq).2
  have hbase := (map_place_inj h hne).mp (hlinks.symm.trans hbase)
  rw [joinColumn_some] at hbase
  exact hcolumns ((place_inj hlink.head hcolumn).symm.trans hbase)

theorem settles_of_not_broken (s : Chains) {l : ScannedLine}
    (h : l.isCodeLine = false ∨ l.startsWithPipe = true ∨ l.pipes.length ≤ 1) :
    settles style s l = true := by
  unfold settles
  rw [if_neg]
  rcases h with h | h | h
  · simp [h]
  · simp [h]
  · simp [Nat.not_lt.mpr h]

/-- A broken line settles if its links find their column again: what the chain starts from decides
which one. -/
theorem settles_broken (s : Chains) {l : ScannedLine} (hcode : l.isCodeLine = true)
    (hstart : l.startsWithPipe = false) (hmany : 1 < l.pipes.length) {first : List Char}
    {parts : List (Pipe × List Char)} (hne : parts ≠ [])
    (hlinks : brokenLinks? l (definition? l) = some (linksOf none first parts)) {cols base : Nat}
    (hcols : cols = style.columns l.raw)
    (hbase : base = startColumn style (definition? l) cols + style.colsOf 1) :
    settles style s l =
      (!(trim first).isEmpty &&
        if (scanLine .code (trim first)).isCodeLine then
          !(scanLine .code (trim first)).startsWithPipe && s.base.all fun b => decide (cols ≤ b)
        else (definition? l).isNone && decide (s.joinColumn style base = base)) := by
  subst hcols hbase
  unfold settles
  rw [if_pos (by simp [hcode, hstart, hmany]), hlinks, linksOf_none hne]
  cases (trim first).isEmpty with
  | true =>
    obtain ⟨q, later, rfl⟩ := List.exists_cons_of_ne_nil hne
    rfl
  | false => rfl

section Broken

variable {s : Chains} {raw first : List Char} {column base : Nat} {parts : List (Pipe × List Char)}
  {out : List (List Char)}

/-- The texts of the links of a broken line. -/
theorem Broken.links_ne_nil {head : Option (List Char)}
    (h : Broken style (scanLine .code raw) head column base first parts out) :
    linkTexts (scanLine .code raw).trailingComment?
      (parts.map fun q => ⟨some q.1, trim q.2⟩) ≠ [] := by
  obtain ⟨q, later, hparts⟩ := List.exists_cons_of_ne_nil h.parts_ne_nil
  rw [hparts]
  cases later with
  | nil => exact List.cons_ne_nil _ _
  | cons r later => exact List.cons_ne_nil _ _

/-- A chain that is broken behind the indentation of its line. -/
theorem Broken.settles_iff_of_none
    (h : Broken style (scanLine .code raw) none column base first parts out)
    (hstart : (scanLine .code raw).startsWithPipe = false)
    (hbase : base = column + style.colsOf 1) :
    ((walk (rule style) s (scanFrom .code out)).lines = out ↔
        (!(trim first).isEmpty &&
          if (scanLine .code (trim first)).isCodeLine then
            !(scanLine .code (trim first)).startsWithPipe && s.base.all fun b => decide (column ≤ b)
          else decide (s.joinColumn style base = base)) = true) ∧
      ((walk (rule style) s (scanFrom .code out)).lines = out →
        stateBelow (rule style) s (scanFrom .code out) = ⟨some base, some base⟩) := by
  have hfirst : (trim first).isEmpty = false := by
    refine Bool.eq_false_iff.mpr fun hempty => ?_
    rw [h.startsWithPipe_iff.mpr (List.isEmpty_iff.mp hempty)] at hstart
    cases hstart
  have hpipes : (scanLine .code (trim first)).pipes = [] :=
    (ScannedLine.pipes_trim_eq_nil_iff first).mpr h.pipes_of_none.1
  have hplain := not_startsWithPipe hpipes
  have hout : out = [style.place column (trim first)] ++
      (linkTexts (scanLine .code raw).trailingComment?
        (parts.map fun q => ⟨some q.1, trim q.2⟩)).map
        (style.place base) := by
    rw [h.out_eq, linkLines_eq_map, hfirst]
    rfl
  -- the line above the links stays; what it leads to depends on whether it is code
  have habove : ∀ t : Chains, rule style s (scanLine .code (style.place column (trim first))) =
      (t, .line (style.place column (trim first))) →
        ((walk (rule style) s (scanFrom .code out)).lines = out ↔ t.joinColumn style base = base) ∧
          ((walk (rule style) s (scanFrom .code out)).lines = out →
            stateBelow (rule style) s (scanFrom .code out) = ⟨some base, some base⟩) := by
    intro t hrule
    rw [h.scanFrom_out, hout]
    obtain ⟨hlines, hstate⟩ := walk_above_links style s [style.place column (trim first)]
      (by rw [List.map_singleton, walk_singleton, hrule]; rfl)
      (by rw [List.map_singleton, stateBelow, stateBelow, hrule]) h.isLink h.links_ne_nil base
    exact ⟨hlines, fun heq => hstate (hlines.mp heq)⟩
  rw [hfirst, hplain]
  cases hcode : (scanLine .code (trim first)).isCodeLine with
  | true =>
    obtain ⟨hlines, hstate⟩ :=
      habove _ (rule_plain_place style s (not_isIndent_head_trim first) hcode hplain
        (by rw [hpipes]; exact Nat.zero_le 1) column)
    rw [joinColumn_plain_iff s (Nat.le_refl column) hbase] at hlines
    exact ⟨hlines.trans (by simp), hstate⟩
  | false =>
    obtain ⟨hlines, hstate⟩ :=
      habove s (rule_kept style s ((isCodeLine_place style column (trim first)).trans hcode))
    exact ⟨hlines.trans (by simp), hstate⟩

/-- A chain that is broken behind the equals sign of a definition. -/
theorem Broken.settles_iff_of_some {text : List Char} {cols : Nat}
    (h : Broken style (scanLine .code raw) (some text) column base first parts out)
    (hcols : cols = style.columns raw) (hcolumn : column = cols + style.colsOf 1)
    (hbase : base = column + style.colsOf 1) :
    ((walk (rule style) s (scanFrom .code out)).lines = out ↔
        (!(trim first).isEmpty && (scanLine .code (trim first)).isCodeLine &&
          (!(scanLine .code (trim first)).startsWithPipe && s.base.all fun b => decide (cols ≤ b)))
            = true) ∧
      ((walk (rule style) s (scanFrom .code out)).lines = out →
        stateBelow (rule style) s (scanFrom .code out) = ⟨some base, some base⟩) := by
  obtain ⟨hheadCode, hheadPipes⟩ := h.headLine
  have hheadIndent : ∀ c ∈ (trim text ++ " =".toList).head?, isIndent c = false := by
    intro c hc
    obtain ⟨d, ds, hd⟩ :=
      List.exists_cons_of_ne_nil (trim_ne_nil_of_definition? (h.head_eq text rfl))
    have hfirst := not_isIndent_head_trim text
    rw [hd] at hc hfirst
    exact hfirst c hc
  have hhead := rule_plain_place style s hheadIndent hheadCode (not_startsWithPipe hheadPipes)
    (by rw [hheadPipes]; exact Nat.zero_le 1) cols
  have hlinks := h.isLink
  have hne := h.links_ne_nil
  have hout : out = style.place cols (trim text ++ " =".toList) ::
      ((if (trim first).isEmpty then [] else [style.place column (trim first)]) ++
        (linkTexts (scanLine .code raw).trailingComment?
          (parts.map fun q => ⟨some q.1, trim q.2⟩)).map
          (style.place base)) := by
    rw [h.out_eq, linkLines_eq_map, hcols]
    rfl
  rw [h.scanFrom_out, hout]
  generalize linkTexts (scanLine .code raw).trailingComment?
    (parts.map fun q => ⟨some q.1, trim q.2⟩) = texts at *
  cases hfirst : (trim first).isEmpty with
  | true =>
    -- the links stand right below the head, one level too deep
    obtain ⟨hlines, -⟩ := walk_above_links style s [style.place cols (trim text ++ " =".toList)]
      (by rw [List.map_singleton, walk_singleton, hhead]; rfl)
      (by rw [List.map_singleton, stateBelow, stateBelow, hhead]) hlinks hne base
    have hnot : ¬ (walk (rule style) s _).lines = _ := fun heq =>
      joinColumn_head_ne s hcolumn hbase base (hlines.mp heq)
    exact ⟨iff_of_false hnot (by simp), fun heq => absurd heq hnot⟩
  | false =>
    -- a first line that stays where it is
    have hstays : ∀ t : Chains, rule style ⟨s.base.filter (· < cols), some cols⟩
        (scanLine .code (style.place column (trim first))) =
          (t, .line (style.place column (trim first))) → _ :=
      fun t hrule => walk_above_links style s
        [style.place cols (trim text ++ " =".toList), style.place column (trim first)]
        (by
          rw [List.map_cons, walk, Output.append, hhead, List.map_singleton, walk_singleton, hrule]
          rfl)
        (by rw [List.map_cons, List.map_singleton, stateBelow, hhead, stateBelow, stateBelow,
          hrule]) hlinks hne base
    cases hcode : (scanLine .code (trim first)).isCodeLine with
    | false =>
      -- a comment leaves the links one level too deep as well
      obtain ⟨hlines, -⟩ :=
        hstays _ (rule_kept style _ ((isCodeLine_place style column (trim first)).trans hcode))
      have hnot : ¬ (walk (rule style) s _).lines = _ := fun heq =>
        joinColumn_head_ne s hcolumn hbase base (hlines.mp heq)
      exact ⟨iff_of_false hnot (by simp), fun heq => absurd heq hnot⟩
    | true =>
      cases hstart : (scanLine .code (trim first)).startsWithPipe with
      | false =>
        have hrule := rule_plain_place style ⟨s.base.filter (· < cols), some cols⟩
          (not_isIndent_head_trim first) hcode hstart h.pipes_first_le column
        rw [filter_lt_filter_lt s.base (show cols ≤ column by omega)] at hrule
        obtain ⟨hlines, hstate⟩ := hstays _ hrule
        refine ⟨?_, fun heq => hstate (hlines.mp heq)⟩
        rw [joinColumn_plain_iff s (show cols ≤ column by omega) hbase] at hlines
        exact hlines.trans (by simp)
      | true =>
        -- a pipe that was glued to the equals sign is a link itself, in a column of its own
        have hlink : IsLink (trim first) :=
          isLink_of_le hcode hstart h.pipes_first_le (not_isIndent_head_trim first)
        have hnot : ¬ (walk (rule style) s _).lines = _ :=
          not_walk_two_columns hhead hlink hlinks hne
          (show column ≠ base by have := colsOf_one_pos style; omega)
        exact ⟨iff_of_false hnot (by simp), fun heq => absurd heq hnot⟩

end Broken

section Laid

variable {s s' : Chains} {mode : Mode} {raw : List Char} {out : List (List Char)}

/-- The lines that are put out for a line are put out again exactly when its chain settles, and then
they lead to the same state. -/
theorem Laid.settles_iff (h : Laid style s (scanLine mode raw) s' out) :
    ((walk (rule style) s (scanFrom mode out)).lines = out ↔
      settles style s (scanLine mode raw) = true) ∧
      ((walk (rule style) s (scanFrom mode out)).lines = out →
        stateBelow (rule style) s (scanFrom mode out) = s') := by
  cases h with
  | kept hcode =>
    have hrule := rule_kept style s hcode
    have hlines : (walk (rule style) s [scanLine mode raw]).lines = [raw] := by
      rw [walk_singleton, hrule]
      rfl
    refine ⟨iff_of_true hlines (settles_of_not_broken s (.inl hcode)), fun _ => ?_⟩
    exact congrArg Prod.fst hrule
  | plain hcode hstart hfew =>
    have hrule := rule_plain style s hcode hstart hfew
    have hlines : (walk (rule style) s [scanLine mode raw]).lines = [raw] := by
      rw [walk_singleton, hrule]
      rfl
    refine ⟨iff_of_true hlines (settles_of_not_broken s (.inr (.inr hfew))), fun _ => ?_⟩
    exact congrArg Prod.fst hrule
  | joined hcode hstart hfew hbase =>
    obtain rfl := mode_of_isCodeLine hcode
    have hlink := isLink_dropWhile hcode hstart hfew
    have hrule := rule_link style s hlink (s.joinColumn style (style.columns raw))
    rw [joinColumn_joinColumn] at hrule
    subst hbase
    refine ⟨iff_of_true ?_ (settles_of_not_broken s (.inr (.inr hfew))),
      fun _ => congrArg Prod.fst hrule⟩
    exact (walk_singleton s _).trans (congrArg (fun r => r.2.lines) hrule)
  | continued hcode hstart hmany hbase hbroken =>
    obtain rfl := mode_of_isCodeLine hcode
    -- nothing stands before the first pipe, so there are only links
    rename_i base first parts
    have hempty : (trim first).isEmpty = true :=
      List.isEmpty_iff.mpr (hbroken.startsWithPipe_iff.mp hstart)
    obtain ⟨hlines, hstate⟩ := walk_links style s hbroken.isLink hbroken.links_ne_nil base
    have hcolumn : s.joinColumn style base = base := by rw [hbase, joinColumn_joinColumn]
    have hout := hbroken.out_eq
    rw [linkLines_eq_map, hempty] at hout
    rw [hbroken.scanFrom_out, hout]
    rw [hcolumn] at hlines hstate
    have hmap : ∀ ls : List (List Char), ls.map (fun t => scanLine .code (style.place base t)) =
        (ls.map (style.place base)).map (scanLine .code) := fun ls => by rw [List.map_map]; rfl
    rw [hmap] at hlines hstate
    exact ⟨iff_of_true hlines (settles_of_not_broken s (.inr (.inl hstart))), fun _ => hstate⟩
  | broken hcode hstart hmany hcolumn hbase hlinks hbroken =>
    obtain rfl := mode_of_isCodeLine hcode
    have hsettles :=
      settles_broken s hcode hstart hmany hbroken.parts_ne_nil hlinks rfl (hcolumn ▸ hbase)
    cases hhead : definition? (scanLine .code raw) with
    | none =>
      rw [hhead] at hbroken hcolumn hsettles
      obtain ⟨hlines, hstate⟩ := hbroken.settles_iff_of_none (s := s) hstart hbase
      refine ⟨hlines.trans ?_, hstate⟩
      rw [hsettles, hcolumn]
      rfl
    | some text =>
      rw [hhead] at hbroken hcolumn hsettles
      obtain ⟨hlines, hstate⟩ := hbroken.settles_iff_of_some (s := s) rfl hcolumn hbase
      refine ⟨hlines.trans ?_, hstate⟩
      rw [hsettles, show (scanLine .code raw).raw = raw from rfl]
      cases (scanLine .code (trim _)).isCodeLine <;> simp

/-- There is a line for every line. -/
theorem Laid.ne_nil (h : Laid style s (scanLine mode raw) s' out) : out ≠ [] := by
  cases h with
  | kept | plain | joined => exact List.cons_ne_nil _ _
  | continued hcode _ _ _ hbroken | broken hcode _ _ _ _ _ hbroken =>
    obtain rfl := mode_of_isCodeLine hcode
    rw [hbroken.out_eq, linkLines_eq_map]
    exact List.append_ne_nil_of_right_ne_nil _ (List.append_ne_nil_of_right_ne_nil _
      (mt List.map_eq_nil_iff.mp hbroken.links_ne_nil))

/-- A line with at most one pipe stays one line. -/
theorem Laid.length_of_le_one (h : Laid style s (scanLine mode raw) s' out)
    (hfew : (scanLine mode raw).isCodeLine = true → (scanLine mode raw).pipes.length ≤ 1) :
    out.length = 1 := by
  cases h with
  | kept | plain | joined => rfl
  | continued hcode _ hmany | broken hcode _ hmany =>
    exact absurd (hfew hcode) (Nat.not_le.mpr hmany)

end Laid

theorem laid_scanLine (style : Style) (s : Chains) (mode : Mode) (raw : List Char) :
    Laid style s (scanLine mode raw)
      (rule style s (scanLine mode raw)).1 (rule style s (scanLine mode raw)).2.lines :=
  laid_rule style s (raw_scanLine mode raw)

/-- As long as no line has more than one pipe, as many lines come out as go in. -/
theorem length_walk (style : Style) {mode : Mode} {ls : List (List Char)}
    (h : ∀ l ∈ scanFrom mode ls, l.isCodeLine = true → l.pipes.length ≤ 1) (s : Chains) :
    (walk (rule style) s (scanFrom mode ls)).lines.length = ls.length := by
  induction ls generalizing mode s with
  | nil => rfl
  | cons raw ls ih =>
    have hlaid := laid_scanLine style s mode raw
    have hone := hlaid.length_of_le_one (h _ List.mem_cons_self)
    have hlater :=
      ih (fun l hl => h l (List.mem_cons_of_mem _ hl)) (rule style s (scanLine mode raw)).1
    rw [scanFrom, walk, Output.append, List.length_append, hone, hlater,
      List.length_cons, Nat.add_comm]

/-- A second walk over the lines of a first one puts out the same lines exactly when all chains
settle. -/
theorem walk_walk_eq_iff (s : Chains) (mode : Mode) (ls : List (List Char)) :
    (walk (rule style) s (scanFrom mode (walk (rule style) s (scanFrom mode ls)).lines)).lines =
        (walk (rule style) s (scanFrom mode ls)).lines ↔
      settlesFrom style s (scanFrom mode ls) = true := by
  induction ls generalizing mode s with
  | nil => simp [scanFrom, walk, settlesFrom, Output.nothing]
  | cons raw ls ih =>
    have hlaid := laid_scanLine style s mode raw
    obtain ⟨hsettles, hstate⟩ := hlaid.settles_iff
    have hlength := length_walk style hlaid.pipes_le_one s
    have hlater := ih (rule style s (scanLine mode raw)).1 (scanLine mode raw).endsIn.carried
    rw [(keepsModes style).scanFrom_walk, walk_append, scanFrom, walk, Output.append, settlesFrom,
      Bool.and_eq_true, ← hsettles, ← hlater]
    constructor
    · intro heq
      obtain ⟨hfirst, hrest⟩ := List.append_inj heq hlength
      rw [hstate hfirst] at hrest
      exact ⟨hfirst, hrest⟩
    · rintro ⟨hfirst, hrest⟩
      rw [hstate hfirst, hfirst, hrest]

theorem walk_scan_ne_nil (style : Style) (text : List Char) :
    (walk (rule style) initial (scan text)).lines ≠ [] := by
  obtain ⟨raw, ls, hlines⟩ := List.exists_cons_of_ne_nil (lines_ne_nil text)
  have hlaid := laid_scanLine style initial .code raw
  rw [scan, hlines, scanFrom, walk, Output.append]
  exact List.append_ne_nil_of_left_ne_nil hlaid.ne_nil _

/-- Breaking the chains of a text a second time changes nothing exactly when all of them settle. -/
theorem layOut_layOut_eq_iff (style : Style) (text : List Char) :
    (layOut style (layOut style text).text).text = (layOut style text).text ↔
      settlesFrom style initial (scan text) = true := by
  have hnewline := newline_notMem_lines style initial text
  have hne := walk_scan_ne_nil style text
  have hscan : scan (layOut style text).text =
      scanFrom .code (walk (rule style) initial (scan text)).lines :=
    scan_unlines hne hnewline
  rw [scan, ← walk_walk_eq_iff, ← scan, ← hscan]
  constructor
  · -- texts that are put together from lines are the same only if the lines are
    intro heq
    have hlines := congrArg lines heq
    rwa [layOut, layOut, Output.outcome, Output.outcome,
      lines_unlines (walk_scan_ne_nil style _) (newline_notMem_lines style initial _),
      lines_unlines hne hnewline] at hlines
  · intro heq
    exact congrArg unlines heq

/-- A definition with nothing before its first pipe takes two runs: the first puts its links two
levels below the head, as if something stood there, and the second moves them up. -/
theorem layOut_layOut_bareChain :
    (layOut .standard "x = |> a |> b".toList).text = "x =\n    |> a\n    |> b".toList ∧
      (layOut .standard "x =\n    |> a\n    |> b".toList).text = "x =\n  |> a\n  |> b".toList := by
  decide +kernel

end Chains

end ScratchFormat
