import ScratchFormat.Proofs.Heads
import ScratchFormat.Proofs.SetSegments

/-! The colon or the equals sign that a line is about stands apart from the operators around it, and
the marker of a watch expression is found again once its line has been set. -/

namespace ScratchFormat

theorem takeWhile_operator_of_last {cs : List Char} (h : cs.getLast?.any isOperatorChar = false) :
    cs.reverse.takeWhile isOperatorChar = [] := by
  rw [← List.head?_reverse] at h
  cases hcs : cs.reverse with
  | nil => rfl
  | cons c cs =>
    rw [hcs] at h
    exact List.takeWhile_cons_of_neg (by simpa using h)

/-- The equals sign of a definition stands behind no operator and before neither `=` nor `>`. -/
theorem around_equals {depth : Nat} {prev : Option Char} {cs head : List Char}
    (h : beforeEquals? depth prev cs = some head) :
    ∃ rest, cs = head ++ '=' :: rest ∧ (head.getLast?.or prev).any isOperatorChar = false ∧
      rest.head?.any (fun d => d == '=' || d == '>') = false := by
  induction cs generalizing depth prev head with
  | nil => cases h
  | cons c cs ih =>
    rw [beforeEquals?] at h
    split at h
    · cases h
    · split at h
      · rename_i heq
        cases h
        refine ⟨cs, by rw [heq.1]; rfl, ?_, ?_⟩
        · simpa using heq.2.2.1
        · simpa using heq.2.2.2
      · obtain ⟨later, hlater, rfl⟩ := Option.map_eq_some_iff.mp h
        obtain ⟨rest, hrest, hprev, hnext⟩ := ih hlater
        refine ⟨rest, by rw [hrest]; rfl, ?_, hnext⟩
        rwa [getLast?_cons_or]

/-- Before the colon of a signature stands no operator, or the exclamation mark of its name. -/
theorem SignatureName.run_before_colon {name : List Char} (h : SignatureName name) :
    name.reverse.takeWhile isOperatorChar = [] ∨ name.reverse.takeWhile isOperatorChar = ['!'] := by
  cases h with
  | @word c cs bang hstart hrest hbang =>
    -- all characters before the exclamation mark belong to the name
    have hplain : ∀ d ∈ c :: cs, isOperatorChar d = false := by
      intro d hd
      rcases List.mem_cons.mp hd with rfl | hd
      · exact not_operator_of_name (.inl hstart)
      · exact not_operator_of_name (.inr (hrest d hd))
    have hrun : (c :: cs).reverse.takeWhile isOperatorChar = [] := by
      apply takeWhile_operator_of_last
      cases hlast : (c :: cs).getLast? with
      | none => rfl
      | some d => exact hplain d (List.mem_of_getLast? hlast)
    rcases hbang with rfl | rfl
    · rw [List.append_nil]
      exact .inl hrun
    · right
      rw [List.reverse_append, List.reverse_singleton, List.singleton_append,
        List.takeWhile_cons_of_pos (by decide), hrun]
  | parens =>
    left
    apply takeWhile_operator_of_last
    rw [getLast?_append_cons]
    rfl

namespace Gaps

def markOf (place : Option Nat) (cs : List Char) : Option Nat := place.map (cs.length - 1 - ·)

theorem place_of_marked {place : Option Nat} {cs : List Char} (h : Marked place cs) :
    ∀ k ∈ place, k < cs.length := by
  intro k hk
  obtain ⟨c, hc, -⟩ := h k hk
  exact (List.getElem?_eq_some_iff.mp hc).1

theorem placeOf_markOf {place : Option Nat} {cs : List Char} (h : Marked place cs) :
    placeOf (markOf place cs) cs = place := by
  cases place with
  | none => rfl
  | some k =>
    have hk := place_of_marked h k rfl
    simp only [markOf, Option.map_some, placeOf, Option.bind_some]
    rw [if_pos (by omega)]
    congr 1
    omega

/-- Both count to the same character. -/
theorem markOf_eq_iff {place : Option Nat} {pre post : List Char} {c : Char}
    (h : Marked place (pre ++ c :: post)) :
    markOf place (pre ++ c :: post) = some post.length ↔ place = some pre.length := by
  cases place with
  | none => simp [markOf]
  | some k =>
    have hk := place_of_marked h k rfl
    rw [List.length_append, List.length_cons] at hk
    simp only [markOf, Option.map_some, Option.some.injEq, List.length_append, List.length_cons]
    omega

/-- Whether the mark at `place` hides an operator that follows it directly: it is none behind the
mark, and one behind a gap. -/
def hides (place : Option Nat) (cs : List Char) : Bool :=
  place.any fun k => Operator.at? ((cs.drop k).take 1) (cs.drop (k + 1)) != Operator.at? []
    (cs.drop (k + 1))

theorem loose_of_at? {c : Char} {cs : List Char} (h : Operator.at? [c] cs = Operator.at? [] cs) :
    Loose [c] cs := by
  have hcs : cs.takeWhile isOperatorChar ++ cs.dropWhile isOperatorChar = cs :=
    List.takeWhile_append_dropWhile
  unfold Loose
  cases hrun : cs.takeWhile isOperatorChar with
  | nil => rfl
  | cons y ys =>
    have hy : isOperatorChar y = true :=
      List.all_eq_true.mp List.all_takeWhile y (by rw [hrun]; exact List.mem_cons_self)
    rw [hrun] at hcs
    -- behind the first character it makes no difference what stands before
    simp only [splitRun?, hcs, h, (SameFront.behind_operator hy [c] []).splitRun?_eq]

/-- The mark of a line stands apart unless it hides an operator. -/
theorem clean_special {role : Role} {head : List Char}
    (h : hides (special? role head) head = false) :
    Clean (markOf (special? role head) head) head := by
  have hmarked := marked_special? role head
  intro pre c post hhead hmark
  have hplace : special? role head = some pre.length := by
    rw [hhead] at hmarked hmark ⊢
    exact (markOf_eq_iff hmarked).mp hmark
  have hloose : Loose [c] post := by
    apply loose_of_at?
    rw [hides, hplace, Option.any_some, hhead] at h
    simpa using h
  -- the two texts before the mark have the same length
  have hsame : ∀ {pre' post' : List Char} {c' : Char}, head = pre' ++ c' :: post' →
      pre'.length = pre.length → pre' = pre ∧ c' = c := by
    intro pre' post' c' hhead' hlen
    obtain ⟨hpre, hrest⟩ := List.append_inj (hhead'.symm.trans hhead) hlen
    exact ⟨hpre, (List.cons.inj hrest).1⟩
  have hdefinition : (definitionHead? head).map List.length = some pre.length →
      (c = ':' ∨ c = '=') ∧ (pre.reverse.takeWhile isOperatorChar = [] ∨
        c = ':' ∧ pre.reverse.takeWhile isOperatorChar = ['!']) ∧ Loose [c] post := by
    intro hdef
    obtain ⟨pre', hpre', hlen⟩ := Option.map_eq_some_iff.mp hdef
    obtain ⟨rest, hhead', hlast, -⟩ := around_equals (Option.filter_eq_some_iff.mp hpre').1
    obtain ⟨rfl, rfl⟩ := hsame hhead' hlen
    rw [Option.or_none] at hlast
    exact ⟨.inr rfl, .inl (takeWhile_operator_of_last hlast), hloose⟩
  cases role with
  | signature name =>
    obtain ⟨⟨name', gap⟩, hsig, hlen⟩ := Option.map_eq_some_iff.mp hplace
    obtain ⟨rest, hhead', hname, hgap, -⟩ := signature?_eq_some_iff.mp hsig
    rw [← List.append_assoc] at hhead'
    obtain ⟨rfl, rfl⟩ := hsame hhead' (by rw [List.length_append]; exact hlen)
    refine ⟨.inl rfl, ?_, hloose⟩
    rcases List.eq_nil_or_concat gap with rfl | ⟨gap, b, rfl⟩
    · rw [List.append_nil]
      exact hname.run_before_colon.imp_right fun h => ⟨rfl, h⟩
    · left
      apply takeWhile_operator_of_last
      rw [List.concat_eq_append, ← List.append_assoc, List.getLast?_concat]
      exact not_operator_of_isSpace (hgap b (by simp))
  | definition => exact hdefinition hplace
  | typeDeclaration => exact hdefinition hplace
  | watch => cases hplace
  | test => cases hplace
  | useClause => cases hplace
  | other => cases hplace

section Head

variable {more : Bool} {mark : Option Nat} {front old new : List Char} {x : Option Char} {c : Char}

theorem cons_of_blanks {gap cs ds : List Char} (hgap : ∀ b ∈ gap, isIndent b = true)
    (hc : isIndent c = false) (h : c :: cs = gap ++ ds) : gap = [] := by
  cases gap with
  | nil => rfl
  | cons b gap =>
    have hb := hgap b List.mem_cons_self
    rw [← (List.cons.inj h).1, hc] at hb
    cases hb

/-- A character that is not set comes out where it stands, with nothing put before it. -/
theorem Sets.head_plain (h : Sets more mark false front x old (c :: new))
    (hblank : isIndent c = false) (hop : isOperatorChar c = false) (hcomma : c ≠ ',') :
    ∃ rest, old = c :: rest ∧ Sets more mark false (c :: front) (some c) rest new := by
  -- an operator comes first, or a gap before it
  have hnot : ∀ {gap cs : List Char} {d : Char}, (∀ b ∈ gap, isIndent b = true) →
      isOperatorChar d = true → c :: new = gap ++ d :: cs → False := by
    intro gap cs d hgap hd hcs
    obtain rfl := cons_of_blanks hgap hblank hcs
    rw [← (List.cons.inj hcs).1, hop] at hd
    cases hd
  generalize hout : c :: new = out at h
  cases h with
  | done hgap =>
    have hold : c :: new = old := hout
    have hb := hgap c (by rw [← hold]; exact List.mem_cons_self)
    rw [hblank] at hb
    cases hb
  | plain hgap _ _ _ _ h =>
    obtain rfl := cons_of_blanks hgap hblank hout
    obtain ⟨rfl, rfl⟩ := List.cons.inj hout
    exact ⟨_, rfl, h⟩
  | comma => exact absurd (List.cons.inj hout).1 hcomma
  | mark _ hc => exact (hnot isIndent_of_mem_offGap (by rcases hc with rfl | rfl <;> rfl) hout).elim
  | raw hgap hrun => exact (hnot hgap (hrun _ List.mem_cons_self) hout).elim
  | @split _ sign _ gap _ _ _ _ y ops hgap hrun _ _ hsplit =>
    obtain ⟨zs, hzs⟩ := exists_cons_spread hsplit
    rw [hzs] at hout
    exact (hnot (isIndent_of_mem_leadGap hgap) (hrun y List.mem_cons_self) hout).elim

/-- Behind a run that does not begin with an exclamation mark, the next character is no operator,
since a mark ends no such run. Within the run nothing changes. -/
theorem Clean.next_of_run {c : Char} {ys old new : List Char} (h : Clean mark (c :: ys ++ old))
    (hc : c ≠ '!') (hrun : ∀ d ∈ c :: ys, isOperatorChar d = true)
    (hstop : ∀ d ∈ old.head?, isOperatorChar d = true → mark = some old.tail.length) :
    ∀ d ∈ (ys ++ old).head?, d ∈ (ys ++ new).head? ∨ isOperatorChar d = false := by
  intro d hd
  cases ys with
  | cons y ys => exact .inl hd
  | nil =>
    right
    refine Bool.eq_false_iff.mpr fun hop => ?_
    have hclean : Clean mark ([] ++ ([c] ++ old)) := h
    have hbang := (hclean.run nofun hrun hd (hstop d hd hop)).1
    exact hc (List.cons.inj hbang).1

/-- Where nothing is put before a run, the output ends with an opening bracket or is empty, or the
run is one sign that had no gap before it. -/
theorem eq_nil_of_leadGap {sign : Bool} {gap : List Char} {y : Char} {ops : List Operator}
    (h : leadGap false sign gap x y ops = []) :
    x.all isOpener = true ∨ gap = [] ∧ ops.tail = [] := by
  rw [leadGap] at h
  split at h
  · rename_i hsingle
    exact .inr ⟨h, List.isEmpty_iff.mp (Bool.and_eq_true_iff.mp hsingle).2⟩
  · left
    refine Decidable.byContradiction fun hx => ?_
    rw [offGap_of_not_opener (Bool.eq_false_iff.mpr hx)] at h
    cases h

/-- Behind an operator character that comes out first, the next one is what it was, or the operator
has been set apart from those it stood with. -/
theorem Sets.head_operator (h : Sets more mark false front x old (c :: new))
    (hclean : Clean mark old) (hop : isOperatorChar c = true) (hc : c ≠ ':' ∧ c ≠ '=' ∧ c ≠ '!')
    (hfirst : x.all isOpener = true → ∀ d ∈ old.head?, isIndent d = false) :
    ∃ rest, old = c :: rest ∧ ((∀ d ∈ rest.head?, d ∈ new.head? ∨ isOperatorChar d = false) ∨
      x.all isOpener = true ∧ ∃ z r, new = ' ' :: z :: r ∧ isOperatorChar z = true) := by
  have hblank := not_isIndent_of_isOperatorChar hop
  generalize hout : c :: new = out at h
  cases h with
  | done hgap =>
    have hold : c :: new = old := hout
    have hb := hgap c (by rw [← hold]; exact List.mem_cons_self)
    rw [hblank] at hb
    cases hb
  | plain hgap _ hplain =>
    obtain rfl := cons_of_blanks hgap hblank hout
    rw [← (List.cons.inj hout).1, hop] at hplain
    cases hplain
  | comma => rw [(List.cons.inj hout).1] at hop; exact absurd hop (by decide)
  | mark _ hmark =>
    have hnil := cons_of_blanks isIndent_of_mem_offGap hblank hout
    rw [hnil] at hout
    rw [← (List.cons.inj hout).1] at hmark
    exact absurd hmark (by simp [hc.1, hc.2.1])
  | raw hgap hrun _ hstop =>
    obtain rfl := cons_of_blanks hgap hblank hout
    obtain ⟨rfl, rfl⟩ := List.cons.inj hout
    exact ⟨_, rfl, .inl (hclean.next_of_run hc.2.2 hrun hstop)⟩
  | @split _ sign _ gap ys old new' _ y ops hgap hrun _ hstop hsplit _ _ =>
    have hlead := cons_of_blanks (isIndent_of_mem_leadGap hgap) hblank hout
    rw [hlead, List.nil_append] at hout
    replace hlead := eq_nil_of_leadGap hlead
    have hgapnil : gap = [] := by
      rcases hlead with hx | ⟨hnil, -⟩
      · cases gap with
        | nil => rfl
        | cons b gap =>
          have hb := hgap b List.mem_cons_self
          rw [hfirst hx b rfl] at hb
          cases hb
      · exact hnil
    subst hgapnil
    obtain ⟨-, hflat, htable⟩ := splitRun?_flatMap_text hsplit
    rw [List.drop_zero] at hflat
    obtain ⟨op, ops, rfl⟩ :=
      List.exists_cons_of_ne_nil (splitRun?_ne_nil (List.cons_ne_nil y ys) hsplit)
    obtain ⟨z, zs, hz⟩ := List.exists_cons_of_ne_nil
      (Operator.isOperatorChar_of_mem_table (htable op List.mem_cons_self)).1
    rw [List.flatMap_cons, hz] at hflat
    obtain ⟨rfl, hys⟩ : z = y ∧ zs ++ ops.flatMap Operator.text = ys := List.cons.inj hflat
    cases ops with
    | nil =>
      have hzs : zs = ys := by simpa using hys
      rw [spread, hz, hzs] at hout
      obtain ⟨rfl, rfl⟩ := List.cons.inj hout
      exact ⟨_, rfl, .inl (hclean.next_of_run hc.2.2 hrun hstop)⟩
    | cons op' ops =>
      rw [spread_cons, hz] at hout
      obtain ⟨rfl, hnew⟩ : c = z ∧ new = zs ++ ' ' :: spread (op' :: ops) ++ new' :=
        List.cons.inj hout
      refine ⟨_, rfl, ?_⟩
      cases zs with
      | cons w zs =>
        -- the operator has a second character, and that stays
        left
        intro d hd
        rw [← hys] at hd
        rw [hnew]
        exact .inl hd
      | nil =>
        right
        have hop' := htable op' (by simp)
        obtain ⟨w, ws, hw⟩ :=
          List.exists_cons_of_ne_nil (Operator.isOperatorChar_of_mem_table hop').1
        obtain ⟨r, hr⟩ : ∃ r, spread (op' :: ops) = w :: r := by
          apply List.head?_eq_some_iff.mp
          rw [head?_spread hop', hw]
          rfl
        refine ⟨hlead.resolve_right fun h => absurd h.2 (List.cons_ne_nil op' ops), w,
          r ++ new', ?_, ?_⟩
        · rw [hnew, hr]
          rfl
        · exact (Operator.isOperatorChar_of_mem_table hop').2 w
            (by rw [hw]; exact List.mem_cons_self)

end Head

theorem watchMarker?_test (cs : List Char) :
    watchMarker? (testMarker ++ cs) =
      if cs.head?.any (fun c => c == '>' || c == '=') then none else some testMarker := by
  have hdrop : dropFront? testMarker (testMarker ++ cs) = some cs := by
    rw [dropFront?, if_pos (List.isPrefixOf_iff_prefix.mpr (List.prefix_append _ _)),
      List.drop_left]
  unfold watchMarker?
  rw [hdrop]

theorem watchMarker?_greater (cs : List Char) :
    watchMarker? ('>' :: cs) =
      if cs.head?.any (fun c => c == '>' || c == '=' || c == '|') then none else some ['>'] := by
  have hdrop : dropFront? testMarker ('>' :: cs) = none := rfl
  rw [watchMarker?, hdrop]

/-- Only an operator right behind a marker makes it part of something else. -/
theorem watchMarker?_of_head {marker cs ds : List Char}
    (h : watchMarker? (marker ++ cs) = some marker)
    (hds : ∀ c ∈ ds.head?, c ∈ cs.head? ∨ isOperatorChar c = false) :
    watchMarker? (marker ++ ds) = some marker := by
  have hsame : ∀ p : Char → Bool, (∀ c, p c = true → isOperatorChar c = true) →
      cs.head?.any p = false → ds.head?.any p = false := by
    intro p hp hcs
    cases hd : ds.head? with
    | none => rfl
    | some d =>
      rw [Option.any_some]
      rcases hds d hd with hmem | hop
      · rw [hmem] at hcs
        exact hcs
      · refine Bool.eq_false_iff.mpr fun hpd => ?_
        rw [hp d hpd] at hop
        cases hop
  rcases marker_of_watchMarker? h with rfl | rfl
  · rw [watchMarker?_test] at h ⊢
    split at h
    · cases h
    · rename_i hcs
      rw [hsame _ _ (by simpa using hcs)]
      · rfl
      · intro c hc
        simp only [Bool.or_eq_true, beq_iff_eq] at hc
        rcases hc with rfl | rfl <;> rfl
  · change watchMarker? ('>' :: cs) = some ['>'] at h
    change watchMarker? ('>' :: ds) = some ['>']
    rw [watchMarker?_greater] at h ⊢
    split at h
    · cases h
    · rename_i hcs
      rw [hsame _ _ (by simpa using hcs)]
      · rfl
      · intro c hc
        simp only [Bool.or_eq_true, beq_iff_eq] at hc
        rcases hc with (rfl | rfl) | rfl <;> rfl

/-- A line that begins with a marker once it has been set began with it before, or with the operator
that the marker looks like. -/
theorem marker_of_sets {more : Bool} {mark : Option Nat} {head head' marker : List Char}
    (h : Sets more mark false [] none head head') (hclean : Clean mark head)
    (hfirst : ∀ d ∈ head.head?, isIndent d = false) (hmarker : watchMarker? head' = some marker) :
    watchMarker? head = some marker ∨
      marker = ['>'] ∧ ∃ z r, head' = '>' :: ' ' :: z :: r ∧ isOperatorChar z = true := by
  obtain ⟨rest', rfl⟩ := eq_append_of_watchMarker? hmarker
  rcases marker_of_watchMarker? hmarker with rfl | rfl
  · left
    -- the letters of the marker stand together, and so does what ends it
    obtain ⟨old₁, rfl, h₁⟩ := Sets.head_plain h (by decide) (by decide) (by decide)
    obtain ⟨old₂, rfl, h₂⟩ := Sets.head_plain h₁ (by decide) (by decide) (by decide)
    obtain ⟨old₃, rfl, h₃⟩ := Sets.head_plain h₂ (by decide) (by decide) (by decide)
    obtain ⟨old₄, rfl, h₄⟩ := Sets.head_plain h₃ (by decide) (by decide) (by decide)
    obtain ⟨rest, rfl, hrest | ⟨hopen, -⟩⟩ :=
      Sets.head_operator h₄ (hclean.behind "test".toList) (by decide) (by decide)
      (fun hopen => absurd hopen (by decide))
    · exact watchMarker?_of_head hmarker hrest
    · exact absurd hopen (by decide)
  · obtain ⟨rest, rfl, hrest | ⟨-, z, r, rfl, hz⟩⟩ :=
      Sets.head_operator h hclean (by decide) (by decide) fun _ => hfirst
    · exact .inl (watchMarker?_of_head hmarker hrest)
    · exact .inr ⟨rfl, z, r, rfl, hz⟩

/-- Joining more segments on keeps the text so far. -/
theorem exists_foldl_joinCode (sofar : List Char) (ts : List Segment) :
    ∃ more, ts.foldl ScannedLine.joinCode sofar = sofar ++ more := by
  induction ts generalizing sofar with
  | nil => exact ⟨[], (List.append_nil sofar).symm⟩
  | cons t ts ih =>
    obtain ⟨joined, hjoined⟩ : ∃ joined, ScannedLine.joinCode sofar t = sofar ++ joined := by
      unfold ScannedLine.joinCode
      split
      · exact ⟨t.text, rfl⟩
      · exact ⟨['"', '"'], rfl⟩
      · split
        · exact ⟨[], (List.append_nil sofar).symm⟩
        · exact ⟨[' '], rfl⟩
    obtain ⟨more, hmore⟩ := ih (sofar ++ joined)
    exact ⟨joined ++ more, by rw [List.foldl_cons, hjoined, hmore, List.append_assoc]⟩

/-- No operator joins on to the code that a line begins with, unless a space ends that. -/
theorem codeText_begin {text : List Char} {ts : List Segment} (hne : text ≠ [])
    (hnext : ∀ t ∈ ts.head?, t.kind ≠ .code) :
    ∃ more, ts.foldl ScannedLine.joinCode text = text ++ more ∧
      (text.getLast? ≠ some ' ' → ∀ c ∈ more.head?, c = '"' ∨ c = ' ') := by
  cases ts with
  | nil => exact ⟨[], (List.append_nil text).symm, fun _ _ h => by cases h⟩
  | cons t ts =>
    have hkind := hnext t rfl
    obtain ⟨more, hmore⟩ := exists_foldl_joinCode (ScannedLine.joinCode text t) ts
    rw [List.foldl_cons, hmore]
    unfold ScannedLine.joinCode
    split
    · rename_i hcode
      exact absurd hcode hkind
    · refine ⟨'"' :: '"' :: more, by simp, fun _ c hc => ?_⟩
      cases hc
      exact .inl rfl
    · split
      · rename_i hlast
        refine ⟨more, rfl, fun hspace => ?_⟩
        simp [hne, hspace] at hlast
      · refine ⟨' ' :: more, by simp, fun _ c hc => ?_⟩
        cases hc
        exact .inr rfl

/-- The marker stays in front when a line is trimmed. -/
theorem trim_marker {indent marker : List Char} (hindent : ∀ b ∈ indent, isIndent b = true)
    (hmarker : marker = testMarker ∨ marker = ['>']) (cs : List Char) :
    trim (indent ++ (marker ++ cs)) = marker ++ dropEndWhile isSpace cs := by
  have hstart : trimStart (indent ++ (marker ++ cs)) = marker ++ cs := by
    rw [trimStart, List.dropWhile_append_of_pos fun b hb => isSpace_of_isIndent (hindent b hb)]
    rcases hmarker with rfl | rfl <;> exact List.dropWhile_cons_of_neg (by decide)
  have hend : marker.reverse.dropWhile isSpace = marker.reverse := by
    rcases hmarker with rfl | rfl <;> decide
  rw [trim, hstart, dropEndWhile, dropEndWhile, List.reverse_append, List.dropWhile_append]
  split
  · rename_i hempty
    rw [hend, List.isEmpty_iff.mp hempty, List.reverse_reverse]
    simp
  · rw [List.reverse_append, List.reverse_reverse]

theorem head?_dropEndWhile (p : Char → Bool) (cs : List Char) :
    ∀ c ∈ (dropEndWhile p cs).head?, c ∈ cs.head? := by
  intro c hc
  obtain ⟨ds, hds⟩ := List.head?_eq_some_iff.mp hc
  obtain ⟨tail, htail, -⟩ := dropEndWhile_append p cs
  rw [← htail, hds]
  rfl

/-- A line that begins with a marker is a watch or a test expression. -/
theorem role_of_marker {indent marker rest : List Char} {ts : List Segment}
    (hindent : ∀ b ∈ indent, isIndent b = true)
    (hmarker : watchMarker? (marker ++ rest) = some marker)
    (hnext : ∀ t ∈ ts.head?, t.kind ≠ .code) :
    Role.ofCode (ts.foldl ScannedLine.joinCode (indent ++ (marker ++ rest))) = .watch ∨
      Role.ofCode (ts.foldl ScannedLine.joinCode (indent ++ (marker ++ rest))) = .test := by
  have hcases := marker_of_watchMarker? hmarker
  have hne : indent ++ (marker ++ rest) ≠ [] := by
    rcases hcases with rfl | rfl <;> simp [testMarker]
  obtain ⟨more, hmore, hjoin⟩ := codeText_begin hne hnext
  rw [hmore, List.append_assoc, List.append_assoc]
  -- what stands behind the marker is what stood there, or joined on
  have hfound : watchMarker? (marker ++ dropEndWhile isSpace (rest ++ more)) = some marker := by
    apply watchMarker?_of_head hmarker
    intro c hc
    have hc' := head?_dropEndWhile isSpace (rest ++ more) c hc
    cases rest with
    | cons d rest => exact .inl hc'
    | nil =>
      right
      have hlast : (indent ++ (marker ++ [])).getLast? ≠ some ' ' := by
        rcases hcases with rfl | rfl
        · rw [List.append_nil, show testMarker = "test".toList ++ ['>'] from rfl,
            ← List.append_assoc, List.getLast?_concat]
          decide
        · rw [List.append_nil, List.getLast?_concat]
          decide
      rcases hjoin hlast c hc' with rfl | rfl <;> decide
  unfold Role.ofCode
  simp only [trim_marker hindent hcases, hfound]
  rcases hcases with rfl | rfl
  · exact .inr rfl
  · exact .inl rfl

end Gaps

end ScratchFormat
