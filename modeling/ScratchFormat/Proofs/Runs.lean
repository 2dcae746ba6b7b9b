import ScratchFormat.Proofs.SetLines

/-! Runs of operator characters in code whose gaps are set. Each run comes out in its place: as it
is, or as the operators that it splits into, one blank apart. Nothing is put inside an operator, or
inside a run of which some part is no operator. -/

namespace ScratchFormat

theorem not_digit_of_isSpace {c : Char} (h : isSpace c = true) : isAsciiDigit c = false := by
  have hcode := toNat_of_isSpace h
  have hzero : '0'.toNat = 48 := rfl
  have hnine : '9'.toNat = 57 := rfl
  simp only [List.mem_cons, List.not_mem_nil, or_false] at hcode
  rw [isAsciiDigit, hzero, hnine, Bool.and_eq_false_iff, decide_eq_false_iff_not,
    decide_eq_false_iff_not]
  omega

namespace Operator

structure IsLongestAt (op : Operator) (prev : Option Char) (rest : List Char) : Prop where
  mem : op ∈ table
  admits : op.admits prev rest = true
  longest : ∀ o ∈ table, o.admits prev rest = true → o.text.length ≤ op.text.length

/-- The table is searched from its longest operators on, so the first that is admitted is the
longest. -/
theorem isLongestAt_of_at? {before rest : List Char} {op : Operator}
    (h : at? before rest = some op) : op.IsLongestAt before.head? rest := by
  have hfind : table.find? (·.admits before.head? rest) = some op := by
    unfold at? at h
    split at h
    · cases h
    · split at h
      · cases h
      · rename_i found hfound
        split at h
        · cases h
        · split at h
          · cases h
          · rw [hfound, h]
  -- an operator further on in the table is no longer, and one before it would have been found
  have hsorted : table.Pairwise fun a b => b.text.length ≤ a.text.length := by decide
  obtain ⟨hadmits, longer, shorter, htable, hlonger⟩ := List.find?_eq_some_iff_append.mp hfind
  refine ⟨List.mem_of_find?_eq_some hfind, hadmits, fun o ho hoadmits => ?_⟩
  rw [htable] at ho hsorted
  rcases List.mem_append.mp ho with ho | ho
  · have hnot := hlonger o ho
    rw [hoadmits] at hnot
    cases hnot
  · rcases List.mem_cons.mp ho with rfl | ho
    · exact Nat.le_refl _
    · exact List.rel_of_pairwise_cons (List.pairwise_append.mp hsorted).2.1 ho

/-- A character that no operator minds is like nothing in front of it. -/
theorem at?_cons_front {d : Char} (hd : d ≠ '.' ∧ d ≠ '(' ∧ d ≠ 'e' ∧ d ≠ 'E') (front : List Char)
    {rest : List Char} (hadmits : ∀ op ∈ table, op.admits (some d) rest = op.admits none rest) :
    at? (d :: front) rest = at? [] rest := by
  have hfind : table.find? (·.admits (some d) rest) = table.find? (·.admits none rest) := by
    rw [← List.head?_filter, ← List.head?_filter, List.filter_congr hadmits]
  have hexponent : inExponent (d :: front) rest = false := inExponent_eq_false hd.2.2 front rest
  have hnone : inExponent [] rest = false := rfl
  simp [at?, hfind, hexponent, hnone, hd.1, hd.2.1]

theorem at?_behind_space {d : Char} (hd : isSpace d = true) (front rest : List Char) :
    at? (d :: front) rest = at? [] rest := by
  refine at?_cons_front ⟨?_, ?_, ?_, ?_⟩ front fun op hop =>
    admits_of_not_operator hop (not_operator_of_isSpace hd) rest
  all_goals
    rintro rfl
    exact absurd hd (by decide)

/-- Only operators that start with a greater sign or an equals sign mind a greater sign in front of
them. -/
theorem at?_behind_greater (front : List Char) {rest : List Char}
    (hrest : ∀ c ∈ rest.head?, c ≠ '>' ∧ c ≠ '=') : at? ('>' :: front) rest = at? [] rest := by
  have hall : ∀ op ∈ table, '>' ∈ op.notAfter → op.text.head? = some '>' ∨
      op.text.head? = some '=' := by decide
  refine at?_cons_front (by decide) front fun op hop => ?_
  by_cases hminds : '>' ∈ op.notAfter
  · have hnot : op.text.isPrefixOf rest = false := by
      refine Bool.eq_false_iff.mpr fun hpre => ?_
      obtain ⟨later, rfl⟩ := List.isPrefixOf_iff_prefix.mp hpre
      rcases hall op hop hminds with hhead | hhead
      · exact (hrest '>' (by rw [List.head?_append, hhead]; rfl)).1 rfl
      · exact (hrest '=' (by rw [List.head?_append, hhead]; rfl)).2 rfl
    simp only [admits, hnot, Bool.false_and]
  · have hnot : op.notAfter.contains '>' = false := by simpa using hminds
    simp only [admits, Option.any_some, Option.any_none, hnot]

end Operator

namespace Gaps

def FoundAlong (pre : List Char) (ops : List Operator) (post : List Char) : Prop :=
  ∀ done op rest, ops = done ++ op :: rest →
    Operator.at? (pre ++ done.flatMap Operator.text).reverse
      (op.text ++ (rest.flatMap Operator.text ++ post)) = some op

/-- Operators are found along a run if the first is found, and the others behind it. -/
theorem foundAlong_cons {pre post : List Char} {op : Operator} {ops : List Operator} :
    FoundAlong pre (op :: ops) post ↔
      Operator.at? pre.reverse (op.text ++ (ops.flatMap Operator.text ++ post)) = some op ∧
        FoundAlong (pre ++ op.text) ops post := by
  constructor
  · intro h
    refine ⟨by simpa using h [] op ops rfl, fun done o rest hops => ?_⟩
    have hlater := h (op :: done) o rest (by rw [hops]; rfl)
    rwa [List.flatMap_cons, ← List.append_assoc] at hlater
  · rintro ⟨hfirst, hlater⟩ done o rest hops
    cases done with
    | nil =>
      obtain ⟨rfl, rfl⟩ := List.cons.inj hops
      simpa using hfirst
    | cons d done =>
      obtain ⟨rfl, rfl⟩ := List.cons.inj hops
      rw [List.flatMap_cons, ← List.append_assoc]
      exact hlater done o rest rfl

/-- The first operator of a run is found at its beginning, and the others split what follows it. -/
theorem splitRun?_eq_cons_iff {front tail rest : List Char} {op : Operator} {ops : List Operator} :
    splitRun? front tail 0 (op.text ++ rest) = some (op :: ops) ↔
      Operator.at? front (op.text ++ (rest ++ tail)) = some op ∧
        splitRun? (op.text.reverse ++ front) tail 0 rest = some ops := by
  -- either side puts the operator into the table, so its text has a first character
  by_cases hop : op ∈ Operator.table
  · obtain ⟨y, ys, hy⟩ := List.exists_cons_of_ne_nil (Operator.isOperatorChar_of_mem_table hop).1
    have hrest : y :: (ys ++ rest) ++ tail = op.text ++ (rest ++ tail) := by rw [hy]; simp
    have howed : splitRun? (y :: front) tail (op.text.length - 1) (ys ++ rest) =
        splitRun? (op.text.reverse ++ front) tail 0 rest := by
      rw [hy, List.length_cons, Nat.add_sub_cancel, splitRun?_owed, if_pos (by simp),
        List.take_left, List.drop_left]
      simp
    have hsplit : splitRun? front tail 0 (op.text ++ rest) =
        (Operator.at? front (op.text ++ (rest ++ tail))).bind fun found =>
          (splitRun? (y :: front) tail (found.text.length - 1) (ys ++ rest)).map (found :: ·) := by
      rw [← hrest, hy, List.cons_append, splitRun?]
      cases Operator.at? front (y :: (ys ++ rest) ++ tail) <;> rfl
    rw [hsplit]
    cases hfound : Operator.at? front (op.text ++ (rest ++ tail)) with
    | none => simp
    | some found =>
      constructor
      · intro h
        obtain ⟨later, hlater, hcons⟩ := Option.map_eq_some_iff.mp h
        obtain ⟨rfl, rfl⟩ := List.cons.inj hcons
        exact ⟨rfl, howed ▸ hlater⟩
      · rintro ⟨heq, hlater⟩
        cases heq
        rw [Option.bind_some, howed, hlater, Option.map_some]
  · constructor
    · intro h
      exact absurd ((splitRun?_flatMap_text h).2.2 op List.mem_cons_self) hop
    · intro h
      exact absurd (Operator.mem_table_of_at? h.1).1 hop

/-- A run splits into operators exactly when they make it up and each of them is found at its
place. -/
theorem splitRun?_eq_some_iff {front tail run : List Char} {ops : List Operator} :
    splitRun? front tail 0 run = some ops ↔
      ops.flatMap Operator.text = run ∧ FoundAlong front.reverse ops tail := by
  -- operator by operator, where each leaves the next behind itself
  have hfound : splitRun? front tail 0 (ops.flatMap Operator.text) = some ops ↔
      FoundAlong front.reverse ops tail := by
    induction ops generalizing front with
    | nil =>
      constructor
      · intro _ done op rest hops
        simp at hops
      · exact fun _ => rfl
    | cons op ops ih =>
      rw [List.flatMap_cons, splitRun?_eq_cons_iff, ih, foundAlong_cons, List.reverse_append,
        List.reverse_reverse, List.reverse_reverse]
  constructor
  · intro h
    have hflat := (splitRun?_flatMap_text h).2.1
    rw [List.drop_zero] at hflat
    subst hflat
    exact ⟨rfl, hfound.mp h⟩
  · rintro ⟨rfl, h⟩
    exact hfound.mpr h

theorem spread_eq_intercalate (ops : List Operator) :
    spread ops = [' '].intercalate (ops.map Operator.text) := by
  induction ops with
  | nil => rfl
  | cons op ops ih =>
    cases ops with
    | nil => simp [spread]
    | cons op' ops =>
      rw [spread_cons, ih, List.map_cons, List.map_cons]
      simp

/-- What a run between `pre` and `post` may come out as: itself if it is not made up of operators
that are found along it, and these operators one blank apart if it is. Each is the longest that its
neighbours admit. -/
inductive IsImage (pre run post : List Char) : List Char → Prop
  | whole (h : ∀ ops : List Operator, ops.flatMap Operator.text = run → ¬ FoundAlong pre ops post) :
    IsImage pre run post run
  | split {ops : List Operator} (hrun : ops.flatMap Operator.text = run)
    (hfound : FoundAlong pre ops post)
    (hlongest : ∀ done op rest, ops = done ++ op :: rest →
      op.IsLongestAt (pre ++ done.flatMap Operator.text).getLast?
      (op.text ++ (rest.flatMap Operator.text ++ post))) :
    IsImage pre run post ([' '].intercalate (ops.map Operator.text))

def imageOf (front run post : List Char) : List Char := (splitRun? front post 0 run).elim run spread

/-- What a run comes out as is an image of it. -/
theorem isImage_imageOf (pre run post : List Char) :
    IsImage pre run post (imageOf pre.reverse run post) := by
  unfold imageOf
  cases hsplit : splitRun? pre.reverse post 0 run with
  | none =>
    refine .whole fun ops hflat hfound => ?_
    have hsome := splitRun?_eq_some_iff.mpr ⟨hflat, (List.reverse_reverse pre).symm ▸ hfound⟩
    rw [hsplit] at hsome
    cases hsome
  | some ops =>
    obtain ⟨hflat, hfound⟩ := splitRun?_eq_some_iff.mp hsplit
    rw [List.reverse_reverse] at hfound
    rw [Option.elim_some, spread_eq_intercalate]
    refine .split hflat hfound fun done op rest hops => ?_
    have hlongest := Operator.isLongestAt_of_at? (hfound done op rest hops)
    rwa [List.head?_reverse] at hlongest

/-- A character on its own comes out as it is, whether it is an operator or not. -/
theorem imageOf_singleton (front : List Char) (c : Char) (post : List Char) :
    imageOf front [c] post = [c] := by
  unfold imageOf
  cases hsplit : splitRun? front post 0 [c] with
  | none => rfl
  | some ops =>
    obtain ⟨-, hflat, htable⟩ := splitRun?_flatMap_text hsplit
    have hnil : ∀ os : List Operator, (∀ o ∈ os, o ∈ Operator.table) →
        os.flatMap Operator.text = [] → os = [] := by
      intro os hos hempty
      refine List.eq_nil_iff_forall_not_mem.mpr fun o ho => ?_
      exact (Operator.isOperatorChar_of_mem_table (hos o ho)).1
        (List.flatMap_eq_nil_iff.mp hempty o ho)
    -- an operator has a text, so there is one, and it takes up the character
    cases ops with
    | nil => simp at hflat
    | cons op ops =>
      rw [List.flatMap_cons, List.drop_zero, List.append_eq_singleton_iff] at hflat
      rcases hflat with ⟨hop, -⟩ | ⟨hop, hrest⟩
      · exact absurd hop (Operator.isOperatorChar_of_mem_table (htable op List.mem_cons_self)).1
      · rw [hnil ops (fun o ho => htable o (List.mem_cons_of_mem op ho)) hrest]
        exact hop

theorem solid_imageOf (front run post : List Char) :
    solid (imageOf front run post) = solid run := by
  unfold imageOf
  cases hsplit : splitRun? front post 0 run with
  | none => rfl
  | some ops =>
    obtain ⟨-, hflat, -⟩ := splitRun?_flatMap_text hsplit
    rw [Option.elim_some, solid_spread, hflat, List.drop_zero]

theorem getLast?_imageOf (front run post : List Char) :
    (imageOf front run post).getLast? = run.getLast? := by
  unfold imageOf
  cases hsplit : splitRun? front post 0 run with
  | none => rfl
  | some ops =>
    obtain ⟨-, hflat, htable⟩ := splitRun?_flatMap_text hsplit
    rw [Option.elim_some, getLast?_spread htable, hflat, List.drop_zero]

theorem SameFront.imageOf_eq {front front' : List Char} (h : SameFront front front')
    (run post : List Char) : imageOf front run post = imageOf front' run post := by
  rw [imageOf, imageOf, h.splitRun?_eq]

/-- Code that stands before a run is enough to tell its image, unless there is none. -/
theorem imageOf_behind {front : List Char} (hdigit : front.head?.any isAsciiDigit = false)
    (pre run post : List Char)
    (hat : pre = [] → Operator.at? front (run ++ post) = Operator.at? [] (run ++ post)) :
    imageOf (pre.reverse ++ front) run post = imageOf pre.reverse run post := by
  -- behind one more character, only the digit of an exponent is looked at
  have hsame : ∀ c, SameFront (c :: front) [c] := fun c => SameFront.of_head fun _ => hdigit
  cases pre with
  | cons c pre =>
    rw [List.reverse_cons, List.append_assoc, List.singleton_append]
    exact ((hsame c).append pre.reverse).imageOf_eq run post
  | nil =>
    cases run with
    | nil => rfl
    | cons y ys =>
      have hfirst := hat rfl
      simp only [imageOf, List.reverse_nil, List.nil_append, splitRun?, hfirst,
        (hsame y).splitRun?_eq]

/-- A run of operator characters between `pre` and `post` that goes on on neither side. `mark`
counts the characters behind a colon or an equals sign that is set off on its own: this is a run of
its own. -/
structure RunAt (mark : Option Nat) (pre run post : List Char) : Prop where
  ne_nil : run ≠ []
  operators : ∀ c ∈ run, isOperatorChar c = true
  starts : ∀ c ∈ pre.getLast?, isOperatorChar c = true →
    mark = some (run ++ post).length ∨ mark = some (run.tail ++ post).length
  stops : ∀ c ∈ post.head?, isOperatorChar c = true → mark = some post.length ∨
    mark = some post.tail.length
  whole : ∀ k ∈ mark, k < post.length ∨ (run ++ post).length ≤ k ∨
    (run.length = 1 ∧ k = post.length)

section RunAt

variable {mark : Option Nat} {pre run post : List Char}

theorem mem_getLast?_append (front : List Char) {c : Char} (h : c ∈ pre.getLast?) :
    c ∈ (front ++ pre).getLast? := by
  rw [Option.mem_def, List.getLast?_append, Option.mem_def.mp h]
  rfl

/-- A run between characters that are no operators. -/
theorem RunAt.of_apart (hne : run ≠ []) (hrun : ∀ c ∈ run, isOperatorChar c = true)
    (hstarts : ∀ c ∈ pre.getLast?, isOperatorChar c = false)
    (hstops : ∀ c ∈ post.head?, isOperatorChar c = false) : RunAt none pre run post := by
  refine ⟨hne, hrun, fun c hc hop => ?_, fun c hc hop => ?_, fun _ hk => by cases hk⟩
  · rw [hstarts c hc] at hop
    cases hop
  · rw [hstops c hc] at hop
    cases hop

/-- What stands further in front does not matter. -/
theorem RunAt.behind {front : List Char} (h : RunAt mark (front ++ pre) run post) :
    RunAt mark pre run post :=
  ⟨h.ne_nil, h.operators, fun c hc hop => h.starts c (mem_getLast?_append front hc) hop,
    h.stops, h.whole⟩

/-- Blanks may stand in front of the code. -/
theorem RunAt.indented {gap : List Char} (hgap : ∀ b ∈ gap, isIndent b = true)
    (h : RunAt mark pre run post) : RunAt mark (gap ++ pre) run post := by
  refine ⟨h.ne_nil, h.operators, fun c hc hop => ?_, h.stops, h.whole⟩
  rw [Option.mem_def, List.getLast?_append, Option.or_eq_some_iff] at hc
  rcases hc with hc | ⟨-, hc⟩
  · exact h.starts c hc hop
  · have hblank := hgap c (List.mem_of_getLast? hc)
    rw [not_isIndent_of_isOperatorChar hop] at hblank
    cases hblank

/-- A run lies behind everything in front of it that holds no operator characters. -/
theorem exists_behind {front cs : List Char} (hfront : ∀ c ∈ front, isOperatorChar c = false)
    (hne : run ≠ []) (hrun : ∀ c ∈ run, isOperatorChar c = true)
    (heq : front ++ cs = pre ++ (run ++ post)) :
    ∃ pre', pre = front ++ pre' ∧ cs = pre' ++ (run ++ post) := by
  rcases List.append_eq_append_iff.mp heq with ⟨pre', hpre, hcs⟩ | ⟨rest, hrest, hcs⟩
  · exact ⟨pre', hpre, hcs⟩
  · cases rest with
    | nil => exact ⟨[], by rw [hrest, List.append_nil, List.append_nil], hcs.symm⟩
    | cons d rest =>
      obtain ⟨y, ys, rfl⟩ := List.exists_cons_of_ne_nil hne
      obtain ⟨rfl, -⟩ := List.cons.inj hcs
      have hplain := hfront y (by rw [hrest]; simp)
      rw [hrun y List.mem_cons_self] at hplain
      cases hplain

/-- A text with no operator character but its last holds one run. -/
theorem run_eq_last {front more : List Char} {c : Char}
    (hfront : ∀ d ∈ front, isOperatorChar d = false) (hne : run ≠ [])
    (hrun : ∀ d ∈ run, isOperatorChar d = true) (heq : front ++ [c] = pre ++ (run ++ more)) :
    pre = front ∧ run = [c] := by
  obtain ⟨pre', rfl, hlast⟩ := exists_behind hfront hne hrun heq
  rcases List.append_eq_singleton_iff.mp hlast.symm with ⟨rfl, hrest⟩ | ⟨-, hnil⟩
  · rcases List.append_eq_singleton_iff.mp hrest with ⟨hnil, -⟩ | ⟨hsingle, -⟩
    · exact absurd hnil hne
    · exact ⟨List.append_nil front, hsingle⟩
  · exact absurd (List.append_eq_nil_iff.mp hnil).1 hne

theorem not_operator_of_isIndent {c : Char} (h : isIndent c = true) : isOperatorChar c = false :=
  not_operator_of_isSpace (isSpace_of_isIndent h)

/-- A run that does not lie behind a piece of code starts inside it. -/
theorem RunAt.piece_cases {gap : List Char} (piece : List Char) {old : List Char}
    (h : RunAt mark pre run post) (hgap : ∀ b ∈ gap, isIndent b = true)
    (heq : gap ++ (piece ++ old) = pre ++ (run ++ post)) :
    (∃ pre', pre = gap ++ piece ++ pre' ∧ old = pre' ++ (run ++ post)) ∨
      ∃ front rest, pre = gap ++ front ∧ piece = front ++ rest ∧ rest ≠ [] ∧
        run ++ post = rest ++ old := by
  obtain ⟨front, rfl, hcs⟩ :=
    exists_behind (fun b hb => not_operator_of_isIndent (hgap b hb)) h.ne_nil h.operators heq
  rcases List.append_eq_append_iff.mp hcs with ⟨pre', rfl, hold⟩ | ⟨rest, hpiece, hrest⟩
  · exact .inl ⟨pre', (List.append_assoc gap piece pre').symm, hold⟩
  · by_cases hnil : rest = []
    · subst hnil
      rw [List.append_nil] at hpiece
      exact .inl ⟨[], by rw [hpiece, List.append_nil], hrest.symm⟩
    · exact .inr ⟨front, rest, rfl, hpiece, hnil, hrest⟩

/-- A character on its own that a run starts with is the mark, or no operator character. -/
theorem RunAt.char_cases {gap old : List Char} {c : Char} (h : RunAt mark pre run post)
    (hgap : ∀ b ∈ gap, isIndent b = true) (heq : gap ++ c :: old = pre ++ (run ++ post)) :
    (∃ pre', pre = gap ++ [c] ++ pre' ∧ old = pre' ++ (run ++ post)) ∨
      (pre = gap ∧ isOperatorChar c = true ∧ ∃ ys, run = c :: ys ∧ old = ys ++ post) := by
  rcases h.piece_cases [c] hgap heq with hbehind | ⟨front, rest, hpre, hpiece, hne, hrest⟩
  · exact .inl hbehind
  · obtain ⟨d, rest, rfl⟩ := List.exists_cons_of_ne_nil hne
    have hfront : front = [] ∧ d :: rest = [c] := by
      rcases List.append_eq_singleton_iff.mp hpiece.symm with hparts | ⟨-, hnil⟩
      · exact hparts
      · cases hnil
    obtain ⟨rfl, hcons⟩ := hfront
    rw [hcons] at hrest
    obtain ⟨y, ys, rfl⟩ := List.exists_cons_of_ne_nil h.ne_nil
    obtain ⟨rfl, hold⟩ := List.cons.inj hrest
    exact .inr ⟨by rw [hpre, List.append_nil], h.operators y List.mem_cons_self, ys, rfl, hold.symm⟩

/-- A run does not start in the middle of another one. -/
theorem RunAt.starts_whole {front rest old : List Char} (h : RunAt mark (pre ++ front) run post)
    (hpiece : ∀ c ∈ front ++ rest, isOperatorChar c = true)
    (hmark : ∀ k ∈ mark, k < old.length ∨ (front ++ rest ++ old).length ≤ k) (hne : rest ≠ [])
    (heq : run ++ post = rest ++ old) : front = [] := by
  -- the mark would have to stand right before the run, or at its beginning, so inside the other one
  refine Decidable.byContradiction fun hfront => ?_
  obtain ⟨c, hc⟩ := exists_getLast? hfront
  have hstarts := h.starts c (mem_getLast?_append pre hc)
    (hpiece c (List.mem_append_left _ (List.mem_of_getLast? hc)))
  have hlen := congrArg List.length heq
  have hfrontpos := List.length_pos_iff.mpr hfront
  have hrestpos := List.length_pos_iff.mpr hne
  have hrunpos := List.length_pos_iff.mpr h.ne_nil
  simp only [List.length_append, List.length_tail] at hlen hmark hstarts
  rcases hstarts with hk | hk
  · have hbeyond := hmark _ hk
    omega
  · have hbeyond := hmark _ hk
    omega

/-- Of two runs that start at the same place, neither goes on behind the other. -/
theorem RunAt.eq_run {piece old : List Char} (h : RunAt mark pre run post)
    (hpiece : ∀ c ∈ piece, isOperatorChar c = true)
    (hmark : ∀ k ∈ mark, k < old.length ∨ (piece ++ old).length ≤ k)
    (hstop : ∀ c ∈ old.head?, isOperatorChar c = true → mark = some old.tail.length)
    (hne : piece ≠ []) (heq : run ++ post = piece ++ old) : run = piece ∧ post = old := by
  have hrunpos := List.length_pos_iff.mpr h.ne_nil
  have hpiecepos := List.length_pos_iff.mpr hne
  rcases List.append_eq_append_iff.mp heq with ⟨more, hlonger, hpost⟩ | ⟨more, hlonger, hold⟩
  · cases more with
    | nil => exact ⟨by rw [hlonger, List.append_nil], hpost⟩
    | cons c more =>
      -- the mark would stand at the end of the run or behind it, and still inside the piece
      have hop := hpiece c (by rw [hlonger]; simp)
      have hstops := h.stops c (by rw [hpost]; rfl) hop
      rw [hpost, List.cons_append, List.tail_cons] at hstops
      rw [hlonger] at hmark
      simp only [List.length_append, List.length_cons] at hmark hstops
      rcases hstops with hk | hk
      · have hbeyond := hmark _ hk
        omega
      · have hbeyond := hmark _ hk
        omega
  · cases more with
    | nil => exact ⟨by rw [hlonger, List.append_nil], hold.symm⟩
    | cons c more =>
      -- the mark would stand behind the piece, and still inside a run that is longer than the mark alone
      have hop := h.operators c (by rw [hlonger]; simp)
      have hwhole := h.whole _ (hstop c (by rw [hold]; rfl) hop)
      rw [hold, hlonger] at hwhole
      simp only [List.length_append, List.length_cons, List.cons_append, List.tail_cons] at hwhole
      omega

/-- A run of operator characters is a run before which another lies, or the run itself. -/
theorem RunAt.run_cases {gap piece old : List Char} (h : RunAt mark pre run post)
    (hgap : ∀ b ∈ gap, isIndent b = true) (hpiece : ∀ c ∈ piece, isOperatorChar c = true)
    (hmark : ∀ k ∈ mark, k < old.length ∨ (piece ++ old).length ≤ k)
    (hstop : ∀ c ∈ old.head?, isOperatorChar c = true → mark = some old.tail.length)
    (heq : gap ++ (piece ++ old) = pre ++ (run ++ post)) :
    (∃ pre', pre = gap ++ piece ++ pre' ∧ old = pre' ++ (run ++ post)) ∨
      (pre = gap ∧ run = piece ∧ post = old) := by
  rcases h.piece_cases piece hgap heq with hbehind | ⟨front, rest, rfl, rfl, hne, hrest⟩
  · exact .inl hbehind
  · obtain rfl := h.starts_whole hpiece hmark hne hrest
    rw [List.append_nil] at h
    exact .inr ⟨List.append_nil gap, h.eq_run hpiece hmark hstop hne hrest⟩

end RunAt

def Shows (image pre new : List Char) : Prop :=
  ∃ before after, new = before ++ (image ++ after) ∧ solid before = solid pre

theorem Shows.behind {image pre new out front : List Char} (h : Shows image pre new)
    (hsolid : solid out = solid front) : Shows image (front ++ pre) (out ++ new) := by
  obtain ⟨before, after, rfl, hbefore⟩ := h
  exact ⟨out ++ before,
    after, by rw [List.append_assoc], by rw [solid_append, solid_append, hsolid, hbefore]⟩

theorem Shows.congr {image pre pre' new : List Char} (h : Shows image pre new)
    (hsolid : solid pre = solid pre') : Shows image pre' new := by
  obtain ⟨before, after, hnew, hbefore⟩ := h
  exact ⟨before, after, hnew, hbefore.trans hsolid⟩

theorem shows_of_blanks {gap gap' : List Char} (hgap : ∀ b ∈ gap, isIndent b = true)
    (hgap' : ∀ b ∈ gap', isIndent b = true) (image after : List Char) :
    Shows image gap (gap' ++ (image ++ after)) :=
  ⟨gap', after, rfl, by rw [solid_of_blanks hgap, solid_of_blanks hgap']⟩

/-- Where code is set, each run comes out in its place. -/
theorem Sets.shows_run {more due : Bool} {mark : Option Nat} {front old new : List Char}
    {x : Option Char} (h : Sets more mark due front x old new) {pre run post : List Char}
    (hold : old = pre ++ (run ++ post)) (hat : RunAt mark pre run post) :
    Shows (imageOf (pre.reverse ++ front) run post) pre new := by
  -- a piece in front of the run comes out as it is, white space apart
  have hlater : ∀ {piece out front pre new : List Char}, solid out = solid piece →
      Shows (imageOf (pre.reverse ++ (piece.reverse ++ front)) run post) pre new →
        Shows (imageOf ((piece ++ pre).reverse ++ front) run post) (piece ++ pre) (out ++ new) := by
    intro piece out front pre new hsolid hshows
    rw [List.reverse_append, List.append_assoc]
    exact hshows.behind hsolid
  induction h generalizing pre with
  | @done due front gap x hgap =>
    obtain ⟨y, ys, rfl⟩ := List.exists_cons_of_ne_nil hat.ne_nil
    have hblank := hgap y (by rw [hold]; simp)
    rw [not_isIndent_of_isOperatorChar (hat.operators y List.mem_cons_self)] at hblank
    cases hblank
  | @plain due front gap old new x c hgap hblank hop hcomma hmark h ih =>
    rcases hat.char_cases hgap hold with ⟨pre', rfl, rfl⟩ | ⟨-, hc, -⟩
    · rw [List.append_cons (restGap due gap c)]
      apply hlater
      · rw [solid_append, solid_append, solid_of_blanks hgap,
          solid_of_blanks (isIndent_of_mem_restGap hgap)]
      · rw [List.reverse_concat]
        exact ih rfl hat.behind
    · rw [hop] at hc
      cases hc
  | @comma due front gap old new x hgap hmark h ih =>
    rcases hat.char_cases hgap hold with ⟨pre', rfl, rfl⟩ | ⟨-, hc, -⟩
    · change Shows _ _ ([','] ++ new)
      apply hlater
      · rw [solid_append, solid_of_blanks hgap, List.nil_append]
      · rw [List.reverse_concat]
        exact ih rfl hat.behind
    · exact absurd hc (by decide)
  | @mark due front gap old new x c hgap hc hmark h ih =>
    rcases hat.char_cases hgap hold with ⟨pre', rfl, rfl⟩ | ⟨rfl, -, ys, rfl, rfl⟩
    · rw [List.append_cons (offGap x)]
      apply hlater
      · rw [solid_append, solid_append, solid_of_blanks hgap,
          solid_of_blanks isIndent_of_mem_offGap]
      · rw [List.reverse_concat]
        exact ih rfl hat.behind
    · -- the mark is a run of its own
      have hnil : ys = [] := by
        have hwhole := hat.whole _ hmark
        simp only [List.length_append, List.length_cons] at hwhole
        exact List.length_eq_zero_iff.mp (by omega)
      subst hnil
      rw [imageOf_singleton]
      exact shows_of_blanks hgap isIndent_of_mem_offGap [c] new
  | @raw due front gap ys old new x y hgap hrun hmark hstop hsplit h ih =>
    rcases hat.run_cases hgap hrun hmark hstop hold with ⟨pre', rfl, rfl⟩ | ⟨rfl, rfl, rfl⟩
    · rw [← List.append_assoc (restGap due gap y)]
      apply hlater
      · rw [solid_append, solid_append, solid_of_blanks hgap,
          solid_of_blanks (isIndent_of_mem_restGap hgap)]
      · rw [List.reverse_append, List.append_assoc]
        exact ih rfl hat.behind
    · rw [imageOf, hsplit]
      exact shows_of_blanks hgap (isIndent_of_mem_restGap hgap) (y :: ys) new
  | @split due sign front gap ys old new x y ops hgap hrun hmark hstop hsplit hsign h ih =>
    rcases hat.run_cases hgap hrun hmark hstop hold with ⟨pre', rfl, rfl⟩ | ⟨rfl, rfl, rfl⟩
    · obtain ⟨-, hflat, -⟩ := splitRun?_flatMap_text hsplit
      rw [← List.append_assoc (leadGap due sign gap x y ops)]
      apply hlater
      · rw [solid_append, solid_append, solid_of_blanks hgap,
          solid_of_blanks (isIndent_of_mem_leadGap hgap), solid_spread, hflat, List.drop_zero]
      · rw [List.reverse_append, List.append_assoc]
        exact ih rfl hat.behind
    · rw [imageOf, hsplit]
      exact shows_of_blanks hgap (isIndent_of_mem_leadGap hgap) (spread ops) new

/-- Blanks in front are like nothing. -/
theorem imageOf_behind_blanks {gap : List Char} (hgap : ∀ b ∈ gap, isIndent b = true)
    (pre run post : List Char) :
    imageOf (gap ++ pre).reverse run post = imageOf pre.reverse run post := by
  rw [List.reverse_append, ((SameFront.of_blanks hgap).append pre.reverse).imageOf_eq,
    List.append_nil]

/-- Code is set behind whatever has been put out, less the blanks that this ends with. -/
theorem exists_code_sets (more : Bool) (base text : List Char) :
    ∃ out, Sets more none false []
      (base.dropWhile isIndent).head? ((base.takeWhile isIndent).reverse ++ text) out ∧
      code more none 0 [] base text = out.reverse ++ base.dropWhile isIndent := by
  have hbase := head?_dropWhile_eq_false isIndent base
  obtain ⟨out, hout⟩ :=
    exists_sets more (clean_none ((base.takeWhile isIndent).reverse ++ text)).marks false []
    (base.dropWhile isIndent).head?
  have hcode := code_behind_gap _ hout (isIndent_of_mem_gap base) rfl hbase
  rw [List.reverse_reverse, List.takeWhile_append_dropWhile] at hcode
  exact ⟨out, hout, hcode⟩

/-- Code that is set behind `base` holds the image of each of its runs. -/
theorem shows_code_run (more : Bool) (base : List Char) {pre run post : List Char}
    (hat : RunAt none pre run post) :
    Shows (imageOf pre.reverse run post) (base.reverse ++ pre)
      (code more none 0 [] base (pre ++ (run ++ post))).reverse := by
  -- the blanks that `base` ends with are the gap before the code
  have hgap := isIndent_of_mem_gap base
  have hbase : base.reverse = (base.dropWhile isIndent).reverse ++
      (base.takeWhile isIndent).reverse := by
    rw [← List.reverse_append, List.takeWhile_append_dropWhile]
  obtain ⟨out, hout, hcode⟩ := exists_code_sets more base (pre ++ (run ++ post))
  have hshows := hout.shows_run (List.append_assoc _ _ _).symm (hat.indented hgap)
  rw [List.append_nil, imageOf_behind_blanks hgap] at hshows
  rw [hcode, hbase, List.reverse_append, List.reverse_reverse, List.append_assoc]
  exact hshows.behind rfl

/-- The same, counted from the end. -/
theorem Marked.marks {place : Option Nat} {text : List Char} (h : Marked place text) :
    Marks (markOf place text) text := by
  rintro front c rest rfl hmark
  obtain ⟨d, hd, hcolon⟩ := h front.length ((markOf_eq_iff h).mp hmark)
  rw [List.getElem?_append_right (Nat.le_refl _), Nat.sub_self] at hd
  cases hd
  exact hcolon

/-- The code that a line begins with holds the image of each of its runs, its mark included. -/
theorem shows_head_run (more : Bool) {place : Option Nat} {pre run post : List Char}
    (hmarked : Marked place (pre ++ (run ++ post)))
    (hat : RunAt (markOf place (pre ++ (run ++ post))) pre run post) :
    Shows (imageOf pre.reverse run post) pre
      (code more place 0 [] [] (pre ++ (run ++ post))).reverse := by
  obtain ⟨out, hout⟩ := exists_sets more hmarked.marks false [] none
  have hshows := hout.shows_run rfl hat
  rwa [List.append_nil, ← List.reverse_reverse out, ← code_of_sets hout hmarked hmarked.marks]
    at hshows

end Gaps

end ScratchFormat
