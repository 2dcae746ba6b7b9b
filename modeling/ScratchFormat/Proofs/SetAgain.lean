import ScratchFormat.Proofs.SetCode

/-! Code that has been set stays as it is. Its operators stand apart, each is found again as a run
of its own, and every gap is the one that its two sides ask for. -/

namespace ScratchFormat

namespace Operator

/-- No operator minds what no operator is made of. -/
theorem admits_of_not_operator {op : Operator} (hop : op ∈ table) {c : Char}
    (hc : isOperatorChar c = false) (rest : List Char) :
    op.admits (some c) rest = op.admits none rest := by
  have hall : (table.all fun o => o.notAfter.all isOperatorChar) = true := by decide
  have hnot : op.notAfter.contains c = false := by
    refine Bool.eq_false_iff.mpr fun h => ?_
    have hmem :=
      List.all_eq_true.mp (List.all_eq_true.mp hall op hop) c (List.contains_iff_mem.mp h)
    rw [hc] at hmem
    cases hmem
  simp only [admits, Option.any_some, Option.any_none, hnot]

/-- Whether an operator stands at the start of a run is told by the run alone. -/
theorem admits_run {op : Operator} (hop : op ∈ table) (prev : Option Char) {run tail : List Char}
    (htail : ∀ c ∈ tail.head?, isOperatorChar c = false) :
    op.admits prev (run ++ tail) = op.admits prev run := by
  have hchars := (isOperatorChar_of_mem_table hop).2
  have hall : (table.all fun o => o.notBefore.all isOperatorChar) = true := by decide
  have hbefore : ∀ c ∈ tail.head?, op.notBefore.contains c = false := by
    intro c hc
    refine Bool.eq_false_iff.mpr fun h => ?_
    have hmem :=
      List.all_eq_true.mp (List.all_eq_true.mp hall op hop) c (List.contains_iff_mem.mp h)
    rw [htail c hc] at hmem
    cases hmem
  by_cases hlong : op.text.length ≤ run.length
  · have hpre : op.text.isPrefixOf (run ++ tail) = op.text.isPrefixOf run := by
      rw [Bool.eq_iff_iff, List.isPrefixOf_iff_prefix, List.isPrefixOf_iff_prefix]
      exact ⟨fun h => List.prefix_of_prefix_length_le h (List.prefix_append run tail) hlong,
        fun h => h.trans (List.prefix_append run tail)⟩
    have hnext : ((run ++ tail).drop op.text.length).head?.any op.notBefore.contains =
        (run.drop op.text.length).head?.any op.notBefore.contains := by
      rw [List.drop_append_of_le_length hlong]
      cases run.drop op.text.length with
      | cons c cs => rfl
      | nil =>
        cases htail' : tail.head? with
        | none => simp [htail']
        | some c =>
          rw [List.nil_append, htail', Option.any_some, hbefore c htail']
          rfl
    simp only [admits, hpre, hnext]
  · -- an operator does not reach beyond the run
    have hnot : ∀ rest : List Char, (∀ c ∈ rest.head?, isOperatorChar c = false) →
        op.text.isPrefixOf (run ++ rest) = false := by
      intro rest hrest
      refine Bool.eq_false_iff.mpr fun h => ?_
      obtain ⟨later, hlater⟩ := List.isPrefixOf_iff_prefix.mp h
      obtain ⟨more, hmore⟩ : run <+: op.text :=
        List.prefix_of_prefix_length_le (List.prefix_append run rest) ⟨later, hlater⟩ (by omega)
      rw [← hmore, List.append_assoc, List.append_cancel_left_eq] at hlater
      cases more with
      | nil =>
        rw [List.append_nil] at hmore
        rw [hmore] at hlong
        omega
      | cons c more =>
        have hc := hchars c (by rw [← hmore]; simp)
        rw [hrest c (by rw [← hlater]; rfl)] at hc
        cases hc
    have hnil := hnot [] (fun _ h => by cases h)
    rw [List.append_nil] at hnil
    simp only [admits, hnot tail htail, hnil, Bool.false_and]

theorem find?_admits_run (prev : Option Char) {run tail : List Char}
    (htail : ∀ c ∈ tail.head?, isOperatorChar c = false) :
    table.find? (·.admits prev (run ++ tail)) = table.find? (·.admits prev run) := by
  rw [← List.head?_filter, ← List.head?_filter,
    List.filter_congr fun op hop => admits_run hop prev htail]

/-- Two texts that a run of operator characters is read alike before: a closing parenthesis makes a
section of it, and a digit makes it part of a number. -/
structure SameAhead (tail tail' : List Char) : Prop where
  paren : tail.head? = some ')' ↔ tail'.head? = some ')'
  digit : tail.head?.any isAsciiDigit = tail'.head?.any isAsciiDigit

/-- The operator at the start of a run is the same before texts that are alike ahead. -/
theorem at?_congr_tail (front : List Char) {run tail tail' : List Char}
    (hrun : ∀ c ∈ run, isOperatorChar c = true) (hne : run ≠ [])
    (htail : ∀ c ∈ tail.head?, isOperatorChar c = false)
    (htail' : ∀ c ∈ tail'.head?, isOperatorChar c = false) (h : SameAhead tail tail') :
    at? front (run ++ tail) = at? front (run ++ tail') := by
  have hexponent : inExponent front (run ++ tail) = inExponent front (run ++ tail') := by
    obtain ⟨y, ys, rfl⟩ := List.exists_cons_of_ne_nil hne
    cases front with
    | nil => rfl
    | cons c front =>
      rw [inExponent_cons, inExponent_cons]
      cases ys with
      | nil => simp [h.digit]
      | cons z ys => rfl
  -- no operator reaches beyond the run, and behind it stands the tail
  have hparen : ∀ n ≤ run.length, ((run ++ tail).drop n).head? = some ')' ↔
      ((run ++ tail').drop n).head? = some ')' := by
    intro n hn
    rw [List.drop_append_of_le_length hn, List.drop_append_of_le_length hn]
    cases run.drop n with
    | nil => exact h.paren
    | cons c cs => rfl
  unfold at?
  rw [hexponent, find?_admits_run front.head? htail, find?_admits_run front.head? htail']
  split
  · rfl
  · cases hfind : table.find? (·.admits front.head? run) with
    | none => rfl
    | some op =>
      have hadm := List.find?_some hfind
      simp only [admits, Bool.and_eq_true, List.isPrefixOf_iff_prefix] at hadm
      simp only [hparen op.text.length hadm.1.1.length_le]

/-- A run is split alike before texts that are alike ahead. -/
theorem splitRun?_congr_tail (front : List Char) (owed : Nat) {run tail tail' : List Char}
    (hrun : ∀ c ∈ run, isOperatorChar c = true) (htail : ∀ c ∈ tail.head?, isOperatorChar c = false)
    (htail' : ∀ c ∈ tail'.head?, isOperatorChar c = false) (h : SameAhead tail tail') :
    Gaps.splitRun? front tail owed run = Gaps.splitRun? front tail' owed run := by
  induction run generalizing front owed with
  | nil => rfl
  | cons c cs ih =>
    have hlater : ∀ d ∈ cs, isOperatorChar d = true :=
      fun d hd => hrun d (List.mem_cons_of_mem c hd)
    cases owed with
    | succ n => exact ih (c :: front) n hlater
    | zero =>
      have hfirst := at?_congr_tail front hrun (List.cons_ne_nil c cs) htail htail' h
      simp only [Gaps.splitRun?, hfirst, ih (c :: front) _ hlater]

/-- An operator of the table that stands on its own is found again, behind nothing, a blank or an
opening bracket. In parentheses alone it is a section. -/
theorem at?_alone {op : Operator} (hop : op ∈ table) {front tail : List Char}
    (hfront : ∀ c ∈ front.head?, isIndent c = true ∨ isOpener c = true)
    (htail : ∀ c ∈ tail.head?, isOperatorChar c = false) :
    at? front (op.text ++ tail) = some op ∨ at? front (op.text ++ tail) = none ∧
      tail.head? = some ')' := by
  have hclear : ∀ c ∈ front.head?, isOperatorChar c = false ∧ c ≠ '.' ∧ c ≠ 'e' ∧ c ≠ 'E' := by
    intro c hc
    have hc' := hfront c hc
    simp only [isIndent, isOpener, Bool.or_eq_true, beq_iff_eq] at hc'
    rcases hc' with (rfl | rfl) | (rfl | rfl) | rfl <;> decide
  have hfind : table.find? (·.admits front.head? (op.text ++ tail)) = some op := by
    have halone : ∀ o ∈ table, table.find? (·.admits none o.text) = some o := by decide
    rw [find?_admits_run front.head? htail, ← halone op hop]
    cases hhead : front.head? with
    | none => rfl
    | some c =>
      rw [← List.head?_filter, ← List.head?_filter,
        List.filter_congr fun o ho => admits_of_not_operator ho (hclear c hhead).1 op.text]
  have hexponent : inExponent front (op.text ++ tail) = false := by
    cases front with
    | nil => rfl
    | cons c front =>
      have hc := (hclear c rfl).2.2
      exact inExponent_eq_false hc front _
  have hdot : front.head? ≠ some '.' := fun h => (hclear '.' h).2.1 rfl
  unfold at?
  rw [if_neg hdot, hfind]
  simp only [List.drop_left, hexponent]
  by_cases hsection : front.head? = some '(' ∧ tail.head? = some ')'
  · right
    exact ⟨by simp [hsection], hsection.2⟩
  · left
    simp [hsection]

end Operator

namespace Gaps

/-- A run that is one operator of the table splits into that operator. -/
theorem splitRun?_alone {op : Operator} {front tail : List Char} {y : Char} {ys : List Char}
    (htext : op.text = y :: ys) (h : Operator.at? front (op.text ++ tail) = some op) :
    splitRun? front tail 0 (y :: ys) = some [op] := by
  -- what the operator owes is the rest of the run
  have howed : ∀ (cs f : List Char), splitRun? f tail cs.length cs = some [] := by
    intro cs
    induction cs with
    | nil => exact fun _ => rfl
    | cons c cs ih => exact fun f => ih (c :: f)
  rw [htext] at h
  rw [splitRun?, h]
  simp only [htext, List.length_cons, Nat.add_sub_cancel, howed, Option.map_some]

theorem splitRun?_eq_none {front tail : List Char} {y : Char} {ys : List Char}
    (h : Operator.at? front (y :: ys ++ tail) = none) :
    splitRun? front tail 0 (y :: ys) = none := by
  rw [splitRun?, h]

/-- A colon, an equals sign or an exclamation mark on its own is no operator. -/
theorem splitRun?_single {front tail : List Char} {c : Char} (hc : c = ':' ∨ c = '=' ∨ c = '!')
    (htail : ∀ d ∈ tail.head?, d ≠ '=' ∧ d ≠ '+') : splitRun? front tail 0 [c] = none := by
  apply splitRun?_eq_none
  cases hat : Operator.at? front ([c] ++ tail) with
  | none => rfl
  | some op =>
    obtain ⟨hop, later, hlater⟩ := Operator.mem_table_of_at? hat
    -- such an operator has a second character, which would have to follow
    have hsecond : ∀ o ∈ Operator.table, o.text.head? = some ':' ∨ o.text.head? = some '=' ∨
        o.text.head? = some '!' → o.text.tail.head? = some '=' ∨
        o.text.tail.head? = some '+' := by decide
    obtain ⟨d, ds, hd⟩ := List.exists_cons_of_ne_nil (Operator.isOperatorChar_of_mem_table hop).1
    have hop' := hsecond op hop
    rw [hd] at hlater hop'
    obtain ⟨hcd, hrest⟩ : c = d ∧ tail = ds ++ later := List.cons.inj hlater
    have hds := hop' (by rcases hc with h | h | h <;> simp [← hcd, h])
    cases ds with
    | nil => simp at hds
    | cons e ds =>
      have he := htail e (by rw [hrest]; rfl)
      rcases hds with h | h
      · exact absurd (Option.some.inj h) he.1
      · exact absurd (Option.some.inj h) he.2

section Heads

variable {more : Bool} {mark : Option Nat} {front old new : List Char} {x : Option Char}

theorem offGap_of_not_opener (hx : x.all isOpener = false) : offGap x = [' '] := by
  rw [offGap, hx]
  rfl

/-- Where a gap is due, a blank follows, or a comma, a closing bracket or nothing. -/
theorem Sets.head_of_due (h : Sets more mark true front x old new) (hx : x.all isOpener = false) :
    ∀ c ∈ new.head?, c = ' ' ∨ c = ',' ∨ isCloser c = true := by
  intro c hc
  cases h with
  | done => cases more <;> simp [endGap] at hc; exact .inl hc.symm
  | @plain _ _ _ _ _ _ c' =>
    cases hcloser : isCloser c' with
    | true =>
      rw [restGap, if_pos rfl, if_pos hcloser] at hc
      cases hc
      exact .inr (.inr hcloser)
    | false =>
      rw [restGap, if_pos rfl, if_neg (by simp [hcloser])] at hc
      cases hc
      exact .inl rfl
  | comma => cases hc; exact .inr (.inl rfl)
  | mark => rw [offGap_of_not_opener hx] at hc; cases hc; exact .inl rfl
  | raw _ hrun =>
    rw [restGap, if_pos rfl, (not_bracket_of_isOperatorChar (hrun _ List.mem_cons_self)).1] at hc
    cases hc
    exact .inl rfl
  | split _ hrun =>
    rw [leadGap, restGap, if_pos rfl, (not_bracket_of_isOperatorChar (hrun _ List.mem_cons_self)).1,
      offGap_of_not_opener hx] at hc
    split at hc <;> cases hc <;> exact .inl rfl

/-- Behind a piece that no gap is due after, the next character is read as before. -/
theorem Sets.head_of_kept (h : Sets more mark false front x old new) (hx : x.all isOpener = false)
    (hold : ∀ c ∈ old.head?, isOperatorChar c = false) :
    (∀ c ∈ new.head?, isOperatorChar c = false) ∧ Operator.SameAhead new old := by
  have hsame : ∀ {a b : List Char}, a.head? = b.head? → (∀ c ∈ b.head?, isOperatorChar c = false) →
      (∀ c ∈ a.head?, isOperatorChar c = false) ∧ Operator.SameAhead a b := by
    intro a b hab hb
    exact ⟨hab ▸ hb, by rw [hab], by rw [hab]⟩
  -- a gap that changes was a blank, and is one or gone before a comma
  have hblank : ∀ {a b : List Char} {c d : Char}, c = ' ' ∨ c = ',' → isIndent d = true →
      (∀ e ∈ (c :: a).head?, isOperatorChar e = false) ∧ Operator.SameAhead (c :: a) (d :: b) := by
    intro a b c d hc hd
    simp only [isIndent, Bool.or_eq_true, beq_iff_eq] at hd
    refine ⟨?_, ?_, ?_⟩
    · rintro e ⟨⟩
      rcases hc with rfl | rfl <;> decide
    · rcases hc with rfl | rfl <;> rcases hd with rfl | rfl <;> simp
    · rcases hc with rfl | rfl <;> rcases hd with rfl | rfl <;> rfl
  cases h with
  | done => exact hsame rfl hold
  | @plain _ _ gap =>
    apply hsame _ hold
    cases gap <;> rfl
  | @comma _ _ gap _ _ _ hgap =>
    cases gap with
    | nil => exact hsame rfl hold
    | cons b gap => exact hblank (.inr rfl) (hgap b List.mem_cons_self)
  | @mark _ _ gap _ _ _ c hgap hc =>
    cases gap with
    | nil =>
      have hop := hold c rfl
      rcases hc with rfl | rfl <;> exact absurd hop (by decide)
    | cons b gap =>
      rw [offGap_of_not_opener hx]
      exact hblank (.inl rfl) (hgap b List.mem_cons_self)
  | @raw _ _ gap _ _ _ _ y hgap hrun =>
    cases gap with
    | nil =>
      have hop := hold y rfl
      rw [hrun y List.mem_cons_self] at hop
      cases hop
    | cons b gap => exact hsame rfl hold
  | @split _ _ _ gap _ _ _ _ y _ hgap hrun =>
    cases gap with
    | nil =>
      have hop := hold y rfl
      rw [hrun y List.mem_cons_self] at hop
      cases hop
    | cons b gap =>
      rw [leadGap, offGap_of_not_opener hx]
      split
      · exact hsame rfl hold
      · exact hblank (.inl rfl) (hgap b List.mem_cons_self)

/-- Behind a run that has been split: a sign keeps to its digit, and no digit follows a gap. -/
theorem Sets.head_behind_run {sign : Bool} (h : Sets more mark (!sign) front x old new)
    (hx : x.all isOpener = false) (hold : ∀ c ∈ old.head?, isOperatorChar c = false) :
    (∀ c ∈ new.head?, isOperatorChar c = false) ∧
      (sign = false → new.head?.any isAsciiDigit = false) ∧
      (sign = true → Operator.SameAhead new old) := by
  cases sign with
  | true =>
    obtain ⟨hnext, hahead⟩ := h.head_of_kept hx hold
    exact ⟨hnext, nofun, fun _ => hahead⟩
  | false =>
    have hnext : ∀ c ∈ new.head?, isOperatorChar c = false ∧ isAsciiDigit c = false := by
      intro c hc
      have hc' := h.head_of_due hx c hc
      simp only [isCloser, Bool.or_eq_true, beq_iff_eq] at hc'
      rcases hc' with rfl | rfl | (rfl | rfl) | rfl <;> decide
    refine ⟨fun c hc => (hnext c hc).1, fun _ => ?_, nofun⟩
    cases hhead : new.head? with
    | none => rfl
    | some c => exact (hnext c hhead).2

end Heads

def Loose (front cs : List Char) : Prop :=
  splitRun? front (cs.dropWhile isOperatorChar) 0 (cs.takeWhile isOperatorChar) =
    splitRun? [] (cs.dropWhile isOperatorChar) 0 (cs.takeWhile isOperatorChar)

/-- The mark of a line stands apart from the operators around it: right before it there is none, or
the exclamation mark of a name, and the operators right behind it are the same without it. -/
def Clean (mark : Option Nat) (cs : List Char) : Prop :=
  ∀ pre c post, cs = pre ++ c :: post → mark = some post.length →
    (c = ':' ∨ c = '=') ∧
      (pre.reverse.takeWhile isOperatorChar = [] ∨
        c = ':' ∧ pre.reverse.takeWhile isOperatorChar = ['!']) ∧
      Loose [c] post

theorem Clean.marks {mark : Option Nat} {cs : List Char} (h : Clean mark cs) : Marks mark cs :=
  fun pre c post hcs hmark => (h pre c post hcs hmark).1

theorem Clean.behind {mark : Option Nat} (front : List Char) {cs : List Char}
    (h : Clean mark (front ++ cs)) : Clean mark cs := by
  intro pre c post hcs hmark
  obtain ⟨hc, hpre, hpost⟩ := h (front ++ pre) c post (by rw [hcs, List.append_assoc]) hmark
  refine ⟨hc, ?_, hpost⟩
  -- with less in front, less of a run can stand before the mark
  have hshort : pre.reverse.takeWhile isOperatorChar <+:
      (front ++ pre).reverse.takeWhile isOperatorChar := by
    rw [List.reverse_append, List.takeWhile_append]
    split
    · exact (List.takeWhile_prefix _).trans (List.prefix_append _ _)
    · exact List.prefix_refl _
  rcases hpre with hpre | ⟨hcolon, hpre⟩
  · rw [hpre, List.prefix_nil] at hshort
    exact .inl hshort
  · rw [hpre] at hshort
    rcases List.prefix_cons_iff.mp hshort with hnil | ⟨t, ht, hnil⟩
    · exact .inl hnil
    · rw [List.prefix_nil.mp hnil] at ht
      exact .inr ⟨hcolon, ht⟩

/-- A run right before the mark is the exclamation mark of a name. -/
theorem Clean.run {mark : Option Nat} {gap ys old : List Char} {y c : Char}
    (h : Clean mark (gap ++ (y :: ys ++ old))) (hgap : ∀ b ∈ gap, isIndent b = true)
    (hrun : ∀ c ∈ y :: ys, isOperatorChar c = true) (hc : old.head? = some c)
    (hmark : mark = some old.tail.length) : y :: ys = ['!'] ∧ c = ':' := by
  obtain ⟨post, rfl⟩ := List.head?_eq_some_iff.mp hc
  have hpre := (h (gap ++ y :: ys) c post (by rw [List.append_assoc]) hmark).2.1
  have hwhole : (gap ++ y :: ys).reverse.takeWhile isOperatorChar = (y :: ys).reverse := by
    have hblanks : gap.reverse.takeWhile isOperatorChar = [] := by
      cases hrev : gap.reverse with
      | nil => rfl
      | cons b bs =>
        apply List.takeWhile_cons_of_neg
        intro hb
        have hblank := hgap b (List.mem_reverse.mp (by rw [hrev]; exact List.mem_cons_self))
        rw [not_isIndent_of_isOperatorChar hb] at hblank
        cases hblank
    rw [List.reverse_append, List.takeWhile_append_of_pos fun c hc =>
      hrun c (List.mem_reverse.mp hc), hblanks, List.append_nil]
  rw [hwhole] at hpre
  rcases hpre with hnil | ⟨hcolon, hbang⟩
  · simp at hnil
  · exact ⟨by simpa using congrArg List.reverse hbang, hcolon⟩

theorem SameFront.behind_operator {c : Char} (hc : isOperatorChar c = true)
    (front front' : List Char) : SameFront (c :: front) (c :: front') :=
  ⟨Operator.at?_behind_operator hc front front', rfl⟩

/-- A comma in front of an operator is like nothing in front of it. -/
theorem SameFront.behind_comma (front : List Char) : SameFront (',' :: front) [] := by
  refine ⟨fun rest => ?_, rfl⟩
  have hfind : Operator.table.find? (·.admits (some ',') rest) =
      Operator.table.find? (·.admits none rest) := by
    rw [← List.head?_filter, ← List.head?_filter,
      List.filter_congr fun op hop => Operator.admits_of_not_operator hop (by decide) rest]
  have hexponent : Operator.inExponent (',' :: front) rest = false :=
    Operator.inExponent_eq_false (by decide) front rest
  have hnone : Operator.inExponent [] rest = false := rfl
  simp [Operator.at?, hfind, hexponent, hnone]

theorem SameFront.loose {front : List Char} (h : SameFront front []) (cs : List Char) :
    Loose front cs :=
  h.splitRun?_eq _ _ _

theorem Loose.cons {c : Char} {cs : List Char} (hc : isOperatorChar c = true) (h : Loose [c] cs)
    (front : List Char) : Loose (c :: front) cs :=
  ((SameFront.behind_operator hc front []).splitRun?_eq _ _ _).trans h

theorem loose_of_not_operator (front : List Char) {cs : List Char}
    (h : ∀ c ∈ cs.head?, isOperatorChar c = false) : Loose front cs := by
  have htake : cs.takeWhile isOperatorChar = [] := by
    cases cs with
    | nil => rfl
    | cons c cs => exact List.takeWhile_cons_of_neg (by simp [h c rfl])
  rw [Loose, htake]
  rfl

def Follows (front : List Char) (x : Option Char) : Prop := front = [] ∨ front.head? = x

theorem Follows.clear {front : List Char} {x : Option Char} (h : Follows front x) :
    ∀ c ∈ ((offGap x).reverse ++ front).head?, isIndent c = true ∨ isOpener c = true := by
  intro c hc
  unfold offGap at hc
  split at hc
  · rename_i hx
    right
    rcases h with rfl | h
    · cases hc
    · rw [List.reverse_nil, List.nil_append, h] at hc
      rw [hc] at hx
      exact hx
  · cases hc
    exact .inl rfl

theorem restGap_offGap {d : Bool} {x : Option Char} {y : Char} (hy : isOperatorChar y = true)
    (hd : d = true → x.all isOpener = false) : restGap d (offGap x) y = offGap x := by
  cases d with
  | false => rfl
  | true =>
    rw [offGap_of_not_opener (hd rfl), restGap, if_pos rfl, (not_bracket_of_isOperatorChar hy).1]
    rfl

theorem isIndent_of_mem_offGap {x : Option Char} : ∀ b ∈ offGap x, isIndent b = true := by
  intro b hb
  unfold offGap at hb
  split at hb
  · cases hb
  · rw [List.mem_singleton.mp hb]
    rfl

theorem isIndent_of_mem_leadGap {due sign : Bool} {gap : List Char} {x : Option Char} {y : Char}
    {ops : List Operator} (hgap : ∀ b ∈ gap, isIndent b = true) :
    ∀ b ∈ leadGap due sign gap x y ops, isIndent b = true := by
  unfold leadGap
  split
  · exact isIndent_of_mem_restGap hgap
  · exact isIndent_of_mem_offGap

section Spread

variable {more : Bool} {m : Option Nat} {rest : List Char}

/-- One operator that stands apart is set as it is. -/
theorem sets_operator {op : Operator} (hop : op ∈ Operator.table) (sign : Bool) {d : Bool}
    {front : List Char} {x : Option Char} (hfront : Follows front x)
    (hd : d = true → x.all isOpener = false)
    (hm : ∀ k ∈ m, k < rest.length ∨ (op.text ++ rest).length ≤ k)
    (hrest : ∀ c ∈ rest.head?, isOperatorChar c = false)
    (hsign : endsInSign (d || !(offGap x).isEmpty || x.all admitsSign) rest.head? [op] = sign)
    (htail : ∀ d' front', (d' = true → sign = false) → front'.head? = op.text.getLast? →
      Sets more m d' front' op.text.getLast? rest rest) :
    Sets more m d front x (offGap x ++ (op.text ++ rest)) (offGap x ++ (op.text ++ rest)) := by
  obtain ⟨hne, hchars⟩ := Operator.isOperatorChar_of_mem_table hop
  obtain ⟨y, ys, htext⟩ := List.exists_cons_of_ne_nil hne
  have hstop : ∀ c ∈ rest.head?, isOperatorChar c = true → m = some rest.tail.length := by
    intro c hc hop'
    rw [hrest c hc] at hop'
    cases hop'
  have hy : isOperatorChar y = true := hchars y (by rw [htext]; exact List.mem_cons_self)
  have hlast : ∀ front' : List Char, ((y :: ys).reverse ++ front').head? = op.text.getLast? := by
    intro front'
    rw [htext]
    exact head?_reverse_append [] y ys front'
  rw [htext] at hm hchars ⊢
  rcases Operator.at?_alone hop hfront.clear hrest with hat | ⟨hat, hparen⟩
  · -- the operator is found, and set off or left as a sign
    have hsplit := splitRun?_alone htext hat
    have hset := Sets.split isIndent_of_mem_offGap hchars hm hstop hsplit hsign
      (htext ▸ htail (!sign) _ (fun h => by simpa using h) (hlast _))
    have hlead : leadGap d sign (offGap x) x y [op] = offGap x := by
      unfold leadGap
      split
      · exact restGap_offGap hy hd
      · rfl
    rw [hlead, spread, htext] at hset
    exact hset
  · -- in parentheses it is a name
    have hsplit := splitRun?_eq_none (htext ▸ hat)
    have hraw : Sets more m d front x _ (restGap d (offGap x) y ++ _) :=
      Sets.raw isIndent_of_mem_offGap hchars hm hstop hsplit
        (htext ▸ htail false _ (fun h => by cases h) (hlast _))
    rw [restGap_offGap hy hd] at hraw
    exact hraw

/-- So are the operators of a run, one after another. -/
theorem sets_spread {ops : List Operator} (hops : ∀ op ∈ ops, op ∈ Operator.table) (hne : ops ≠ [])
    {d sign : Bool} {front : List Char} {x : Option Char} (hfront : Follows front x)
    (hd : d = true → x.all isOpener = false)
    (hm : ∀ k ∈ m, k < rest.length ∨ (spread ops ++ rest).length ≤ k)
    (hrest : ∀ c ∈ rest.head?, isOperatorChar c = false)
    (hsign : endsInSign (d || !(offGap x).isEmpty || x.all admitsSign) rest.head? ops = sign)
    (htail : ∀ d' front', (d' = true → sign = false) → front'.head? = (spread ops).getLast? →
      Sets more m d' front' (spread ops).getLast? rest rest) :
    Sets more m d front x (offGap x ++ (spread ops ++ rest))
      (offGap x ++ (spread ops ++ rest)) := by
  induction ops generalizing d front x with
  | nil => exact absurd rfl hne
  | cons op ops ih =>
    have hop := hops op List.mem_cons_self
    cases ops with
    | nil => exact sets_operator hop sign hfront hd hm hrest hsign htail
    | cons op' ops =>
      have hlater : ∀ o ∈ op' :: ops, o ∈ Operator.table :=
        fun o ho => hops o (List.mem_cons_of_mem op ho)
      obtain ⟨z, hz⟩ := exists_getLast? (Operator.isOperatorChar_of_mem_table hop).1
      have hzop : isOperatorChar z = true :=
        (Operator.isOperatorChar_of_mem_table hop).2 z (List.mem_of_getLast? hz)
      have hopener : (some z).all isOpener = false := (not_bracket_of_isOperatorChar hzop).2.1
      have hlast : (spread (op :: op' :: ops)).getLast? = (spread (op' :: ops)).getLast? := by
        obtain ⟨w, hw⟩ := exists_getLast? (spread_ne_nil hlater (List.cons_ne_nil op' ops))
        rw [spread_cons, List.getLast?_append, List.getLast?_cons, hw]
        rfl
      have hfree : endsInSign true rest.head? (op' :: ops) = sign := hsign
      rw [hlast] at htail
      rw [spread_cons, List.append_assoc] at hm ⊢
      simp only [List.cons_append, List.length_append, List.length_cons] at hm
      refine sets_operator hop false hfront hd ?_ ?_ ?_ ?_
      · intro k hk
        have hk' := hm k hk
        simp only [List.cons_append, List.length_append, List.length_cons]
        omega
      · rintro c ⟨⟩
        decide
      · rw [endsInSign, List.cons_append, List.head?_cons, Option.any_some,
          show isAsciiDigit ' ' = false from rfl]
        simp
      · -- the blank behind the operator is the gap before the next
        intro d' front' _ hfront'
        rw [hz] at hfront' ⊢
        have hgap := offGap_of_not_opener hopener
        have hrest' := ih hlater (List.cons_ne_nil _ _) (d := d') (.inr hfront') (fun _ => hopener)
          (fun k hk => by have hk' := hm k hk; simp only [List.length_append]; omega)
          (by rw [hgap]; simpa using hfree) htail
        rw [hgap] at hrest'
        exact hrest'

end Spread

structure DueAt (front : List Char) (x : Option Char) (cs : List Char) : Prop where
  opener : x.all isOpener = false
  digit : front.head?.any isAsciiDigit = false
  loose : Loose front cs

theorem dueAt_comma (front cs : List Char) : DueAt (',' :: front) (some ',') cs :=
  ⟨rfl, rfl, (SameFront.behind_comma front).loose cs⟩

theorem dueAt_operator {c : Char} (hc : isOperatorChar c = true) {front cs : List Char}
    (hfront : front.head? = some c) (hloose : Loose front cs) : DueAt front (some c) cs := by
  refine ⟨(not_bracket_of_isOperatorChar hc).2.1, ?_, hloose⟩
  rw [hfront]
  exact (not_bracket_of_isOperatorChar hc).2.2

theorem restGap_restGap {d due : Bool} (h : d = true → due = true) (gap : List Char) (c : Char) :
    restGap d (restGap due gap c) c = restGap due gap c := by
  cases d with
  | false => rfl
  | true =>
    rw [h rfl]
    rfl

theorem endGap_endGap {more d due : Bool} (h : d = true → due = true) (gap : List Char) :
    endGap more d (endGap more due gap) = endGap more due gap := by
  cases d with
  | false => rfl
  | true =>
    rw [h rfl]
    rfl

/-- Behind the same character, the same operators are found if no number ends right before it. -/
theorem SameFront.plain {due : Bool} {front front' gap : List Char} {x : Option Char} {c : Char}
    {cs : List Char} (hgap : ∀ b ∈ gap, isIndent b = true) (hdue : due = true → DueAt front x cs)
    (hfront : due = false → SameFront front front') :
    SameFront (c :: (gap.reverse ++ front)) (c :: ((restGap due gap c).reverse ++ front')) := by
  cases due with
  | false => exact ((hfront rfl).append gap.reverse).cons c
  | true =>
    apply SameFront.of_head
    intro hc
    have hcloser : isCloser c = false := by rcases hc with rfl | rfl <;> decide
    have hold : (gap.reverse ++ front).head?.any isAsciiDigit = false := by
      cases hrev : gap.reverse with
      | nil => exact (hdue rfl).digit
      | cons b bs =>
        have hb := hgap b (List.mem_reverse.mp (by rw [hrev]; exact List.mem_cons_self))
        simp only [isIndent, Bool.or_eq_true, beq_iff_eq] at hb
        rcases hb with rfl | rfl <;> rfl
    rw [hold, restGap, if_pos rfl, hcloser]
    rfl

/-- A run of operator characters that has been put out again splits as it did. -/
theorem splitRun?_again {due : Bool} {front front' gap ys old new : List Char}
    {x : Option Char} {y : Char} (hgap : ∀ b ∈ gap, isIndent b = true)
    (hrun : ∀ c ∈ y :: ys, isOperatorChar c = true)
    (hdue : due = true → DueAt front x (gap ++ (y :: ys ++ old)))
    (hfront : due = false → SameFront front front')
    (hold : ∀ c ∈ old.head?, isOperatorChar c = false)
    (hnew : ∀ c ∈ new.head?, isOperatorChar c = false) (hahead : Operator.SameAhead new old) :
    splitRun? ((restGap due gap y).reverse ++ front') new 0 (y :: ys) =
      splitRun? (gap.reverse ++ front) old 0 (y :: ys) := by
  rw [Operator.splitRun?_congr_tail _ 0 hrun hnew hold hahead]
  cases due with
  | false => exact ((hfront rfl).symm.append gap.reverse).splitRun?_eq old 0 (y :: ys)
  | true =>
    have hnew : splitRun? ((restGap true gap y).reverse ++ front') old 0 (y :: ys) =
        splitRun? [] old 0 (y :: ys) := by
      apply (SameFront.of_blank _).splitRun?_eq
      rw [restGap, if_pos rfl, (not_bracket_of_isOperatorChar (hrun y List.mem_cons_self)).1]
      rintro b ⟨⟩
      rfl
    rw [hnew]
    cases hrev : gap.reverse with
    | nil =>
      rw [List.reverse_eq_nil_iff.mp hrev] at hdue
      have hloose := (hdue rfl).loose
      have hend : old.takeWhile isOperatorChar = [] ∧ old.dropWhile isOperatorChar = old := by
        cases old with
        | nil => exact ⟨rfl, rfl⟩
        | cons c old =>
          have hc : ¬ isOperatorChar c = true := by simp [hold c rfl]
          exact ⟨List.takeWhile_cons_of_neg hc, List.dropWhile_cons_of_neg hc⟩
      rw [Loose, List.nil_append, List.takeWhile_append_of_pos hrun,
        List.dropWhile_append_of_pos hrun, hend.1, hend.2, List.append_nil] at hloose
      exact hloose.symm
    | cons b bs =>
      apply ((SameFront.of_blank _).splitRun?_eq old 0 (y :: ys)).symm
      rintro d ⟨⟩
      exact hgap b (List.mem_reverse.mp (by rw [hrev]; exact List.mem_cons_self))

def Image (mark mark' : Option Nat) (old new : List Char) : Prop :=
  ∀ pre c post, old = pre ++ c :: post → mark = some post.length →
    ∃ pre' post', new = pre' ++ c :: post' ∧ mark' = some post'.length ∧ solid pre' = solid pre

theorem Image.prepend {mark mark' : Option Nat} {old new : List Char} (h : Image mark mark' old new)
    {as bs : List Char} (hsolid : solid bs = solid as)
    (hmark : ∀ k ∈ mark, k < old.length ∨ (as ++ old).length ≤ k) :
    Image mark mark' (as ++ old) (bs ++ new) := by
  intro pre c post hold hpost
  have hlen := congrArg List.length hold
  have hk := hmark post.length hpost
  simp only [List.length_append, List.length_cons] at hlen hk
  -- the mark lies behind `as`
  obtain ⟨pre₁, rfl, hold₁⟩ : ∃ pre₁, pre = as ++ pre₁ ∧ old = pre₁ ++ c :: post := by
    rcases List.append_eq_append_iff.mp hold with ⟨pre₁, hpre, hrest⟩ | ⟨pre₁, has, hrest⟩
    · exact ⟨pre₁, hpre, hrest⟩
    · cases pre₁ with
      | nil => exact ⟨[], by simpa using has.symm, by simpa using hrest.symm⟩
      | cons d pre₁ =>
        have hlen' := congrArg List.length hrest
        simp only [List.length_append, List.length_cons] at hlen'
        omega
  obtain ⟨pre', post', hnew, hmark', hpre⟩ := h pre₁ c post hold₁ hpost
  refine ⟨bs ++ pre', post', by rw [hnew, List.append_assoc], hmark', ?_⟩
  rw [solid_append, solid_append, hsolid, hpre]

def Stays (more due : Bool) (mark' : Option Nat) (front : List Char) (x : Option Char)
    (new : List Char) : Prop :=
  ∀ m d front', (m = mark' ∨ ∀ k ∈ m, new.length ≤ k) → (d = true → due = true) → Follows front' x →
    (due = false → SameFront front front') → Sets more m d front' x new new

/-- A mark that stands behind `bs`, or has been passed before it. -/
theorem mark_cases {m mark' : Option Nat} {bs new : List Char}
    (hmark' : ∀ k ∈ mark', k < new.length) (hm : m = mark' ∨ ∀ k ∈ m, (bs ++ new).length ≤ k) :
    (m = mark' ∨ ∀ k ∈ m, new.length ≤ k) ∧ ∀ k ∈ m, k < new.length ∨ (bs ++ new).length ≤ k := by
  rcases hm with rfl | hm
  · exact ⟨.inl rfl, fun k hk => .inl (hmark' k hk)⟩
  · refine ⟨.inr fun k hk => ?_, fun k hk => .inr (hm k hk)⟩
    have := hm k hk
    rw [List.length_append] at this
    omega

/-- A mark is no blank. -/
theorem Marks.beyond_gap {mark : Option Nat} {gap cs : List Char} (h : Marks mark (gap ++ cs))
    (hgap : ∀ b ∈ gap, isIndent b = true) : ∀ k ∈ mark, k < cs.length ∨ (gap ++ cs).length ≤ k := by
  intro k hk
  rw [List.length_append]
  by_cases hin : cs.length ≤ k ∧ k < gap.length + cs.length
  · -- the blank that the mark would be
    obtain ⟨pre, b, post, hsplit, hlen⟩ : ∃ pre b post,
        gap = pre ++ b :: post ∧ post.length + cs.length = k := by
      have hlt : gap.length - 1 - (k - cs.length) < gap.length := by omega
      refine ⟨gap.take (gap.length - 1 - (k - cs.length)), gap[gap.length - 1 - (k - cs.length)],
        gap.drop (gap.length - 1 - (k - cs.length) + 1), ?_, ?_⟩
      · rw [List.getElem_cons_drop, List.take_append_drop]
      · rw [List.length_drop]
        omega
    have hb := hgap b (by rw [hsplit]; simp)
    have hmark := h pre b (post ++ cs) (by rw [hsplit, List.append_assoc]; rfl)
      (by rw [List.length_append, hlen]; exact hk)
    rcases hmark with rfl | rfl <;> exact absurd hb (by decide)
  · omega

/-- Before the mark itself a gap is set. -/
theorem Sets.head_of_mark {more due : Bool} {mark : Option Nat} {front old new : List Char}
    {x : Option Char} (h : Sets more mark due front x old new) (hmarks : Marks mark old)
    (hx : x.all isOpener = false) (hne : old ≠ []) (hmark : mark = some old.tail.length) :
    new.head? = some ' ' := by
  -- no other piece starts with the mark
  have hgone : ∀ {gap cs : List Char}, (∀ b ∈ gap, isIndent b = true) → cs ≠ [] →
      Marks mark (gap ++ cs) → mark = some (gap ++ cs).tail.length →
      mark = some cs.tail.length := by
    intro gap cs hgap hcs hmarks hmark
    have hk := hmarks.beyond_gap hgap _ hmark
    have hpos := List.length_pos_iff.mpr hcs
    rw [List.length_tail, List.length_append] at hk
    have hgap0 : gap = [] := List.length_eq_zero_iff.mp (by omega)
    rw [hmark, hgap0]
    rfl
  cases h with
  | done hgap =>
    obtain ⟨b, bs, rfl⟩ := List.exists_cons_of_ne_nil hne
    have hb := hgap b List.mem_cons_self
    rcases hmarks [] b bs rfl hmark with rfl | rfl <;> exact absurd hb (by decide)
  | plain hgap _ _ _ hnot => exact absurd (hgone hgap (List.cons_ne_nil _ _) hmarks hmark) hnot
  | comma hgap hnot => exact absurd (hgone hgap (List.cons_ne_nil _ _) hmarks hmark) hnot
  | mark => rw [offGap_of_not_opener hx]; rfl
  | raw hgap _ hnot =>
    have hk := hnot _ (hgone hgap (List.cons_ne_nil _ _) hmarks hmark)
    simp only [List.cons_append, List.tail_cons, List.append_eq, List.length_append,
      List.length_cons] at hk
    omega
  | split hgap _ hnot =>
    have hk := hnot _ (hgone hgap (List.cons_ne_nil _ _) hmarks hmark)
    simp only [List.cons_append, List.tail_cons, List.append_eq, List.length_append,
      List.length_cons] at hk
    omega

theorem solid_of_blanks {gap : List Char} (hgap : ∀ b ∈ gap, isIndent b = true) : solid gap = [] :=
  solid_eq_nil fun b hb => isSpace_of_isIndent (hgap b hb)

theorem solid_spread (ops : List Operator) :
    solid (spread ops) = solid (ops.flatMap Operator.text) := by
  induction ops with
  | nil => rfl
  | cons op ops ih =>
    cases ops with
    | nil => simp [spread]
    | cons op' ops =>
      rw [spread_cons, List.flatMap_cons, solid_append, solid_append,
        solid_cons_of_space (by decide), ih]

/-- Only a digit can make the last operator of a run a sign. -/
theorem endsInSign_congr (free : Bool) {next next' : Option Char}
    (h : next.any isAsciiDigit = next'.any isAsciiDigit) (ops : List Operator) :
    endsInSign free next ops = endsInSign free next' ops := by
  induction ops generalizing free with
  | nil => rfl
  | cons op ops ih =>
    cases ops with
    | nil => rw [endsInSign, endsInSign, h]
    | cons op' ops => exact ih true

theorem endsInSign_of_not_digit (free : Bool) {next : Option Char}
    (h : next.any isAsciiDigit = false) (ops : List Operator) :
    endsInSign free next ops = false := by
  rw [endsInSign_congr free (show _ = none.any isAsciiDigit from h)]
  induction ops generalizing free with
  | nil => rfl
  | cons op ops ih =>
    cases ops with
    | nil => simp [endsInSign]
    | cons op' ops => exact ih true

/-- What stands before a run of operator characters has no part in what is found behind it. -/
theorem SameFront.behind_run {y : Char} {ys front front' : List Char}
    (hrun : ∀ c ∈ y :: ys, isOperatorChar c = true) (hhead : front'.head? = (y :: ys).getLast?) :
    SameFront ((y :: ys).reverse ++ front) front' := by
  obtain ⟨z, hz, hzop⟩ := exists_getLast?_run hrun
  have hlast : ((y :: ys).reverse ++ front).head? = some z :=
    (head?_reverse_append [] y ys front).trans hz
  obtain ⟨f, hf⟩ := List.head?_eq_some_iff.mp hlast
  obtain ⟨f', rfl⟩ := List.head?_eq_some_iff.mp (hhead.trans hz)
  rw [hf]
  exact SameFront.behind_operator hzop f f'

def Again (more : Bool) (mark : Option Nat) (due : Bool) (front : List Char) (x : Option Char)
    (old new : List Char) : Prop :=
  ∃ mark', Image mark mark' old new ∧ (∀ k ∈ mark', k < new.length) ∧
    Stays more due mark' front x new

section Again

variable {more due : Bool} {mark : Option Nat} {front gap old new : List Char} {x : Option Char}

/-- A piece that the mark is not in, before code that is set again as it is. -/
theorem Again.prepend {due' : Bool} {front' as bs : List Char} {x' : Option Char}
    (h : Again more mark due' front' x' old new) (due : Bool) (front : List Char) (x : Option Char)
    (hsolid : solid bs = solid as)
    (hmark : ∀ k ∈ mark, k < old.length ∨ (as ++ old).length ≤ k)
    (hset : ∀ m d f, (∀ k ∈ m, k < new.length ∨ (bs ++ new).length ≤ k) →
      (d = true → due = true) → Follows f x → (due = false → SameFront front f) →
      (∀ d' f', (d' = true → due' = true) → Follows f' x' → (due' = false → SameFront front' f') →
        Sets more m d' f' x' new new) →
      Sets more m d f x (bs ++ new) (bs ++ new)) :
    Again more mark due front x (as ++ old) (bs ++ new) := by
  obtain ⟨mark', himage, hbound, hstays⟩ := h
  refine ⟨mark', himage.prepend hsolid hmark, ?_, ?_⟩
  · intro k hk
    have := hbound k hk
    rw [List.length_append]
    omega
  · intro m d f hm hd hfollows hfront
    obtain ⟨hlater, hbeyond⟩ := mark_cases hbound hm
    exact hset m d f hbeyond hd hfollows hfront fun d' f' => hstays m d' f' hlater

/-- The mark is neither in the gap nor in the piece behind it. -/
theorem Marks.beyond_piece (piece : List Char) (hmarks : Marks mark (gap ++ (piece ++ old)))
    (hgap : ∀ b ∈ gap, isIndent b = true)
    (hmark : ∀ k ∈ mark, k < old.length ∨ (piece ++ old).length ≤ k) :
    ∀ k ∈ mark, k < old.length ∨ ((gap ++ piece) ++ old).length ≤ k := by
  intro k hk
  have hgap' := hmarks.beyond_gap hgap k hk
  have hpiece := hmark k hk
  rw [List.append_assoc]
  omega

theorem beyond_single {c : Char} {cs : List Char} {m : Option Nat} :
    m ≠ some cs.length ↔ ∀ k ∈ m, k < cs.length ∨ ([c] ++ cs).length ≤ k := by
  simp only [List.singleton_append, List.length_cons]
  constructor
  · intro h k hk
    have hne : k ≠ cs.length := fun heq => h (by rw [hk, heq])
    omega
  · rintro h rfl
    have := h cs.length rfl
    omega

/-- A character that is set as it is is set so again. -/
theorem again_plain {c : Char} (hgap : ∀ b ∈ gap, isIndent b = true) (hblank : isIndent c = false)
    (hop : isOperatorChar c = false) (hcomma : c ≠ ',') (hmark : mark ≠ some old.length)
    (hmarks : Marks mark (gap ++ c :: old)) (hdue : due = true → DueAt front x (gap ++ c :: old))
    (h : Again more mark false (c :: (gap.reverse ++ front)) (some c) old new) :
    Again more mark due front x (gap ++ c :: old) (restGap due gap c ++ c :: new) := by
  have hgap' : ∀ b ∈ restGap due gap c, isIndent b = true := isIndent_of_mem_restGap hgap
  have hsolid : solid (restGap due gap c ++ [c]) = solid (gap ++ [c]) := by
    rw [solid_append, solid_append, solid_of_blanks hgap, solid_of_blanks hgap']
  have hagain := h.prepend due front x hsolid
    (Marks.beyond_piece [c] hmarks hgap (beyond_single.mp hmark)) ?_
  · simpa using hagain
  · intro m d f hm hd _ hfront htail
    have hm' : m ≠ some new.length := by
      apply (beyond_single (c := c)).mpr
      intro k hk
      have := hm k hk
      simp only [List.length_append, List.length_cons, List.length_nil] at this ⊢
      omega
    have hset : Sets more m d f x _ (restGap d (restGap due gap c) c ++ c :: new) :=
      Sets.plain hgap' hblank hop hcomma hm'
      (htail false _ (fun h => by cases h) (.inr rfl) fun _ => SameFront.plain hgap hdue hfront)
    rw [restGap_restGap hd] at hset
    simpa using hset

/-- A comma and its gap are set so again. -/
theorem again_comma (hgap : ∀ b ∈ gap, isIndent b = true) (hmark : mark ≠ some old.length)
    (hmarks : Marks mark (gap ++ ',' :: old))
    (h : Again more mark true (',' :: (gap.reverse ++ front)) (some ',') old new) :
    Again more mark due front x (gap ++ ',' :: old) (',' :: new) := by
  have hsolid : solid [','] = solid (gap ++ [',']) := by
    rw [solid_append, solid_of_blanks hgap]
    rfl
  have hagain := h.prepend due front x hsolid
    (Marks.beyond_piece [','] hmarks hgap (beyond_single.mp hmark)) ?_
  · simpa using hagain
  · intro m d f hm _ _ _ htail
    change Sets more m d f x ([] ++ ',' :: new) (',' :: new)
    exact Sets.comma (fun _ h => by cases h) (beyond_single.mpr hm)
      (htail true _ (fun _ => rfl) (.inr rfl) fun h => by cases h)

/-- The mark is set off once and then stands apart. Where it counts no more it is a run of its own,
and no operator. -/
theorem again_mark {c : Char} (hgap : ∀ b ∈ gap, isIndent b = true) (hc : c = ':' ∨ c = '=')
    (hmark : mark = some old.length) (hdue : due = true → DueAt front x (gap ++ c :: old))
    (hset : Sets more mark true (c :: (gap.reverse ++ front)) (some c) old new)
    (h : Again more mark true (c :: (gap.reverse ++ front)) (some c) old new) :
    Again more mark due front x (gap ++ c :: old) (offGap x ++ c :: new) := by
  obtain ⟨_, -, -, hstays⟩ := h
  have hop : isOperatorChar c = true := by rcases hc with rfl | rfl <;> rfl
  have hnext := hset.head_of_due (not_bracket_of_isOperatorChar hop).2.1
  have hnextOp : ∀ d ∈ new.head?, isOperatorChar d = false := by
    intro d hd
    rcases hnext d hd with rfl | rfl | hcloser
    · rfl
    · rfl
    · refine Bool.eq_false_iff.mpr fun h => ?_
      rw [(not_bracket_of_isOperatorChar h).1] at hcloser
      cases hcloser
  refine ⟨some new.length, ?_, ?_, ?_⟩
  · intro pre c' post hold hpost
    have hlen : (c :: old).length = (c' :: post).length := by
      rw [List.length_cons, List.length_cons, Option.some.inj (hmark.symm.trans hpost)]
    obtain ⟨rfl, hrest⟩ := List.append_inj' hold hlen
    obtain ⟨rfl, rfl⟩ := List.cons.inj hrest
    refine ⟨offGap x, new, rfl, rfl, ?_⟩
    rw [solid_of_blanks hgap, solid_of_blanks isIndent_of_mem_offGap]
  · rintro k ⟨⟩
    rw [List.length_append, List.length_cons]
    omega
  · intro m d f hm hd _ _
    rcases hm with rfl | hm
    · exact Sets.mark isIndent_of_mem_offGap hc rfl
        (hstays _ true _ (.inr fun k hk => by cases hk; exact Nat.le_refl _) (fun _ => rfl)
          (.inr rfl) fun h => by cases h)
    · have hm' : ∀ k ∈ m, k < new.length ∨ ([c] ++ new).length ≤ k := by
        intro k hk
        have := hm k hk
        simp only [List.length_append, List.length_cons, List.length_nil] at this ⊢
        omega
      have hsplit : splitRun? ((offGap x).reverse ++ f) new 0 [c] = none := by
        apply splitRun?_single (by rcases hc with rfl | rfl <;> simp)
        intro e he
        have hno := hnextOp e he
        constructor <;> rintro rfl <;> exact absurd hno (by decide)
      have hraw :
          Sets more m d f x (offGap x ++ ([c] ++ new)) (restGap d (offGap x) c ++ ([c] ++ new)) :=
        Sets.raw isIndent_of_mem_offGap (by simpa using hop) hm'
        (fun e he hopen => by rw [hnextOp e he] at hopen; cases hopen) hsplit
        (hstays m false _ (.inr fun k hk => by
          have := hm k hk
          simp only [List.length_append, List.length_cons] at this
          omega) (fun h => by cases h) (.inr rfl) fun h => by cases h)
      rw [restGap_offGap hop fun h => (hdue (hd h)).opener] at hraw
      exact hraw

/-- A run that is not split is left alone a second time. -/
theorem again_raw {y : Char} {ys : List Char} (hgap : ∀ b ∈ gap, isIndent b = true)
    (hrun : ∀ c ∈ y :: ys, isOperatorChar c = true)
    (hmark : ∀ k ∈ mark, k < old.length ∨ (y :: ys ++ old).length ≤ k)
    (hstop : ∀ c ∈ old.head?, isOperatorChar c = true → mark = some old.tail.length)
    (hsplit : splitRun? (gap.reverse ++ front) old 0 (y :: ys) = none)
    (hclean : Clean mark (gap ++ (y :: ys ++ old)))
    (hdue : due = true → DueAt front x (gap ++ (y :: ys ++ old)))
    (hset : Sets more mark false ((y :: ys).reverse ++ (gap.reverse ++ front)) (y :: ys).getLast?
      old new) (h : Again more mark false ((y :: ys).reverse ++ (gap.reverse ++ front))
      (y :: ys).getLast? old new) :
    Again more mark due front x (gap ++ (y :: ys ++ old))
      (restGap due gap y ++ (y :: ys ++ new)) := by
  have hgap' : ∀ b ∈ restGap due gap y, isIndent b = true := isIndent_of_mem_restGap hgap
  have hopener := not_opener_of_run hrun
  -- the run ends as it did, and does not split
  have hnew : (∀ c ∈ new.head?, isOperatorChar c = false) ∧
      ∀ f, (due = false → SameFront front f) →
      splitRun? ((restGap due gap y).reverse ++ f) new 0 (y :: ys) = none := by
    by_cases hold : ∀ c ∈ old.head?, isOperatorChar c = false
    · obtain ⟨hnext, hahead⟩ := hset.head_of_kept hopener hold
      exact ⟨hnext,
        fun f hfront => (splitRun?_again hgap hrun hdue hfront hold hnext hahead).trans hsplit⟩
    · obtain ⟨c, hc, hop⟩ : ∃ c, old.head? = some c ∧ isOperatorChar c = true := by
        simpa using hold
      obtain ⟨hbang, -⟩ := hclean.run hgap hrun hc (hstop c hc hop)
      have hne : old ≠ [] := by
        rintro rfl
        cases hc
      have hhead := hset.head_of_mark ((hclean.marks.behind gap).behind (y :: ys)) hopener hne
        (hstop c hc hop)
      refine ⟨by rw [hhead]; rintro d ⟨⟩; rfl, fun f _ => ?_⟩
      obtain ⟨rfl, rfl⟩ := List.cons.inj hbang
      apply splitRun?_single (.inr (.inr rfl))
      rw [hhead]
      rintro d ⟨⟩
      decide
  have hsolid : solid (restGap due gap y ++ y :: ys) = solid (gap ++ y :: ys) := by
    rw [solid_append, solid_append, solid_of_blanks hgap, solid_of_blanks hgap']
  have hagain := h.prepend due front x hsolid (hclean.marks.beyond_piece (y :: ys) hgap hmark) ?_
  · simpa using hagain
  · intro m d f hm hd _ hfront htail
    have hm' : ∀ k ∈ m, k < new.length ∨ (y :: ys ++ new).length ≤ k := by
      intro k hk
      have := hm k hk
      simp only [List.length_append] at this ⊢
      omega
    have hraw : Sets more m d f x _ (restGap d (restGap due gap y) y ++ (y :: ys ++ new)) :=
      Sets.raw hgap' hrun hm'
      (fun c hc hop => by rw [hnew.1 c hc] at hop; cases hop) (hnew.2 f hfront)
      (htail false _ (fun h => by cases h) (.inr (head?_reverse_append [] y ys _))
        fun _ => SameFront.behind_run hrun (head?_reverse_append [] y ys _))
    rw [restGap_restGap hd] at hraw
    simpa using hraw

/-- The operators of a run that is split are found again in what they are set as. -/
theorem again_split {sign : Bool} {y : Char} {ys : List Char} {ops : List Operator}
    (hgap : ∀ b ∈ gap, isIndent b = true) (hrun : ∀ c ∈ y :: ys, isOperatorChar c = true)
    (hmark : ∀ k ∈ mark, k < old.length ∨ (y :: ys ++ old).length ≤ k)
    (hold : ∀ c ∈ old.head?, isOperatorChar c = false)
    (hsplit : splitRun? (gap.reverse ++ front) old 0 (y :: ys) = some ops)
    (hsign : endsInSign (due || !gap.isEmpty || x.all admitsSign) old.head? ops = sign)
    (hmarks : Marks mark (gap ++ (y :: ys ++ old)))
    (hdue : due = true → DueAt front x (gap ++ (y :: ys ++ old)))
    (hset : Sets more mark (!sign) ((y :: ys).reverse ++ (gap.reverse ++ front)) (y :: ys).getLast?
      old new) (h : Again more mark (!sign) ((y :: ys).reverse ++ (gap.reverse ++ front))
      (y :: ys).getLast? old new) :
    Again more mark due front x (gap ++ (y :: ys ++ old))
      (leadGap due sign gap x y ops ++ (spread ops ++ new)) := by
  obtain ⟨-, hflat, htable⟩ := splitRun?_flatMap_text hsplit
  rw [List.drop_zero] at hflat
  have hne := splitRun?_ne_nil (List.cons_ne_nil y ys) hsplit
  have hlast : (spread ops).getLast? = (y :: ys).getLast? :=
    (getLast?_spread htable).trans (by rw [hflat])
  have hgap' : ∀ b ∈ leadGap due sign gap x y ops, isIndent b = true := isIndent_of_mem_leadGap hgap
  obtain ⟨hnext, hdigit, hahead⟩ := hset.head_behind_run (not_opener_of_run hrun) hold
  have hsolid : solid (leadGap due sign gap x y ops ++ spread ops) = solid (gap ++ y :: ys) := by
    rw [solid_append, solid_append, solid_of_blanks hgap, solid_of_blanks hgap',
      solid_spread, hflat]
  have hagain := h.prepend due front x hsolid (hmarks.beyond_piece (y :: ys) hgap hmark) ?_
  · simpa using hagain
  intro m d f hm hd hfollows hfront htail
  have hm' : ∀ k ∈ m, k < new.length ∨ (spread ops ++ new).length ≤ k := by
    intro k hk
    have := hm k hk
    simp only [List.length_append] at this ⊢
    omega
  have htail' : ∀ d' f', (d' = true → sign = false) → f'.head? = (spread ops).getLast? →
      Sets more m d' f' (spread ops).getLast? new new := by
    intro d' f' hd' hf'
    rw [hlast] at hf' ⊢
    exact htail d' f' (fun h => by simp [hd' h]) (.inr hf') fun _ => SameFront.behind_run hrun hf'
  rw [List.append_assoc]
  by_cases hsingle : (sign && ops.tail.isEmpty) = true
  · -- a sign on its own keeps the gap before it
    obtain ⟨rfl, hempty⟩ := Bool.and_eq_true_iff.mp hsingle
    obtain ⟨op, rfl⟩ : ∃ op, ops = [op] := by
      obtain ⟨op, ops', rfl⟩ := List.exists_cons_of_ne_nil hne
      exact ⟨op, by simpa using hempty⟩
    have htext : op.text = y :: ys := by simpa using hflat
    have hsame := hahead rfl
    have hsplit' := (splitRun?_again hgap hrun hdue hfront hold hnext hsame).trans hsplit
    have hsign' : endsInSign (d || !(restGap due gap y).isEmpty || x.all admitsSign) new.head?
        [op] = true := by
      rw [endsInSign_congr _ hsame.digit, ← hsign]
      cases due with
      | false =>
        have hd' : d = false := by simpa using hd
        rw [hd']
        rfl
      | true =>
        rw [restGap, if_pos rfl, (not_bracket_of_isOperatorChar (hrun y List.mem_cons_self)).1]
        simp
    have hlead : leadGap due true gap x y [op] = restGap due gap y := rfl
    rw [hlead, spread, htext] at hm ⊢
    have hset' : Sets more m d f x (restGap due gap y ++ _) _ :=
      Sets.split (isIndent_of_mem_restGap hgap) hrun
      (by rwa [spread, htext] at hm')
      (fun c hc hop => by rw [hnext c hc] at hop; cases hop) hsplit' hsign'
      (htail false _ (fun h => by cases h) (.inr (head?_reverse_append [] y ys _))
        fun _ => SameFront.behind_run hrun (head?_reverse_append [] y ys _))
    rw [spread, htext] at hset'
    have hlead' : leadGap d true (restGap due gap y) x y [op] = restGap due gap y :=
      restGap_restGap hd gap y
    rwa [hlead'] at hset'
  · have hlead : leadGap due sign gap x y ops = offGap x := if_neg hsingle
    rw [hlead]
    apply sets_spread htable hne hfollows (fun h => (hdue (hd h)).opener) hm' hnext _ htail'
    cases sign with
    | false => exact endsInSign_of_not_digit _ (hdigit rfl) ops
    | true =>
      rw [endsInSign_congr _ (hahead rfl).digit, ← hsign]
      obtain ⟨op, ops', rfl⟩ := List.exists_cons_of_ne_nil hne
      cases ops' with
      | nil => exact absurd rfl hsingle
      | cons op' ops' => rfl

end Again

/-- Code that has been set is set as it is. -/
theorem Sets.again {more due : Bool} {mark : Option Nat} {front old new : List Char}
    {x : Option Char} (h : Sets more mark due front x old new) (hclean : Clean mark old)
    (hdue : due = true → DueAt front x old) : Again more mark due front x old new := by
  induction h with
  | @done due front gap x hgap =>
    refine ⟨none, ?_, fun _ h => (by cases h), ?_⟩
    · intro pre c post hold hpost
      have hc := hgap c (by rw [hold]; simp)
      rcases hclean.marks pre c post hold hpost with rfl | rfl <;> exact absurd hc (by decide)
    · intro m d front' _ hd _ _
      have hgap' : ∀ b ∈ endGap more due gap, isIndent b = true := by
        intro b hb
        unfold endGap at hb
        split at hb
        · split at hb
          · rw [List.mem_singleton.mp hb]
            rfl
          · cases hb
        · exact hgap b hb
      have hset : Sets more m d front' x _ (endGap more d (endGap more due gap)) := .done hgap'
      rwa [endGap_endGap hd] at hset
  | @plain due front gap old new x c hgap hblank hop hcomma hmark h ih =>
    apply again_plain hgap hblank hop hcomma hmark hclean.marks hdue
    exact ih ((hclean.behind gap).behind [c]) fun h => by cases h
  | @comma due front gap old new x hgap hmark h ih =>
    apply again_comma hgap hmark hclean.marks
    exact ih ((hclean.behind gap).behind [',']) fun _ => dueAt_comma _ _
  | @mark due front gap old new x c hgap hc hmark h ih =>
    apply again_mark hgap hc hmark hdue h
    -- the operators right behind the mark are the same without it
    have hop : isOperatorChar c = true := by rcases hc with rfl | rfl <;> rfl
    have hloose := (hclean gap c old rfl hmark).2.2
    exact ih ((hclean.behind gap).behind [c]) fun _ => dueAt_operator hop rfl (hloose.cons hop _)
  | @raw due front gap ys old new x y hgap hrun hmark hstop hsplit h ih =>
    apply again_raw hgap hrun hmark hstop hsplit hclean hdue h
    exact ih ((hclean.behind gap).behind (y :: ys)) fun h => by cases h
  | @split due sign front gap ys old new x y ops hgap hrun hmark hstop hsplit hsign h ih =>
    -- a run that splits is no exclamation mark, so the mark does not end it
    have hold : ∀ c ∈ old.head?, isOperatorChar c = false := by
      intro c hc
      refine Bool.eq_false_iff.mpr fun hop => ?_
      obtain ⟨hbang, rfl⟩ := hclean.run hgap hrun hc (hstop c hc hop)
      obtain ⟨rfl, rfl⟩ := List.cons.inj hbang
      have hnone : splitRun? (gap.reverse ++ front) old 0 ['!'] = none := by
        apply splitRun?_single (.inr (.inr rfl))
        rw [hc]
        rintro d ⟨⟩
        decide
      rw [hnone] at hsplit
      cases hsplit
    apply again_split hgap hrun hmark hold hsplit hsign hclean.marks hdue h
    apply ih ((hclean.behind gap).behind (y :: ys))
    intro _
    obtain ⟨z, hz, hzop⟩ := exists_getLast?_run hrun
    rw [hz]
    exact dueAt_operator hzop ((head?_reverse_append [] y ys _).trans hz)
      (loose_of_not_operator _ hold)

end Gaps

end ScratchFormat
