import ScratchFormat.Proofs.Operators
import ScratchFormat.Proofs.Respaced

/-! How a stretch of code is set: gap by gap, with every other character kept in its place. -/

namespace ScratchFormat

namespace Gaps

def shift (special : Option Nat) (n : Nat) : Option Nat :=
  special.bind fun k => if k < n then none else some (k - n)

/-- Two shifts of the mark are one. -/
theorem shift_shift (special : Option Nat) (m n : Nat) :
    shift (shift special m) n = shift special (m + n) := by
  cases special with
  | none => rfl
  | some k =>
    simp only [shift, Option.bind_some]
    by_cases hm : k < m
    · rw [if_pos hm, if_pos (by omega)]
      rfl
    · rw [if_neg hm, Option.bind_some]
      by_cases hn : k - m < n
      · rw [if_pos hn, if_pos (by omega)]
      · rw [if_neg hn, if_neg (by omega)]
        congr 1
        omega

@[simp] theorem shift_zero (special : Option Nat) : shift special 0 = special := by
  cases special <;> simp [shift]

theorem shift_map_add (special : Option Nat) (m n : Nat) :
    shift (special.map (· + m)) (m + n) = shift special n := by
  cases special with
  | none => rfl
  | some k =>
    simp only [shift, Option.map_some, Option.bind_some]
    by_cases hk : k < n
    · rw [if_pos hk, if_pos (by omega)]
    · rw [if_neg hk, if_neg (by omega)]
      congr 1
      omega

/-- Behind one character. -/
theorem next_eq_shift (special : Option Nat) :
    (special.bind fun k => if k = 0 then none else some (k - 1)) = shift special 1 := by
  cases special with
  | none => rfl
  | some k =>
    cases k with
    | zero => rfl
    | succ k => simp [shift]

/-- Characters that are used up already are passed over. -/
theorem code_owed (more : Bool) (special : Option Nat) (owed : Nat) (front out cs : List Char) :
    code more special owed front out cs =
      code more (shift special owed) 0 ((cs.take owed).reverse ++ front) out (cs.drop owed) := by
  induction cs generalizing special owed front with
  | nil => simp [code]
  | cons c cs ih =>
    cases owed with
    | zero => simp
    | succ n =>
      rw [code, next_eq_shift, ih, shift_shift, Nat.add_comm 1 n]
      simp

/-- One place is set, and what it uses up is passed over. -/
theorem code_cons (more : Bool) (special : Option Nat) (front out : List Char) (c : Char)
    (cs : List Char) :
    code more special 0 front out (c :: cs) =
      code more (shift special ((place more special front c cs out).2 + 1)) 0
        ((cs.take (place more special front c cs out).2).reverse ++ c :: front)
        (place more special front c cs out).1 (cs.drop (place more special front c cs out).2) := by
  rw [code, next_eq_shift, code_owed, shift_shift, Nat.add_comm 1]

def setsOff (special : Option Nat) (c : Char) (cs : List Char) : Bool :=
  special = some 0 ||
    (isOperatorChar c &&
      match splitRun? [] (cs.drop (runAfter special cs).length) 0 (c :: runAfter special cs) with
      | some (op :: _) => !(op.sign && (cs.drop (op.text.length - 1)).head?.any isAsciiDigit)
      | _ => false)

/-- The gap before `y` in code: what it was, after `x`, and what becomes of it. A gap is due after a
comma or an operator that has been set off. -/
inductive Laid (special : Option Nat) (due : Bool) (x : Option Char) (y : Char)
    (gap rest : List Char) : List Char → Prop
  | comma (hy : y = ',') : Laid special due x y gap rest []
  | off (hy : isOperatorChar y = true)
    (h : due = false → gap ≠ [] → setsOff special y rest = true) :
    Laid special due x y gap rest (if x.all isOpener then [] else [' '])
  | kept (hdue : due = false) (h : gap ≠ [] → y ≠ ',' ∧ setsOff special y rest = false) :
    Laid special due x y gap rest gap
  | after {gap' : List Char} (hdue : due = true)
    (h : gap' = [' '] ∨ gap' = [] ∧ isCloser y = true) : Laid special due x y gap rest gap'

inductive Spaced (trail : List Char) :
    Option Nat → Bool → Option Char → List Char → List Char → Bool → Option Char → Prop
  | nil (special : Option Nat) (due : Bool) (x : Option Char) :
    Spaced trail special due x [] [] due x
  | cons {special : Option Nat} {due due' due'' : Bool} {x x' : Option Char} {y : Char}
    {gap gap' old new : List Char} (hg : ∀ c ∈ gap, isSpace c = true)
    (hgi : due = false → ∀ c ∈ gap, isIndent c = true)
    (hg' : ∀ c ∈ gap', isIndent c = true) (hy : isIndent y = false)
    (hlaid : Laid (shift special gap.length) due x y gap (old ++ trail) gap')
    (hdue : due' = true → ends y = true) (hcomma : y = ',' → due' = true)
    (h : Spaced trail (shift special (gap.length + 1)) due' (some y) old new due'' x') :
    Spaced trail special due x (gap ++ y :: old) (gap' ++ y :: new) due'' x'

/-- Stretches of code that are set one after the other are set together. -/
theorem Spaced.append {trail old old' new new' : List Char} {special : Option Nat}
    {due due' due'' : Bool} {x x' x'' : Option Char}
    (h : Spaced (old' ++ trail) special due x old new due' x')
    (h' : Spaced trail (shift special old.length) due' x' old' new' due'' x'') :
    Spaced trail special due x (old ++ old') (new ++ new') due'' x'' := by
  induction h with
  | nil special due x => simpa using h'
  | @cons special due due₁ due₂ x x₁ y gap gap' old new hg hgi hg' hy hlaid hdue hcomma h ih =>
    have hlen : (gap ++ y :: old).length = gap.length + 1 + old.length := by
      simp only [List.length_append, List.length_cons]
      omega
    rw [hlen, ← shift_shift] at h'
    have hrest := ih h'
    rw [← List.append_assoc] at hlaid
    have hcons := Spaced.cons hg hgi hg' hy hlaid hdue hcomma hrest
    simpa using hcons

inductive Pending (more : Bool) (x : Option Char) (gap cs : List Char) : Bool → List Char → Prop
  | kept : Pending more x gap cs false gap
  | due {gap' : List Char} (hx : x.any ends = true) (hcs : ∀ c ∈ cs.head?, isIndent c = false)
    (h : gap' = [' '] ∧ (cs = [] → more = true) ∨
      gap' = [] ∧ (∀ c ∈ cs.head?, isCloser c = true) ∧ (cs = [] → more = false)) :
    Pending more x gap cs true gap'

/-- A gap that is not due is as it was. -/
theorem Pending.isIndent {more due : Bool} {x : Option Char} {gap gap' cs : List Char}
    (h : Pending more x gap cs due gap') (hg' : ∀ c ∈ gap', isIndent c = true) :
    due = false → ∀ c ∈ gap, isIndent c = true := by
  cases h with
  | kept => exact fun _ => hg'
  | due => exact nofun

/-- A character that is not set itself takes the gap as it is. -/
theorem Pending.laid {more due : Bool} {x : Option Char} {gap gap' cs : List Char} {y : Char}
    (h : Pending more x gap (y :: cs) due gap') {special : Option Nat} {rest : List Char}
    (hplain : due = false → gap ≠ [] → y ≠ ',' ∧ setsOff special y rest = false) :
    Laid special due x y gap rest gap' := by
  cases h with
  | kept => exact .kept rfl (hplain rfl)
  | due _ _ h =>
    refine .after rfl ?_
    rcases h with ⟨h, _⟩ | ⟨h, hcloser, _⟩
    · exact .inl h
    · exact .inr ⟨h, hcloser y rfl⟩

theorem dropWhile_gap {gap base : List Char} (hgap : ∀ c ∈ gap, isIndent c = true)
    (hbase : ∀ c ∈ base.head?, isIndent c = false) :
    (gap.reverse ++ base).dropWhile isIndent = base := by
  rw [List.dropWhile_append_of_pos fun c hc => hgap c (List.mem_reverse.mp hc)]
  cases base with
  | nil => rfl
  | cons c cs => rw [List.dropWhile_cons_of_neg (by simp [hbase c rfl])]

theorem before_gap {gap base : List Char} (hgap : ∀ c ∈ gap, isIndent c = true)
    (hbase : ∀ c ∈ base.head?, isIndent c = false) :
    before (gap.reverse ++ base) = (if base.head?.all isOpener then [] else [' ']) ++ base := by
  rw [before, dropWhile_gap hgap hbase]
  cases base with
  | nil => rfl
  | cons c cs => cases hc : isOpener c <;> simp [hc]

/-- The gap before a character that is set off: one blank, or none behind a bracket that opens. -/
theorem exists_laid_off {special : Option Nat} {due : Bool} {y : Char}
    {gap gap' base rest : List Char} (hy : isOperatorChar y = true)
    (hg' : ∀ c ∈ gap', isIndent c = true) (hbase : ∀ c ∈ base.head?, isIndent c = false)
    (hoff : due = false → gap ≠ [] → setsOff special y rest = true) :
    ∃ gap₁, Laid special due base.head? y gap rest gap₁ ∧ (∀ c ∈ gap₁, isIndent c = true) ∧
      before (gap'.reverse ++ base) = gap₁.reverse ++ base := by
  refine ⟨_, .off hy hoff, ?_, ?_⟩
  · split <;> simp [isIndent]
  · rw [before_gap hg' hbase]
    split <;> rfl

/-- Behind a comma or an operator there is one blank, or none before what closes a bracket or at the
end. -/
theorem after_gap (more : Bool) (rest out : List Char) :
    ∃ gap, after more rest out = gap ++ out ∧
      (gap = [' '] ∧ (rest = [] → more = true) ∨
        gap = [] ∧ (∀ c ∈ rest.head?, isCloser c = true) ∧ (rest = [] → more = false)) := by
  cases rest with
  | nil =>
    cases more with
    | true => exact ⟨[' '], rfl, .inl ⟨rfl, fun _ => rfl⟩⟩
    | false => exact ⟨[], rfl, .inr ⟨rfl, nofun, fun _ => rfl⟩⟩
  | cons c cs =>
    cases hc : isCloser c with
    | true => exact ⟨[], by simp [after, hc], .inr ⟨rfl, by simpa using hc, nofun⟩⟩
    | false => exact ⟨[' '], by simp [after, hc], .inl ⟨rfl, nofun⟩⟩

theorem not_isIndent_of_isOperatorChar {c : Char} (h : isOperatorChar c = true) :
    isIndent c = false := by
  refine Bool.eq_false_iff.mpr fun hc => ?_
  simp only [isIndent, Bool.or_eq_true, beq_iff_eq] at hc
  rcases hc with rfl | rfl <;> exact absurd h (by decide)

theorem ne_comma_of_isOperatorChar {c : Char} (h : isOperatorChar c = true) : c ≠ ',' := by
  rintro rfl
  exact absurd h (by decide)

/-- Every operator ends with a character after which the gap is set. -/
theorem ends_of_mem_table {op : Operator} (h : op ∈ Operator.table) :
    ∀ c ∈ op.text.getLast?, ends c = true := by
  have hall : (Operator.table.all fun op => op.text.getLast?.all ends) = true := by decide
  intro c hc
  have hop := List.all_eq_true.mp hall op h
  rwa [Option.mem_def.mp hc, Option.all_some] at hop

def Marked (special : Option Nat) (cs : List Char) : Prop :=
  ∀ k ∈ special, ∃ c ∈ cs[k]?, c = ':' ∨ c = '='

theorem Marked.shift {special : Option Nat} {front cs : List Char}
    (h : Marked special (front ++ cs)) : Marked (shift special front.length) cs := by
  intro k hk
  cases special with
  | none => cases hk
  | some m =>
    simp only [Gaps.shift, Option.bind_some, Option.mem_def] at hk
    split at hk
    · cases hk
    · cases hk
      obtain ⟨c, hc, hmark⟩ := h m rfl
      rw [List.getElem?_append_right (by omega)] at hc
      exact ⟨c, hc, hmark⟩

theorem Marked.behind {special : Option Nat} {cs : List Char} (h : Marked special cs)
    (front : List Char) : Marked (special.map (· + front.length)) (front ++ cs) := by
  intro k hk
  obtain ⟨m, hm, rfl⟩ := Option.map_eq_some_iff.mp hk
  obtain ⟨c, hc, hmark⟩ := h m hm
  refine ⟨c, ?_, hmark⟩
  rw [List.getElem?_append_right (by omega), Nat.add_sub_cancel]
  exact hc

/-- Nothing is marked behind the end. -/
theorem Marked.shift_eq {special : Option Nat} {cs : List Char} (h : Marked special cs) (n : Nat) :
    Gaps.shift special n = Gaps.shift special (min n cs.length) := by
  cases special with
  | none => rfl
  | some k =>
    obtain ⟨c, hc, _⟩ := h k rfl
    have hk : k < cs.length := (List.getElem?_eq_some_iff.mp hc).1
    simp only [Gaps.shift, Option.bind_some]
    by_cases hn : n ≤ cs.length
    · rw [Nat.min_eq_left hn]
    · rw [Nat.min_eq_right (by omega), if_pos (by omega), if_pos hk]

/-- No mark is lost in a gap. -/
theorem Marked.shift_gap {special : Option Nat} {front gap cs : List Char}
    (h : Marked special (front ++ (gap ++ cs))) (hgap : ∀ c ∈ gap, isSpace c = true) :
    (Gaps.shift special (front.length + gap.length)).map (· + gap.length) =
      Gaps.shift special front.length := by
  cases special with
  | none => rfl
  | some m =>
    simp only [Gaps.shift, Option.bind_some]
    by_cases hfront : m < front.length
    · rw [if_pos hfront, if_pos (by omega)]
      rfl
    · by_cases hm : m < front.length + gap.length
      · -- the mark would be white space
        obtain ⟨c, hc, hmark⟩ := h m rfl
        rw [List.getElem?_append_right (by omega), List.getElem?_append_left (by omega)] at hc
        have hspace := hgap c (List.mem_of_getElem? hc)
        rcases hmark with rfl | rfl <;> exact absurd hspace (by decide)
      · rw [if_neg hfront, if_neg hm, Option.map_some]
        congr 1
        omega

/-- From a pending gap on, the beginning of `cs` has been set, with `rest` left over. The output is
reversed; `front` holds the characters read so far. -/
inductive Progress (more : Bool) (special : Option Nat) (due : Bool) (gap base cs : List Char) :
    List Char → List Char → List Char → Prop
  | mk {old new gap₁ gap₁' front rest : List Char} {due₁ : Bool}
    (hcs : gap ++ cs = old ++ (gap₁ ++ rest))
    (hbase : ∀ c ∈ (new.reverse ++ base).head?, isIndent c = false)
    (hg : ∀ c ∈ gap₁, isSpace c = true) (hg' : ∀ c ∈ gap₁', isIndent c = true)
    (hfront : due₁ = false → gap₁ ≠ [] → ∀ c ∈ front.head?, isIndent c = true)
    (hspaced : Spaced (gap₁ ++ rest) (special.map (· + gap.length)) due base.head? old new due₁
      (new.reverse ++ base).head?)
    (hpending : Pending more (new.reverse ++ base).head? gap₁ rest due₁ gap₁') :
    Progress more special due gap base cs (gap₁'.reverse ++ (new.reverse ++ base)) front rest

/-- Only blanks have been read so far. -/
theorem Progress.blanks {more due : Bool} {special : Option Nat}
    {gap base cs gap₁ gap' front rest : List Char} (hcs : gap ++ cs = gap₁ ++ rest)
    (hbase : ∀ c ∈ base.head?, isIndent c = false) (hg : ∀ c ∈ gap₁, isSpace c = true)
    (hg' : ∀ c ∈ gap', isIndent c = true)
    (hfront : due = false → gap₁ ≠ [] → ∀ c ∈ front.head?, isIndent c = true)
    (hpending : Pending more base.head? gap₁ rest due gap') :
    Progress more special due gap base cs (gap'.reverse ++ base) front rest :=
  @Progress.mk _ _ _ _ _ _ [] [] _ _ _ _ _ hcs hbase hg hg' hfront (.nil _ _ _) hpending

theorem drop_takeWhile_length (cs : List Char) :
    cs.drop (cs.takeWhile isIndent).length = cs.dropWhile isIndent := by
  have h : (cs.takeWhile isIndent ++ cs.dropWhile isIndent).drop (cs.takeWhile isIndent).length =
      cs.dropWhile isIndent := List.drop_left
  rwa [List.takeWhile_append_dropWhile] at h

/-- The gap after a comma or an operator is due, and the blanks there are taken along. -/
theorem Progress.after {more : Bool} {special : Option Nat} {base cs front : List Char}
    (hbase : ∀ c ∈ base.head?, isIndent c = false) (hends : base.head?.any ends = true) :
    Progress more special true [] base cs (Gaps.after more (cs.dropWhile isIndent) base) front
      (cs.dropWhile isIndent) := by
  obtain ⟨gap, hafter, hgap⟩ := after_gap more (cs.dropWhile isIndent) base
  have hg : ∀ c ∈ gap, isIndent c = true := by
    rcases hgap with ⟨rfl, _⟩ | ⟨rfl, _⟩
    · simp [isIndent]
    · exact fun _ h => by cases h
  have hrev : gap ++ base = gap.reverse ++ base := by
    rcases hgap with ⟨rfl, _⟩ | ⟨rfl, _⟩ <;> rfl
  rw [hafter, hrev]
  have hcs : [] ++ cs = cs.takeWhile isIndent ++ cs.dropWhile isIndent := by
    rw [List.takeWhile_append_dropWhile, List.nil_append]
  exact .blanks hcs hbase (fun _ => isSpace_of_mem_indent) hg (fun h => by cases h)
    (.due hends (head?_dropWhile_eq_false isIndent cs) hgap)

/-- What has been set, and then some more. -/
theorem Progress.prepend {more due due₁ : Bool} {special special₁ : Option Nat}
    {gap base cs old new gap₁ cs₁ out front rest : List Char}
    (hcs : gap ++ cs = old ++ (gap₁ ++ cs₁))
    (hspaced : Spaced (gap₁ ++ cs₁) (special.map (· + gap.length)) due base.head? old new due₁
      (new.reverse ++ base).head?)
    (hspecial : special₁.map (· + gap₁.length) = shift (special.map (· + gap.length)) old.length)
    (h : Progress more special₁ due₁ gap₁ (new.reverse ++ base) cs₁ out front rest) :
    Progress more special due gap base cs out front rest := by
  cases h with
  | @mk old₂ new₂ gap₂ gap₂' _ _ due₂ hcs₂ hbase hg hg' hfront hspaced₂ hpending =>
    have hnew : new₂.reverse ++ (new.reverse ++ base) = (new ++ new₂).reverse ++ base := by simp
    rw [hnew] at hbase hspaced₂ hpending ⊢
    rw [hcs₂] at hcs hspaced
    rw [hspecial] at hspaced₂
    refine .mk ?_ hbase hg hg' hfront (hspaced.append hspaced₂) hpending
    rw [hcs, List.append_assoc]

theorem head?_reverse_append (gap' : List Char) (y : Char) (ys base : List Char) :
    ((gap' ++ y :: ys).reverse ++ base).head? = (y :: ys).getLast? := by
  rw [List.head?_append, List.head?_reverse, List.getLast?_append]
  obtain ⟨z, hz⟩ := exists_getLast? (List.cons_ne_nil y ys)
  rw [hz]
  rfl

/-- What is put out ends with no blank behind a run of operator characters. -/
theorem not_isIndent_behind_run {y : Char} {ys : List Char}
    (hrun : ∀ c ∈ y :: ys, isOperatorChar c = true) (gap base : List Char) :
    ∀ c ∈ ((gap ++ y :: ys).reverse ++ base).head?, isIndent c = false := by
  intro c hc
  rw [head?_reverse_append] at hc
  exact not_isIndent_of_isOperatorChar (hrun c (List.mem_of_getLast? hc))

/-- One character, with the gap before it laid, and then some more. -/
theorem Progress.char {more due due₁ : Bool} {special : Option Nat}
    {gap gap₁ base cs out front rest : List Char} {y : Char} (hg : ∀ c ∈ gap, isSpace c = true)
    (hgi : due = false → ∀ c ∈ gap, isIndent c = true) (hg₁ : ∀ c ∈ gap₁, isIndent c = true)
    (hy : isIndent y = false) (hdue : due₁ = true → ends y = true)
    (hcomma : y = ',' → due₁ = true) (hlaid : Laid special due base.head? y gap cs gap₁)
    (h : Progress more (shift special 1) due₁ [] ((gap₁ ++ [y]).reverse ++ base) cs
      out front rest) :
    Progress more special due gap base (y :: cs) out front rest := by
  have hshift : ∀ n, shift (special.map (· + gap.length)) (gap.length + n) = shift special n :=
    shift_map_add special gap.length
  have hhere := hshift 0
  rw [Nat.add_zero, shift_zero] at hhere
  have hspaced : Spaced ([] ++ cs) (special.map (· + gap.length)) due base.head? (gap ++ [y])
      (gap₁ ++ [y]) due₁ ((gap₁ ++ [y]).reverse ++ base).head? := by
    rw [List.reverse_append]
    refine .cons hg hgi hg₁ hy ?_ hdue hcomma (.nil _ _ _)
    rw [hhere]
    exact hlaid
  refine Progress.prepend ?_ hspaced ?_ h
  · simp
  · rw [List.length_append, hshift]
    simp

/-- Operator characters in a row stay together. -/
theorem Progress.run {more due due₁ : Bool} {special : Option Nat}
    {gap gap₁ base cs out front rest : List Char} {y : Char} {ys : List Char}
    (hg : ∀ c ∈ gap, isSpace c = true) (hgi : due = false → ∀ c ∈ gap, isIndent c = true)
    (hg₁ : ∀ c ∈ gap₁, isIndent c = true) (hops : ∀ c ∈ y :: ys, isOperatorChar c = true)
    (hdue : due₁ = true → ∀ c ∈ (y :: ys).getLast?, ends c = true)
    (hlaid : Laid special due base.head? y gap (ys ++ cs) gap₁)
    (h : Progress more (shift special (y :: ys).length) due₁ []
      ((gap₁ ++ y :: ys).reverse ++ base) cs
      out front rest) :
    Progress more special due gap base (y :: ys ++ cs) out front rest := by
  induction ys generalizing special due gap gap₁ base y with
  | nil =>
    have hy := hops y List.mem_cons_self
    exact .char hg hgi hg₁ (not_isIndent_of_isOperatorChar hy) (fun hd => hdue hd y rfl)
      (fun hc => absurd hc (ne_comma_of_isOperatorChar hy)) hlaid h
  | cons z zs ih =>
    have hy := hops y List.mem_cons_self
    have hbase : (gap₁ ++ y :: z :: zs).reverse ++ base =
        ([] ++ z :: zs).reverse ++ ((gap₁ ++ [y]).reverse ++ base) := by simp
    have hlen : shift special (y :: z :: zs).length = shift (shift special 1) (z :: zs).length := by
      rw [shift_shift]
      congr 1
      simp only [List.length_cons]
      omega
    rw [hbase, hlen] at h
    -- nothing comes between the characters of a run
    have hrest : Progress more (shift special 1) false [] ((gap₁ ++ [y]).reverse ++ base)
        (z :: zs ++ cs) out front rest :=
      ih (by simp) (by simp) (by simp) (fun c hc => hops c (List.mem_cons_of_mem y hc))
        (by simpa using hdue)
        (.kept rfl fun hne => absurd rfl hne) h
    refine .char hg hgi hg₁ (not_isIndent_of_isOperatorChar hy) ?_
      (fun hc => absurd hc (ne_comma_of_isOperatorChar hy)) hlaid hrest
    exact nofun

/-- Operators one after another. -/
theorem progress_operators (more : Bool) (front : List Char) {ops : List Operator}
    (hops : ∀ op ∈ ops, op ∈ Operator.table) (tail : List Char) (special : Option Nat) {due : Bool}
    {gap gap' base : List Char} (hbase : ∀ c ∈ base.head?, isIndent c = false)
    (hg : ∀ c ∈ gap, isSpace c = true) (hg' : ∀ c ∈ gap', isIndent c = true)
    (hpending : Pending more base.head? gap (ops.flatMap Operator.text ++ tail) due gap')
    (hempty : due = false → gap ≠ [] → ops ≠ [])
    (hfirst : ∀ op ∈ ops.head?, due = false → gap ≠ [] →
      ∀ y ys, ops.flatMap Operator.text ++ tail = y :: ys →
        setsOff special y ys =
          !op.isSignAt (gap'.reverse ++ base).head? (ys.drop (op.text.length - 1)).head?) :
    Progress more special due gap base (ops.flatMap Operator.text ++ tail)
      (operators more (ops.flatMap Operator.text ++ tail) (gap'.reverse ++ base) ops).1 front
      ((ops.flatMap Operator.text ++ tail).drop
        (operators more (ops.flatMap Operator.text ++ tail) (gap'.reverse ++ base) ops).2) := by
  induction ops generalizing special due gap gap' base with
  | nil =>
    simp only [List.flatMap_nil, List.nil_append, operators, List.drop_zero] at *
    exact .blanks rfl hbase hg hg' (fun h h' => absurd rfl (hempty h h')) hpending
  | cons op ops ih =>
    have hgi := hpending.isIndent hg'
    have hop := hops op List.mem_cons_self
    obtain ⟨hne, hchars⟩ := Operator.isOperatorChar_of_mem_table hop
    have hends := ends_of_mem_table hop
    obtain ⟨y, ys, htext⟩ := List.exists_cons_of_ne_nil hne
    have hlater : ∀ op ∈ ops, op ∈ Operator.table := fun o ho => hops o (List.mem_cons_of_mem op ho)
    have hcs : (op :: ops).flatMap Operator.text ++ tail =
        y :: ys ++ (ops.flatMap Operator.text ++ tail) := by simp [htext]
    rw [htext] at hchars hends
    have hy : isOperatorChar y = true := hchars y List.mem_cons_self
    have hfirst' : due = false → gap ≠ [] →
        setsOff special y (ys ++ (ops.flatMap Operator.text ++ tail)) =
          !op.isSignAt (gap'.reverse ++ base).head? (ops.flatMap Operator.text ++ tail).head? := by
      intro hdue hgap
      have h := hfirst op rfl hdue hgap y (ys ++ (ops.flatMap Operator.text ++ tail)) hcs
      rwa [htext, List.length_cons, Nat.add_sub_cancel, List.drop_left] at h
    have hnext := fun gap₁ : List Char => not_isIndent_behind_run hchars gap₁ base
    rw [hcs] at hpending ⊢
    have hdrop : (y :: ys ++ (ops.flatMap Operator.text ++ tail)).drop (y :: ys).length =
        ops.flatMap Operator.text ++ tail := List.drop_left
    simp only [operators, htext, hdrop]
    by_cases hsign : op.isSignAt (gap'.reverse ++ base).head?
        (ops.flatMap Operator.text ++ tail).head? = true
    · -- a sign keeps to what stands before it
      rw [if_pos hsign]
      have hlaid :
          Laid special due base.head? y gap (ys ++ (ops.flatMap Operator.text ++ tail)) gap' := by
        refine hpending.laid fun hdue hgap => ⟨ne_comma_of_isOperatorChar hy, ?_⟩
        rw [hfirst' hdue hgap, hsign]
        rfl
      have hrest := @ih hlater (shift special (y :: ys).length) false [] []
        ((gap' ++ y :: ys).reverse ++ base) (hnext gap') (fun _ h => by cases h)
          (fun _ h => by cases h) .kept (fun _ h => absurd rfl h)
        (fun _ _ _ h => absurd rfl h)
      have hout : (y :: ys).reverse ++ (gap'.reverse ++ base) =
          [].reverse ++ ((gap' ++ y :: ys).reverse ++ base) := by simp
      rw [← List.drop_drop, hdrop, hout]
      exact .run hg hgi hg' hchars (fun _ => hends) hlaid hrest
    · rw [if_neg hsign]
      obtain ⟨gap₁, hoff, hg₁, hbefore⟩ : ∃ gap₁,
          Laid special due base.head? y gap (ys ++ (ops.flatMap Operator.text ++ tail))
          gap₁ ∧ _ := by
        refine exists_laid_off hy hg' hbase fun hdue hgap => ?_
        rw [hfirst' hdue hgap, Bool.eq_false_iff.mpr hsign]
        rfl
      have hout : (y :: ys).reverse ++ (gap₁.reverse ++ base) =
          (gap₁ ++ y :: ys).reverse ++ base := by
        simp
      have hlast : ((gap₁ ++ y :: ys).reverse ++ base).head?.any ends = true := by
        rw [head?_reverse_append]
        obtain ⟨z, hz⟩ := exists_getLast? (List.cons_ne_nil y ys)
        rw [hz]
        exact hends z hz
      cases ops with
      | nil =>
        -- the last operator takes the blanks after it along
        simp only [List.flatMap_nil, List.nil_append, List.isEmpty_nil, if_true] at *
        rw [binary, hbefore, hout, ← List.drop_drop, hdrop, drop_takeWhile_length]
        exact .run hg hgi hg₁ hchars (fun _ => hends) hoff (.after (hnext gap₁) hlast)
      | cons op' ops =>
        obtain ⟨hne', hchars'⟩ :=
          Operator.isOperatorChar_of_mem_table (hlater op' List.mem_cons_self)
        -- the gap after this operator is due, and the next one begins right behind it
        have hrest := @ih hlater (shift special (y :: ys).length) true [] [' ']
          ((gap₁ ++ y :: ys).reverse ++ base) (hnext gap₁) (fun _ h => by cases h)
            (by simp [isIndent])
          (.due hlast ?_ (.inl ⟨rfl, ?_⟩)) (fun h => by cases h) (fun _ _ h => by cases h)
        · have hspace : ' ' :: ((y :: ys).reverse ++ before (gap'.reverse ++ base)) =
              [' '].reverse ++ ((gap₁ ++ y :: ys).reverse ++ base) := by
            rw [hbefore, hout]
            rfl
          simp only [List.isEmpty_cons, Bool.false_eq_true, if_false]
          rw [← List.drop_drop, hdrop, hspace]
          exact .run hg hgi hg₁ hchars (fun _ => hends) hoff hrest
        · intro c hc
          obtain ⟨z, zs, hz⟩ := List.exists_cons_of_ne_nil hne'
          rw [List.flatMap_cons, hz] at hc
          cases hc
          exact not_isIndent_of_isOperatorChar (hchars' _ (by rw [hz]; exact List.mem_cons_self))
        · intro hnil
          rw [List.flatMap_cons] at hnil
          exact absurd (List.append_eq_nil_iff.mp (List.append_eq_nil_iff.mp hnil).1).1 hne'

section Place

variable {more due : Bool} {special : Option Nat} {front base gap gap' cs : List Char} {c : Char}

/-- A colon or an equals sign that is set off on its own. -/
theorem progress_mark (hop : isOperatorChar c = true) (hends : ends c = true)
    (hbase : ∀ c ∈ base.head?, isIndent c = false) (hg : ∀ c ∈ gap, isSpace c = true)
    (hg' : ∀ c ∈ gap', isIndent c = true) (hgi : due = false → ∀ c ∈ gap, isIndent c = true) :
    Progress more (some 0) due gap base (c :: cs) (binary more [c] cs (gap'.reverse ++ base)) front
      (cs.dropWhile isIndent) := by
  obtain ⟨gap₁, hoff, hg₁, hbefore⟩ : ∃ gap₁, Laid (some 0) due base.head? c gap cs gap₁ ∧ _ :=
    exists_laid_off hop hg' hbase fun _ _ => by simp [setsOff]
  have hout : [c].reverse ++ (gap₁.reverse ++ base) = (gap₁ ++ [c]).reverse ++ base := by simp
  have hbase' : ∀ d ∈ ((gap₁ ++ [c]).reverse ++ base).head?, isIndent d = false := by
    simpa using not_isIndent_of_isOperatorChar hop
  rw [binary, hbefore, hout]
  exact .char hg hgi hg₁ (not_isIndent_of_isOperatorChar hop) (fun _ => hends) (fun _ => rfl) hoff
    (.after hbase' (by simpa using hends))

theorem progress_comma (hbase : ∀ c ∈ base.head?, isIndent c = false)
    (hg : ∀ c ∈ gap, isSpace c = true) (hg' : ∀ c ∈ gap', isIndent c = true)
    (hgi : due = false → ∀ c ∈ gap, isIndent c = true) :
    Progress more special due gap base (',' :: cs)
      (after more (cs.dropWhile isIndent) (',' :: (gap'.reverse ++ base).dropWhile isIndent)) front
      (cs.dropWhile isIndent) := by
  have hbase' : ∀ d ∈ (([] ++ [',']).reverse ++ base).head?, isIndent d = false := by
    simp [isIndent]
  rw [dropWhile_gap hg' hbase]
  exact .char hg hgi (by simp) (by decide) (fun _ => by decide) (fun _ => rfl) (.comma rfl)
    (.after hbase' rfl)

/-- A run of operator characters that is put out as it is. -/
theorem progress_raw {run rest : List Char} (hrun : ∀ d ∈ c :: run, isOperatorChar d = true)
    (hg : ∀ c ∈ gap, isSpace c = true) (hg' : ∀ c ∈ gap', isIndent c = true)
    (hpending : Pending more base.head? gap (c :: (run ++ rest)) due gap')
    (hplain : due = false → gap ≠ [] → setsOff special c (run ++ rest) = false) :
    Progress more special due gap base (c :: run ++ rest)
      ((c :: run).reverse ++ (gap'.reverse ++ base)) front rest := by
  have hout : (c :: run).reverse ++ (gap'.reverse ++ base) =
      [].reverse ++ ((gap' ++ c :: run).reverse ++ base) := by simp
  have hbase' := not_isIndent_behind_run hrun gap' base
  have hcomma := ne_comma_of_isOperatorChar (hrun c List.mem_cons_self)
  rw [hout]
  refine .run hg (hpending.isIndent hg') hg' hrun ?_
    (hpending.laid fun hdue hgap => ⟨hcomma, hplain hdue hgap⟩)
    (.blanks rfl hbase' ?_ ?_ ?_ .kept)
  all_goals simp

/-- A blank, with which the gap goes on. -/
theorem progress_blank (hblank : isIndent c = true) (hbase : ∀ c ∈ base.head?, isIndent c = false)
    (hg : ∀ c ∈ gap, isSpace c = true) (hg' : ∀ c ∈ gap', isIndent c = true)
    (hpending : Pending more base.head? gap (c :: cs) due gap') :
    Progress more special due gap base (c :: cs) (c :: (gap'.reverse ++ base)) (c :: front) cs := by
  cases hpending with
  | kept =>
    have hcs : gap ++ c :: cs = (gap ++ [c]) ++ cs := by simp
    have hout : c :: (gap.reverse ++ base) = (gap ++ [c]).reverse ++ base := by simp
    rw [hout]
    refine .blanks hcs hbase ?_ ?_ ?_ .kept
    · exact List.forall_mem_append.mpr ⟨hg, by simpa using isSpace_of_isIndent hblank⟩
    · exact List.forall_mem_append.mpr ⟨hg', by simpa using hblank⟩
    · rintro _ _ d ⟨⟩
      exact hblank
  | due _ hcs =>
    rw [hcs c rfl] at hblank
    cases hblank

/-- Any other character on its own. -/
theorem progress_plain (hblank : isIndent c = false) (hcomma : c ≠ ',')
    (hg : ∀ c ∈ gap, isSpace c = true) (hg' : ∀ c ∈ gap', isIndent c = true)
    (hpending : Pending more base.head? gap (c :: cs) due gap')
    (hplain : setsOff special c cs = false) :
    Progress more special due gap base (c :: cs) (c :: (gap'.reverse ++ base)) (c :: front) cs := by
  have hbase' : ∀ d ∈ ((gap' ++ [c]).reverse ++ base).head?, isIndent d = false := by
    simpa using hblank
  have hout : c :: (gap'.reverse ++ base) = [].reverse ++ ((gap' ++ [c]).reverse ++ base) := by simp
  rw [hout]
  refine .char hg (hpending.isIndent hg') hg' hblank ?_ (fun hc => absurd hc hcomma)
    (hpending.laid fun _ _ => ⟨hcomma, hplain⟩) (.blanks rfl hbase' ?_ ?_ ?_ .kept)
  all_goals simp

/-- A run of operator characters. Behind a blank it splits as it does in the condition for setting
it off. -/
theorem progress_run (hspecial : special ≠ some 0) (hop : isOperatorChar c = true)
    (hbase : ∀ c ∈ base.head?, isIndent c = false) (hg : ∀ c ∈ gap, isSpace c = true)
    (hg' : ∀ c ∈ gap', isIndent c = true)
    (hpending : Pending more base.head? gap (c :: cs) due gap')
    (hfront : due = false → gap ≠ [] → ∀ c ∈ front.head?, isIndent c = true) :
    Progress more special due gap base (c :: cs)
      (place more special front c cs (gap'.reverse ++ base)).1
      ((cs.take (place more special front c cs (gap'.reverse ++ base)).2).reverse ++ c :: front)
      (cs.drop (place more special front c cs (gap'.reverse ++ base)).2) := by
  obtain ⟨rest, hrest, hplace⟩ :=
    place_operator more front cs (gap'.reverse ++ base) hspecial
      (ne_comma_of_isOperatorChar hop) hop
  have hrun : ∀ d ∈ c :: runAfter special cs, isOperatorChar d = true :=
    List.forall_mem_cons.mpr ⟨hop, fun _ => isOperatorChar_of_mem_runAfter⟩
  have hdrop : cs.drop (runAfter special cs).length = rest := by
    have h : (runAfter special cs ++ rest).drop (runAfter special cs).length = rest :=
      List.drop_left
    rwa [← hrest] at h
  have hcs : c :: cs = c :: runAfter special cs ++ rest := by
    rw [List.cons_append, ← hrest]
  have hblank : due = false → gap ≠ [] →
      splitRun? front rest 0 (c :: runAfter special cs) =
      splitRun? [] rest 0 (c :: runAfter special cs) :=
    fun hdue hgap => splitRun?_behind_blank (hfront hdue hgap) rest hrun
  rw [hplace]
  cases hsplit : splitRun? front rest 0 (c :: runAfter special cs) with
  | none =>
    simp only [hdrop]
    rw [hcs] at hpending ⊢
    refine progress_raw hrun hg hg' hpending fun hdue hgap => ?_
    rw [← hrest]
    simp [setsOff, hspecial, hdrop, ← hblank hdue hgap, hsplit]
  | some ops =>
    obtain ⟨_, hflat, hmem⟩ := splitRun?_flatMap_text hsplit
    rw [List.drop_zero] at hflat
    have hne : ops ≠ [] := splitRun?_ne_nil (by simp) hsplit
    have hall : ops.flatMap Operator.text ++ rest = c :: cs := by rw [hflat, ← hcs]
    have hcount : 0 < (operators more (c :: cs) (gap'.reverse ++ base) ops).2 := by
      have hle := length_le_operators more ops (c :: cs) (gap'.reverse ++ base)
      rw [hflat, List.length_cons] at hle
      omega
    have hprogress := progress_operators more
      ((cs.take ((operators more (c :: cs) (gap'.reverse ++ base) ops).2 - 1)).reverse ++ c ::
        front)
      hmem rest special hbase hg hg' (hall ▸ hpending) (fun _ _ => hne) ?_
    · rw [hall] at hprogress
      obtain ⟨n, hn⟩ := Nat.exists_eq_add_of_lt hcount
      rw [Nat.zero_add] at hn
      simp only [hn, Nat.add_sub_cancel, List.drop_succ_cons] at hprogress ⊢
      exact hprogress
    · intro op hop' hdue hgap y ys hys
      rw [hall] at hys
      cases hys
      cases hpending with
      | due => cases hdue
      | kept =>
        -- a blank in front lets the operator be a sign
        obtain ⟨ops', rfl⟩ := List.head?_eq_some_iff.mp hop'
        obtain ⟨b, bs, hb⟩ := List.exists_cons_of_ne_nil (mt List.reverse_eq_nil_iff.mp hgap)
        have hspace : isSpace b = true :=
          hg b (List.mem_reverse.mp (by rw [hb]; exact List.mem_cons_self))
        rw [hblank rfl hgap] at hsplit
        simp [setsOff, hspecial, hop, hdrop, hsplit, Operator.isSignAt, hb, hspace]

/-- One place in a stretch of code. -/
theorem progress_place (hbase : ∀ c ∈ base.head?, isIndent c = false)
    (hg : ∀ c ∈ gap, isSpace c = true) (hg' : ∀ c ∈ gap', isIndent c = true)
    (hpending : Pending more base.head? gap (c :: cs) due gap')
    (hfront : due = false → gap ≠ [] → ∀ c ∈ front.head?, isIndent c = true)
    (hmarked : Marked special (c :: cs)) :
    Progress more special due gap base (c :: cs)
      (place more special front c cs (gap'.reverse ++ base)).1
      ((cs.take (place more special front c cs (gap'.reverse ++ base)).2).reverse ++ c :: front)
      (cs.drop (place more special front c cs (gap'.reverse ++ base)).2) := by
  have hgi := hpending.isIndent hg'
  by_cases hspecial : special = some 0
  · subst hspecial
    obtain ⟨d, hd, hmark⟩ := hmarked 0 rfl
    cases hd
    have hop : isOperatorChar c = true ∧ ends c = true := by
      rcases hmark with rfl | rfl <;> decide
    simp only [place, if_true]
    rw [drop_takeWhile_length]
    exact progress_mark hop.1 hop.2 hbase hg hg' hgi
  by_cases hcomma : c = ','
  · subst hcomma
    simp only [place, if_neg hspecial, if_true]
    rw [drop_takeWhile_length]
    exact progress_comma hbase hg hg' hgi
  by_cases hop : isOperatorChar c = true
  · exact progress_run hspecial hop hbase hg hg' hpending hfront
  · simp only [place, if_neg hspecial, if_neg hcomma, if_neg hop, List.take_zero, List.drop_zero]
    cases hblank : isIndent c with
    | true => exact progress_blank hblank hbase hg hg' hpending
    | false => exact progress_plain hblank hcomma hg hg' hpending (by simp [setsOff, hspecial, hop])

end Place

/-- A whole stretch of code. -/
theorem progress_code {more : Bool} (cs : List Char) {due : Bool} {special : Option Nat}
    {front base gap gap' : List Char} (hbase : ∀ c ∈ base.head?, isIndent c = false)
    (hg : ∀ c ∈ gap, isSpace c = true) (hg' : ∀ c ∈ gap', isIndent c = true)
    (hpending : Pending more base.head? gap cs due gap')
    (hfront : due = false → gap ≠ [] → ∀ c ∈ front.head?, isIndent c = true)
    (hmarked : Marked special cs) :
    ∃ front', Progress more special due gap base cs
      (code more special 0 front (gap'.reverse ++ base) cs) front' [] := by
  -- each place uses up at least its own character
  induction hlen : cs.length using Nat.strongRecOn generalizing cs due special front base gap gap'
    with
  | ind len ih =>
    cases cs with
    | nil => exact ⟨front, .blanks rfl hbase hg hg' hfront hpending⟩
    | cons c cs =>
      rw [code_cons]
      have hplace := progress_place hbase hg hg' hpending hfront hmarked
      generalize hn : (place more special front c cs (gap'.reverse ++ base)).2 = n at hplace ⊢
      generalize (place more special front c cs (gap'.reverse ++ base)).1 = out at hplace ⊢
      generalize (cs.take n).reverse ++ c :: front = front₁ at hplace ⊢
      generalize hrest : cs.drop n = rest at hplace ⊢
      cases hplace with
      | @mk old new gap₁ gap₁' _ _ due₁ hcs hbase₁ hg₁ hg₁' hfront₁ hspaced hpending₁ =>
        have hmarked' := hmarked.behind gap
        have hshort : rest.length < (c :: cs).length := by
          rw [← hrest, List.length_drop, List.length_cons]
          omega
        have hcount : gap.length + min (n + 1) (c :: cs).length = old.length + gap₁.length := by
          have hl := congrArg List.length hcs
          simp only [List.length_append, List.length_cons] at hl
          have hr := congrArg List.length hrest
          rw [List.length_drop] at hr
          simp only [List.length_cons]
          omega
        have hspecial : shift special (n + 1) =
            shift (special.map (· + gap.length)) (old.length + gap₁.length) := by
          rw [hmarked.shift_eq, ← hcount, shift_map_add]
        rw [hcs] at hmarked'
        have hmarked₁ : Marked (shift special (n + 1)) rest := by
          rw [hspecial, ← List.length_append]
          exact (List.append_assoc old gap₁ rest ▸ hmarked').shift
        obtain ⟨front', hprogress⟩ := ih rest.length (hlen ▸ hshort) rest hbase₁ hg₁ hg₁' hpending₁
          hfront₁ hmarked₁ rfl
        refine ⟨front', .prepend hcs hspaced ?_ hprogress⟩
        rw [hspecial]
        exact hmarked'.shift_gap hg₁

end Gaps

end ScratchFormat
