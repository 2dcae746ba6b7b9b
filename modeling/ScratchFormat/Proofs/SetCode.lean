import Mathlib.Data.List.TakeWhile
import ScratchFormat.Proofs.Spacing

/-! A stretch of code, piece by piece, and exactly what it is set as. Each piece has a gap before
it: a character on its own, a comma, the mark of a signature or a definition, or a run of operator
characters. -/

namespace ScratchFormat

theorem Operator.inExponent_cons (c : Char) (front rest : List Char) :
    inExponent (c :: front) rest =
      ((c == 'e' || c == 'E') && front.head?.any isAsciiDigit &&
        rest.tail.head?.any isAsciiDigit) := by
  cases front with
  | nil => simp [inExponent]
  | cons d front =>
    cases rest with
    | nil => simp [inExponent]
    | cons _ rest => cases rest <;> simp [inExponent]

namespace Gaps

structure SameFront (front front' : List Char) : Prop where
  at?_eq : ∀ rest, Operator.at? front rest = Operator.at? front' rest
  digit : front.head?.any isAsciiDigit = front'.head?.any isAsciiDigit

namespace SameFront

variable {front front' : List Char}

theorem refl (front : List Char) : SameFront front front := ⟨fun _ => rfl, rfl⟩

/-- Only the exponent of a number looks at what stands before the character in front. -/
theorem of_head {c : Char}
    (h : c = 'e' ∨ c = 'E' → front.head?.any isAsciiDigit = front'.head?.any isAsciiDigit) :
    SameFront (c :: front) (c :: front') := by
  refine ⟨fun rest => ?_, rfl⟩
  have hexponent : Operator.inExponent (c :: front) rest =
      Operator.inExponent (c :: front') rest := by
    rw [Operator.inExponent_cons, Operator.inExponent_cons]
    by_cases hc : c = 'e' ∨ c = 'E'
    · rw [h hc]
    · have hnot : (c == 'e' || c == 'E') = false := by simpa using hc
      rw [hnot]
      rfl
  unfold Operator.at?
  rw [hexponent]
  rfl

theorem cons (h : SameFront front front') (c : Char) : SameFront (c :: front) (c :: front') :=
  of_head fun _ => h.digit

theorem append (h : SameFront front front') (cs : List Char) :
    SameFront (cs ++ front) (cs ++ front') := by
  induction cs with
  | nil => exact h
  | cons c cs ih => exact ih.cons c

/-- Blanks in front are like nothing. -/
theorem of_blank (h : ∀ c ∈ front.head?, isIndent c = true) : SameFront front [] := by
  refine ⟨Operator.at?_behind_blank h, ?_⟩
  cases front with
  | nil => rfl
  | cons c front =>
    have hc := h c rfl
    simp only [isIndent, Bool.or_eq_true, beq_iff_eq] at hc
    rcases hc with rfl | rfl <;> rfl

theorem of_blanks {gap : List Char} (h : ∀ b ∈ gap, isIndent b = true) : SameFront gap.reverse [] :=
  of_blank fun b hb => h b (List.mem_reverse.mp (List.mem_of_head? hb))

theorem symm (h : SameFront front front') : SameFront front' front :=
  ⟨fun rest => (h.at?_eq rest).symm, h.digit.symm⟩

theorem trans {front'' : List Char} (h : SameFront front front') (h' : SameFront front' front'') :
    SameFront front front'' :=
  ⟨fun rest => (h.at?_eq rest).trans (h'.at?_eq rest), h.digit.trans h'.digit⟩

theorem splitRun?_eq (h : SameFront front front') (tail : List Char) (owed : Nat)
    (run : List Char) : splitRun? front tail owed run = splitRun? front' tail owed run := by
  induction run generalizing front front' owed with
  | nil => rfl
  | cons c cs ih =>
    cases owed with
    | succ n => exact ih (h.cons c) n
    | zero => simp only [splitRun?, h.at?_eq, ih (h.cons c)]

/-- Code is set alike behind fronts that end alike. -/
theorem code_eq (h : SameFront front front') (more : Bool) (special : Option Nat) (owed : Nat)
    (out cs : List Char) :
    code more special owed front out cs = code more special owed front' out cs := by
  induction cs generalizing front front' special owed out with
  | nil => rfl
  | cons c cs ih =>
    cases owed with
    | succ n => exact ih (h.cons c) _ n out
    | zero =>
      have hplace : place more special front c cs out = place more special front' c cs out := by
        simp only [place, h.splitRun?_eq]
      rw [code, code, hplace]
      exact ih (h.cons c) _ _ _

end SameFront

def offGap (x : Option Char) : List Char := if x.all isOpener then [] else [' ']

def restGap (due : Bool) (gap : List Char) (c : Char) : List Char :=
  if due then (if isCloser c then [] else [' ']) else gap

def endGap (more due : Bool) (gap : List Char) : List Char :=
  if due then (if more then [' '] else []) else gap

def spread : List Operator → List Char
  | [] => []
  | [op] => op.text
  | op :: ops => op.text ++ ' ' :: spread ops

def admitsSign (c : Char) : Bool := isSpace c || isOpener c || c == ',' || isOperatorChar c

def endsInSign (free : Bool) (next : Option Char) : List Operator → Bool
  | [] => false
  | [op] => op.sign && next.any isAsciiDigit && free
  | _ :: ops => endsInSign true next ops

def leadGap (due sign : Bool) (gap : List Char) (x : Option Char) (y : Char)
    (ops : List Operator) : List Char :=
  if sign && ops.tail.isEmpty then restGap due gap y else offGap x

/-- Code and what it is set as, from a place behind `front` on, with the output ending in `x`.
`mark` counts the characters behind a colon or an equals sign that is set off on its own. -/
inductive Sets (more : Bool) (mark : Option Nat) :
    Bool → List Char → Option Char → List Char → List Char → Prop
  | done {due : Bool} {front gap : List Char} {x : Option Char}
    (hgap : ∀ b ∈ gap, isIndent b = true) :
    Sets more mark due front x gap (endGap more due gap)
  | plain {due : Bool} {front gap old new : List Char} {x : Option Char} {c : Char}
    (hgap : ∀ b ∈ gap, isIndent b = true) (hblank : isIndent c = false)
    (hop : isOperatorChar c = false) (hcomma : c ≠ ',') (hmark : mark ≠ some old.length)
    (h : Sets more mark false (c :: (gap.reverse ++ front)) (some c) old new) :
    Sets more mark due front x (gap ++ c :: old) (restGap due gap c ++ c :: new)
  | comma {due : Bool} {front gap old new : List Char} {x : Option Char}
    (hgap : ∀ b ∈ gap, isIndent b = true) (hmark : mark ≠ some old.length)
    (h : Sets more mark true (',' :: (gap.reverse ++ front)) (some ',') old new) :
    Sets more mark due front x (gap ++ ',' :: old) (',' :: new)
  | mark {due : Bool} {front gap old new : List Char} {x : Option Char} {c : Char}
    (hgap : ∀ b ∈ gap, isIndent b = true) (hc : c = ':' ∨ c = '=') (hmark : mark = some old.length)
    (h : Sets more mark true (c :: (gap.reverse ++ front)) (some c) old new) :
    Sets more mark due front x (gap ++ c :: old) (offGap x ++ c :: new)
  | raw {due : Bool} {front gap ys old new : List Char} {x : Option Char} {y : Char}
    (hgap : ∀ b ∈ gap, isIndent b = true) (hrun : ∀ c ∈ y :: ys, isOperatorChar c = true)
    (hmark : ∀ k ∈ mark, k < old.length ∨ (y :: ys ++ old).length ≤ k)
    (hstop : ∀ c ∈ old.head?, isOperatorChar c = true → mark = some old.tail.length)
    (hsplit : splitRun? (gap.reverse ++ front) old 0 (y :: ys) = none)
    (h : Sets more mark false ((y :: ys).reverse ++ (gap.reverse ++ front))
      (y :: ys).getLast? old new) :
    Sets more mark due front x (gap ++ (y :: ys ++ old)) (restGap due gap y ++ (y :: ys ++ new))
  | split {due sign : Bool} {front gap ys old new : List Char} {x : Option Char} {y : Char}
    {ops : List Operator} (hgap : ∀ b ∈ gap, isIndent b = true)
    (hrun : ∀ c ∈ y :: ys, isOperatorChar c = true)
    (hmark : ∀ k ∈ mark, k < old.length ∨ (y :: ys ++ old).length ≤ k)
    (hstop : ∀ c ∈ old.head?, isOperatorChar c = true → mark = some old.tail.length)
    (hsplit : splitRun? (gap.reverse ++ front) old 0 (y :: ys) = some ops)
    (hsign : endsInSign (due || !gap.isEmpty || x.all admitsSign) old.head? ops = sign)
    (h : Sets more mark (!sign) ((y :: ys).reverse ++ (gap.reverse ++ front))
      (y :: ys).getLast? old new) :
    Sets more mark due front x (gap ++ (y :: ys ++ old))
      (leadGap due sign gap x y ops ++ (spread ops ++ new))

def Marks (mark : Option Nat) (cs : List Char) : Prop :=
  ∀ front c rest, cs = front ++ c :: rest → mark = some rest.length → c = ':' ∨ c = '='

theorem Marks.behind {mark : Option Nat} (front : List Char) {cs : List Char}
    (h : Marks mark (front ++ cs)) : Marks mark cs := by
  intro front' c rest hcs hmark
  apply h (front ++ front') c rest _ hmark
  rw [hcs, List.append_assoc]

def placeOf (mark : Option Nat) (cs : List Char) : Option Nat :=
  mark.bind fun k => if k < cs.length then some (cs.length - 1 - k) else none

theorem placeOf_none (cs : List Char) : placeOf none cs = none := rfl

theorem placeOf_eq_zero {mark : Option Nat} {c : Char} {cs : List Char} :
    placeOf mark (c :: cs) = some 0 ↔ mark = some cs.length := by
  cases mark with
  | none => simp [placeOf]
  | some k =>
    simp only [placeOf, Option.bind_some, List.length_cons, Option.some.injEq]
    by_cases hk : k < cs.length + 1
    · rw [if_pos hk, Option.some.injEq]
      omega
    · rw [if_neg hk]
      simp only [reduceCtorEq, false_iff]
      omega

theorem shift_placeOf (mark : Option Nat) {n : Nat} {cs : List Char} (hn : n ≤ cs.length) :
    shift (placeOf mark cs) n = placeOf mark (cs.drop n) := by
  cases mark with
  | none => rfl
  | some k =>
    simp only [placeOf, Option.bind_some, List.length_drop]
    by_cases hk : k < cs.length
    · rw [if_pos hk, shift, Option.bind_some]
      by_cases hlate : k < cs.length - n
      · rw [if_neg (by omega), if_pos hlate]
        congr 1
        omega
      · rw [if_pos (by omega), if_neg hlate]
    · rw [if_neg hk, if_neg (by omega)]
      rfl

theorem shift_placeOf_append (mark : Option Nat) (front cs : List Char) :
    shift (placeOf mark (front ++ cs)) front.length = placeOf mark cs := by
  rw [shift_placeOf mark (by rw [List.length_append]; omega), List.drop_left]

section Code

variable {more due : Bool} {mark : Option Nat} {front base gap old new : List Char}

/-- Blanks are put out as they are. -/
theorem code_blanks (more : Bool) (front out : List Char) {mark : Option Nat} {gap : List Char}
    (cs : List Char) (hgap : ∀ b ∈ gap, isIndent b = true) (hmarks : Marks mark (gap ++ cs)) :
    code more (placeOf mark (gap ++ cs)) 0 front out (gap ++ cs) =
      code more (placeOf mark cs) 0 (gap.reverse ++ front) (gap.reverse ++ out) cs := by
  induction gap generalizing front out with
  | nil => rfl
  | cons b gap ih =>
    have hb := hgap b List.mem_cons_self
    have hop : isOperatorChar b = false := by
      refine Bool.eq_false_iff.mpr fun h => ?_
      rw [not_isIndent_of_isOperatorChar h] at hb
      cases hb
    have hcomma : b ≠ ',' := by
      rintro rfl
      exact absurd hb (by decide)
    have hnot : placeOf mark (b :: (gap ++ cs)) ≠ some 0 := by
      intro h
      rcases hmarks [] b (gap ++ cs) rfl (placeOf_eq_zero.mp h)
        with rfl | rfl <;> exact absurd hb (by decide)
    have hplace : place more (placeOf mark (b :: (gap ++ cs))) front b (gap ++ cs) out =
        (b :: out, 0) := by
      simp [place, hnot, hcomma, hop]
    have hshift : shift (placeOf mark (b :: (gap ++ cs))) 1 = placeOf mark (gap ++ cs) :=
      shift_placeOf_append mark [b] (gap ++ cs)
    rw [List.cons_append, code_cons, hplace]
    simp only [Nat.zero_add, List.take_zero, List.drop_zero, List.reverse_nil, List.nil_append]
    rw [hshift, ih (b :: front) (b :: out) (fun d hd => hgap d (List.mem_cons_of_mem b hd))
      (hmarks.behind [b])]
    simp

/-- What `code` puts out from a place on, where a gap may be due. If it is, the blanks are passed
already. -/
def Yields (more : Bool) (mark : Option Nat) (due : Bool) (front base old new : List Char) : Prop :=
  if due then
    code more (placeOf mark (old.dropWhile isIndent)) 0 ((old.takeWhile isIndent).reverse ++ front)
      (after more (old.dropWhile isIndent) base) (old.dropWhile isIndent) = new.reverse ++ base
  else code more (placeOf mark old) 0 front base old = new.reverse ++ base

/-- Only the gap before the next piece hangs on whether one is due. -/
theorem yields_of_code {c : Char} (hgap : ∀ b ∈ gap, isIndent b = true)
    (hblank : isIndent c = false) (hmarks : Marks mark (gap ++ c :: old))
    (h : code more (placeOf mark (c :: old)) 0 (gap.reverse ++ front)
      ((restGap due gap c).reverse ++ base) (c :: old) = new.reverse ++ base) :
      Yields more mark due front base (gap ++ c :: old) new := by
  cases due with
  | false => exact (code_blanks more front base (c :: old) hgap hmarks).trans h
  | true =>
    have hdrop : (gap ++ c :: old).dropWhile isIndent = c :: old := by
      rw [List.dropWhile_append_of_pos hgap, List.dropWhile_cons_of_neg (by simp [hblank])]
    have htake : (gap ++ c :: old).takeWhile isIndent = gap := by
      rw [List.takeWhile_append_of_pos hgap, List.takeWhile_cons_of_neg (by simp [hblank]),
        List.append_nil]
    have hafter : after more (c :: old) base = (restGap true gap c).reverse ++ base := by
      cases hc : isCloser c <;> simp [after, restGap, hc]
    simp only [Yields, if_true]
    rw [hdrop, htake, hafter]
    exact h

theorem yields_done (hgap : ∀ b ∈ gap, isIndent b = true) (hmarks : Marks mark gap) :
    Yields more mark due front base gap (endGap more due gap) := by
  cases due with
  | false =>
    have hblanks := code_blanks more front base [] hgap (by rwa [List.append_nil])
    rw [List.append_nil] at hblanks
    exact hblanks
  | true =>
    simp only [Yields, if_true]
    rw [List.dropWhile_eq_nil_iff.mpr hgap]
    cases more <;> rfl

theorem not_bracket_of_isOperatorChar {c : Char} (hc : isOperatorChar c = true) :
    isCloser c = false ∧ isOpener c = false ∧ isAsciiDigit c = false := by
  have hnot := of_isOperatorChar (p := fun d => !isCloser d && !isOpener d && !isAsciiDigit d)
    (by decide) hc
  simpa [and_assoc] using hnot

/-- A run of operator characters ends with one. -/
theorem exists_getLast?_run {y : Char} {ys : List Char}
    (hrun : ∀ c ∈ y :: ys, isOperatorChar c = true) :
    ∃ z, (y :: ys).getLast? = some z ∧ isOperatorChar z = true := by
  obtain ⟨z, hz⟩ := exists_getLast? (List.cons_ne_nil y ys)
  exact ⟨z, hz, hrun z (List.mem_of_getLast? hz)⟩

theorem not_opener_of_run {y : Char} {ys : List Char}
    (hrun : ∀ c ∈ y :: ys, isOperatorChar c = true) : (y :: ys).getLast?.all isOpener = false := by
  obtain ⟨z, hz, hzop⟩ := exists_getLast?_run hrun
  rw [hz]
  exact (not_bracket_of_isOperatorChar hzop).2.1

/-- An operator that another follows in its run is no sign. -/
theorem isSignAt_eq_false {op : Operator} {prev : Option Char} {c : Char}
    (hc : isOperatorChar c = true) : op.isSignAt prev (some c) = false := by
  simp [Operator.isSignAt, (not_bracket_of_isOperatorChar hc).2.2]

/-- The operators of a run, put out behind the gap `gap'`. -/
theorem operators_eq {ops : List Operator} (hops : ∀ op ∈ ops, op ∈ Operator.table) (hne : ops ≠ [])
    (more : Bool) (rest : List Char) {gap' base : List Char} (hgap' : ∀ b ∈ gap', isIndent b = true)
    (hbase : ∀ c ∈ base.head?, isIndent c = false) :
    operators more (ops.flatMap Operator.text ++ rest) (gap'.reverse ++ base) ops =
      if endsInSign ((gap'.reverse ++ base).head?.all admitsSign) rest.head? ops then
        (((if ops.tail.isEmpty then gap' else offGap base.head?) ++ spread ops).reverse ++ base,
          (ops.flatMap Operator.text).length)
      else
        (after more (rest.dropWhile isIndent) ((offGap base.head? ++ spread ops).reverse ++ base),
          (ops.flatMap Operator.text).length + (rest.takeWhile isIndent).length) := by
  induction ops generalizing gap' base with
  | nil => exact absurd rfl hne
  | cons op ops ih =>
    have hop := hops op List.mem_cons_self
    obtain ⟨htext, hchars⟩ := Operator.isOperatorChar_of_mem_table hop
    have hbefore : before (gap'.reverse ++ base) = (offGap base.head?).reverse ++ base := by
      rw [before_gap hgap' hbase, offGap]
      split <;> rfl
    have hdrop : ∀ later : List Char, (op.text ++ later).drop op.text.length = later :=
      fun later => List.drop_left
    cases ops with
    | nil =>
      have hsign : op.isSignAt (gap'.reverse ++ base).head? rest.head? =
          endsInSign ((gap'.reverse ++ base).head?.all admitsSign) rest.head? [op] := rfl
      simp only [operators, List.flatMap_cons, List.flatMap_nil, List.append_nil, hdrop, hsign,
        List.isEmpty_nil, if_true, List.tail_cons, spread, binary, hbefore]
      split <;> simp
    | cons op' ops =>
      -- the next operator follows directly, so this one is no sign and has a gap behind it
      have hlater : ∀ o ∈ op' :: ops, o ∈ Operator.table :=
        fun o ho => hops o (List.mem_cons_of_mem op ho)
      obtain ⟨htext', hchars'⟩ :=
        Operator.isOperatorChar_of_mem_table (hlater op' List.mem_cons_self)
      obtain ⟨z, zs, hz⟩ := List.exists_cons_of_ne_nil htext'
      have hnext : ((op' :: ops).flatMap Operator.text ++ rest).head? = some z := by
        rw [List.flatMap_cons, hz]
        rfl
      have hnot : op.isSignAt (gap'.reverse ++ base).head?
          ((op' :: ops).flatMap Operator.text ++ rest).head? = false := by
        rw [hnext]
        exact isSignAt_eq_false (hchars' z (by rw [hz]; exact List.mem_cons_self))
      have hhead : ((offGap base.head? ++ op.text).reverse ++ base).head? = op.text.getLast? := by
        obtain ⟨y, ys, hy⟩ := List.exists_cons_of_ne_nil htext
        rw [hy]
        exact head?_reverse_append (offGap base.head?) y ys base
      have hlast : ∀ c ∈ op.text.getLast?, isIndent c = false ∧ isOpener c = false := by
        intro c hc
        have hopc := hchars c (List.mem_of_getLast? hc)
        exact ⟨not_isIndent_of_isOperatorChar hopc, (not_bracket_of_isOperatorChar hopc).2.1⟩
      have hspace : ∀ b ∈ [' '], isIndent b = true := by simp [isIndent]
      have hbase' : ∀ c ∈ ((offGap base.head? ++ op.text).reverse ++ base).head?,
          isIndent c = false :=
        fun c hc => (hlast c (hhead ▸ hc)).1
      have hrest := ih hlater (List.cons_ne_nil _ _) hspace hbase'
      have hoff : offGap ((offGap base.head? ++ op.text).reverse ++ base).head? = [' '] := by
        rw [hhead]
        obtain ⟨c, hc⟩ := exists_getLast? htext
        simp [offGap, hc, (hlast c hc).2]
      rw [hoff, ite_self] at hrest
      have hfree : ([' '].reverse ++ ((offGap base.head? ++ op.text).reverse ++ base)).head?.all
          admitsSign = true := by
        rfl
      rw [hfree] at hrest
      have hout : ' ' :: (op.text.reverse ++ before (gap'.reverse ++ base)) =
          [' '].reverse ++ ((offGap base.head? ++ op.text).reverse ++ base) := by
        rw [hbefore]
        simp
      rw [operators, List.flatMap_cons, List.append_assoc]
      simp only [hdrop, hnot, Bool.false_eq_true, if_false, List.isEmpty_cons, hout, hrest]
      have hspread : (offGap base.head? ++ spread (op :: op' :: ops)).reverse ++ base =
          ([' '] ++ spread (op' :: ops)).reverse ++
          ((offGap base.head? ++ op.text).reverse ++ base) := by
        simp [spread]
      have hsign : ∀ free, endsInSign free rest.head? (op :: op' :: ops) =
          endsInSign true rest.head? (op' :: ops) :=
        fun _ => rfl
      rw [hsign, List.tail_cons, List.isEmpty_cons, List.length_append]
      simp only [Bool.false_eq_true, if_false]
      rw [hspread]
      split <;> simp [Nat.add_assoc]

/-- One place is set, and what it uses up is passed over. -/
theorem code_place {c : Char} {cs out out' : List Char} {n : Nat}
    (h : place more (placeOf mark (c :: cs)) front c cs out = (out', n)) (hn : n ≤ cs.length) :
    code more (placeOf mark (c :: cs)) 0 front out (c :: cs) =
      code more (placeOf mark (cs.drop n)) 0 ((cs.take n).reverse ++ c :: front) out'
        (cs.drop n) := by
  have hshift : shift (placeOf mark (c :: cs)) (n + 1) = placeOf mark (cs.drop n) :=
    shift_placeOf mark (Nat.succ_le_succ hn)
  rw [code_cons, h, hshift]

/-- Behind a piece after which a gap is due, the blanks are passed. -/
theorem code_due {c : Char} {cs out base' : List Char}
    (hplace : place more (placeOf mark (c :: cs)) front c cs out =
      (after more (cs.dropWhile isIndent) base', (cs.takeWhile isIndent).length))
    (h : Yields more mark true (c :: front) base' cs new) :
    code more (placeOf mark (c :: cs)) 0 front out (c :: cs) = new.reverse ++ base' := by
  have htake : cs.take (cs.takeWhile isIndent).length = cs.takeWhile isIndent :=
    (List.prefix_iff_eq_take.mp (List.takeWhile_prefix isIndent)).symm
  rw [code_place hplace (List.takeWhile_prefix isIndent).length_le, drop_takeWhile_length, htake]
  exact h

/-- A run goes on up to the mark, or to what follows it. -/
theorem runAfter_placeOf {y : Char} {ys : List Char} (hrun : ∀ c ∈ y :: ys, isOperatorChar c = true)
    (hmark : ∀ k ∈ mark, k < old.length ∨ (y :: ys ++ old).length ≤ k)
    (hstop : ∀ c ∈ old.head?, isOperatorChar c = true → mark = some old.tail.length) :
    runAfter (placeOf mark (y :: ys ++ old)) (ys ++ old) = ys := by
  have hall : ∀ c ∈ ys, isOperatorChar c = true := fun c hc => hrun c (List.mem_cons_of_mem y hc)
  have htake : (ys ++ old).takeWhile isOperatorChar = ys ++ old.takeWhile isOperatorChar :=
    List.takeWhile_append_of_pos hall
  -- unless the mark ends the run, no operator character follows it
  have hfree : (∀ k ∈ mark, k ≠ old.tail.length) → old.takeWhile isOperatorChar = [] := by
    intro hk
    cases old with
    | nil => rfl
    | cons c old =>
      apply List.takeWhile_cons_of_neg
      intro hc
      exact hk _ (hstop c rfl hc) rfl
  cases mark with
  | none =>
    rw [placeOf_none, runAfter, Option.elim_none, htake, hfree (fun _ h => by cases h),
      List.append_nil]
  | some k =>
    rcases hmark k rfl with hk | hk
    · have hplace : placeOf (some k) (y :: ys ++ old) = some (ys.length + old.length - k) := by
        simp only [placeOf, Option.bind_some, List.length_append, List.length_cons]
        rw [if_pos (by omega)]
        congr 1
        omega
      rw [hplace, runAfter, Option.elim_some, htake]
      by_cases hlast : k = old.tail.length
      · have hcount : ys.length + old.length - k - 1 = ys.length := by
          rw [List.length_tail] at hlast
          omega
        rw [hcount, List.take_left]
      · rw [hfree (fun k' hk' => by cases hk'; exact hlast), List.append_nil]
        apply List.take_of_length_le
        rw [List.length_tail] at hlast
        omega
    · have hplace : placeOf (some k) (y :: ys ++ old) = none := by
        simp only [placeOf, Option.bind_some]
        rw [if_neg (by omega)]
      rw [hplace, runAfter, Option.elim_none, htake, hfree ?_, List.append_nil]
      intro k' hk'
      cases hk'
      simp only [List.length_append, List.length_cons] at hk
      rw [List.length_tail]
      omega

theorem placeOf_ne_zero {y : Char} {ys : List Char}
    (hmark : ∀ k ∈ mark, k < old.length ∨ (y :: ys ++ old).length ≤ k) :
    placeOf mark (y :: (ys ++ old)) ≠ some 0 := by
  intro h
  have hk := hmark _ (placeOf_eq_zero.mp h)
  simp only [List.length_append, List.length_cons] at hk
  omega

/-- A run that the mark or another character ends is put out as a whole. -/
theorem place_run (more : Bool) (front : List Char) {y : Char} {ys : List Char} (out : List Char)
    (hrun : ∀ c ∈ y :: ys, isOperatorChar c = true)
    (hmark : ∀ k ∈ mark, k < old.length ∨ (y :: ys ++ old).length ≤ k)
    (hstop : ∀ c ∈ old.head?, isOperatorChar c = true → mark = some old.tail.length) :
    place more (placeOf mark (y :: (ys ++ old))) front y (ys ++ old) out =
      match splitRun? front old 0 (y :: ys) with
      | none => ((y :: ys).reverse ++ out, ys.length)
      | some ops =>
        ((operators more (y :: (ys ++ old)) out ops).1,
          (operators more (y :: (ys ++ old)) out ops).2 - 1) := by
  have hafter : runAfter (placeOf mark (y :: (ys ++ old))) (ys ++ old) = ys :=
    runAfter_placeOf hrun hmark hstop
  have hop := hrun y List.mem_cons_self
  obtain ⟨rest, hrest, hplace⟩ := place_operator more front (ys ++ old) out (placeOf_ne_zero hmark)
    (ne_comma_of_isOperatorChar hop) hop
  rw [hafter] at hplace hrest
  obtain rfl : old = rest := List.append_cancel_left hrest
  exact hplace

theorem isIndent_of_mem_restGap {c : Char} (hgap : ∀ b ∈ gap, isIndent b = true) :
    ∀ b ∈ restGap due gap c, isIndent b = true := by
  intro b h
  unfold restGap at h
  split at h
  · split at h
    · cases h
    · rw [List.mem_singleton.mp h]
      rfl
  · exact hgap b h

theorem before_restGap {c : Char} (hgap : ∀ b ∈ gap, isIndent b = true)
    (hbase : ∀ c ∈ base.head?, isIndent c = false) :
    before ((restGap due gap c).reverse ++ base) = (offGap base.head?).reverse ++ base := by
  rw [before_gap (isIndent_of_mem_restGap hgap) hbase, offGap]
  split <;> rfl

/-- Whether a sign may stand behind what has been put out. -/
theorem free_restGap {y : Char} (hgap : ∀ b ∈ gap, isIndent b = true)
    (hy : isOperatorChar y = true) :
    ((restGap due gap y).reverse ++ base).head?.all admitsSign =
      (due || !gap.isEmpty || base.head?.all admitsSign) := by
  cases due with
  | true =>
    rw [restGap, if_pos rfl, (not_bracket_of_isOperatorChar hy).1]
    rfl
  | false =>
    rcases List.eq_nil_or_concat gap with rfl | ⟨gap, b, rfl⟩
    · rfl
    · -- the last blank of the gap is what stands there
      have hb := hgap b (by simp)
      simp only [isIndent, Bool.or_eq_true, beq_iff_eq] at hb
      rcases hb with rfl | rfl
      · simp [restGap, admitsSign, show isSpace ' ' = true from rfl]
      · simp [restGap, admitsSign, show isSpace '\t' = true from rfl]

theorem spread_cons (op op' : Operator) (ops : List Operator) :
    spread (op :: op' :: ops) = op.text ++ ' ' :: spread (op' :: ops) := rfl

theorem spread_ne_nil {ops : List Operator} (hops : ∀ op ∈ ops, op ∈ Operator.table)
    (hne : ops ≠ []) : spread ops ≠ [] := by
  obtain ⟨op, ops, rfl⟩ := List.exists_cons_of_ne_nil hne
  have htext := (Operator.isOperatorChar_of_mem_table (hops op List.mem_cons_self)).1
  cases ops with
  | nil => exact htext
  | cons op' ops => exact List.append_ne_nil_of_left_ne_nil htext _

theorem head?_spread {op : Operator} (hop : op ∈ Operator.table) (ops : List Operator) :
    (spread (op :: ops)).head? = op.text.head? := by
  obtain ⟨z, zs, hz⟩ := List.exists_cons_of_ne_nil (Operator.isOperatorChar_of_mem_table hop).1
  cases ops with
  | nil => rfl
  | cons op' ops => rw [spread_cons, hz]; rfl

/-- The operators of a run begin with the first of its characters. -/
theorem exists_cons_spread {front tail : List Char} {y : Char} {ys : List Char}
    {ops : List Operator} (hsplit : splitRun? front tail 0 (y :: ys) = some ops) :
    ∃ zs, spread ops = y :: zs := by
  obtain ⟨-, hflat, htable⟩ := splitRun?_flatMap_text hsplit
  obtain ⟨op, ops, rfl⟩ :=
    List.exists_cons_of_ne_nil (splitRun?_ne_nil (List.cons_ne_nil y ys) hsplit)
  have hop := htable op List.mem_cons_self
  obtain ⟨z, zs, hz⟩ := List.exists_cons_of_ne_nil (Operator.isOperatorChar_of_mem_table hop).1
  rw [List.drop_zero, List.flatMap_cons, hz] at hflat
  apply List.head?_eq_some_iff.mp
  rw [head?_spread hop, hz, ← (List.cons.inj hflat).1]
  rfl

/-- They end with the last of its characters. -/
theorem getLast?_spread {ops : List Operator} (hops : ∀ op ∈ ops, op ∈ Operator.table) :
    (spread ops).getLast? = (ops.flatMap Operator.text).getLast? := by
  induction ops with
  | nil => rfl
  | cons op ops ih =>
    cases ops with
    | nil => simp [spread]
    | cons op' ops =>
      have hlater : ∀ o ∈ op' :: ops, o ∈ Operator.table :=
        fun o ho => hops o (List.mem_cons_of_mem op ho)
      obtain ⟨z, hz⟩ := exists_getLast? (spread_ne_nil hlater (List.cons_ne_nil op' ops))
      rw [spread_cons, List.flatMap_cons, List.getLast?_append, List.getLast?_append, ← ih hlater,
        List.getLast?_cons, hz]
      rfl

/-- A run of operator characters is put out as it is if it does not split. -/
theorem yields_raw {y : Char} {ys : List Char} (hgap : ∀ b ∈ gap, isIndent b = true)
    (hrun : ∀ c ∈ y :: ys, isOperatorChar c = true)
    (hmark : ∀ k ∈ mark, k < old.length ∨ (y :: ys ++ old).length ≤ k)
    (hstop : ∀ c ∈ old.head?, isOperatorChar c = true → mark = some old.tail.length)
    (hsplit : splitRun? (gap.reverse ++ front) old 0 (y :: ys) = none)
    (hmarks : Marks mark (gap ++ (y :: ys ++ old)))
    (h : Yields more mark false ((y :: ys).reverse ++ (gap.reverse ++ front))
      ((restGap due gap y ++ y :: ys).reverse ++ base) old new) :
    Yields more mark due front base (gap ++ (y :: ys ++ old))
      (restGap due gap y ++ (y :: ys ++ new)) := by
  have hblank := not_isIndent_of_isOperatorChar (hrun y List.mem_cons_self)
  have hplace := place_run more (gap.reverse ++ front) ((restGap due gap y).reverse ++ base)
    hrun hmark hstop
  rw [hsplit] at hplace
  rw [List.cons_append] at hmarks ⊢
  apply yields_of_code hgap hblank hmarks
  rw [code_place hplace (by rw [List.length_append]; omega), List.drop_left, List.take_left]
  simpa [Yields] using h

/-- The operators that a run splits into are put out one by one. -/
theorem yields_split {sign : Bool} {x : Option Char} {y : Char} {ys : List Char}
    {ops : List Operator} (hx : base.head? = x) (hbase : ∀ c ∈ base.head?, isIndent c = false)
    (hgap : ∀ b ∈ gap, isIndent b = true) (hrun : ∀ c ∈ y :: ys, isOperatorChar c = true)
    (hmark : ∀ k ∈ mark, k < old.length ∨ (y :: ys ++ old).length ≤ k)
    (hstop : ∀ c ∈ old.head?, isOperatorChar c = true → mark = some old.tail.length)
    (hsplit : splitRun? (gap.reverse ++ front) old 0 (y :: ys) = some ops)
    (hsign : endsInSign (due || !gap.isEmpty || x.all admitsSign) old.head? ops = sign)
    (hmarks : Marks mark (gap ++ (y :: ys ++ old)))
    (h : Yields more mark (!sign) ((y :: ys).reverse ++ (gap.reverse ++ front))
      ((leadGap due sign gap x y ops ++ spread ops).reverse ++ base) old new) :
    Yields more mark due front base (gap ++ (y :: ys ++ old))
      (leadGap due sign gap x y ops ++ (spread ops ++ new)) := by
  have hop := hrun y List.mem_cons_self
  obtain ⟨-, hflat, htable⟩ := splitRun?_flatMap_text hsplit
  rw [List.drop_zero] at hflat
  have hcs : y :: (ys ++ old) = ops.flatMap Operator.text ++ old := by rw [hflat, List.cons_append]
  have hops := operators_eq htable (splitRun?_ne_nil (List.cons_ne_nil y ys) hsplit) more old
    (show ∀ b ∈ restGap due gap y, isIndent b = true from isIndent_of_mem_restGap hgap) hbase
  rw [← hcs, free_restGap hgap hop, hx, hsign, hflat, List.length_cons] at hops
  have hplace := place_run more (gap.reverse ++ front) ((restGap due gap y).reverse ++ base)
    hrun hmark hstop
  simp only [hsplit, hops] at hplace
  rw [List.cons_append] at hmarks ⊢
  apply yields_of_code hgap (not_isIndent_of_isOperatorChar hop) hmarks
  cases sign with
  | true =>
    simp only [if_true, Nat.add_sub_cancel] at hplace
    rw [code_place hplace (by rw [List.length_append]; omega), List.drop_left, List.take_left]
    simpa [Yields, leadGap] using h
  | false =>
    simp only [Bool.false_eq_true, if_false] at hplace
    have hcount : ys.length + 1 + (old.takeWhile isIndent).length - 1 = ys.length +
        (old.takeWhile isIndent).length := by
      omega
    have hle := (List.takeWhile_prefix isIndent (l := old)).length_le
    have htake : (ys ++ old).take (ys.length + (old.takeWhile isIndent).length) = ys ++
        old.takeWhile isIndent := by
      rw [List.take_length_add_append,
        ← List.prefix_iff_eq_take.mp (List.takeWhile_prefix isIndent)]
    rw [hcount] at hplace
    rw [code_place hplace (by rw [List.length_append]; omega), ← List.drop_drop, List.drop_left,
      drop_takeWhile_length, htake]
    simpa [Yields, leadGap] using h

/-- Code that is set as something is what the function on code puts out. -/
theorem Sets.yields {x : Option Char} (h : Sets more mark due front x old new)
    (hmarks : Marks mark old) {base : List Char} (hx : base.head? = x)
    (hbase : ∀ c ∈ base.head?, isIndent c = false) : Yields more mark due front base old new := by
  induction h generalizing base with
  | done hgap => exact yields_done hgap hmarks
  | @plain due front gap old new x c hgap hblank hop hcomma hmark h ih =>
    apply yields_of_code hgap hblank hmarks
    have hplace : place more (placeOf mark (c :: old)) (gap.reverse ++ front) c old
        ((restGap due gap c).reverse ++ base) =
        (c :: ((restGap due gap c).reverse ++ base), 0) := by
      simp [place, placeOf_eq_zero, hmark, hcomma, hop]
    rw [code_place hplace (Nat.zero_le _)]
    refine (ih ((hmarks.behind gap).behind [c])
      (show (c :: ((restGap due gap c).reverse ++ base)).head? = some c from rfl) ?_).trans ?_
    · rintro d ⟨⟩
      exact hblank
    · simp
  | @comma due front gap old new x hgap hmark h ih =>
    apply yields_of_code hgap (by decide) hmarks
    have hplace : place more (placeOf mark (',' :: old)) (gap.reverse ++ front) ',' old
        ((restGap due gap ',').reverse ++ base) =
          (after more (old.dropWhile isIndent) (',' :: base), (old.takeWhile isIndent).length) := by
      simp [place, placeOf_eq_zero, hmark, dropWhile_gap (isIndent_of_mem_restGap hgap) hbase]
    rw [code_due hplace (ih ((hmarks.behind gap).behind [',']) rfl ?_)]
    · simp
    · rintro d ⟨⟩
      decide
  | @mark due front gap old new x c hgap hc hmark h ih =>
    have hblank : isIndent c = false := by rcases hc with rfl | rfl <;> decide
    apply yields_of_code hgap hblank hmarks
    have hplace : place more (placeOf mark (c :: old)) (gap.reverse ++ front) c old
        ((restGap due gap c).reverse ++ base) =
        (after more (old.dropWhile isIndent) (c :: ((offGap x).reverse ++ base)),
          (old.takeWhile isIndent).length) := by
      rw [place, if_pos (placeOf_eq_zero.mpr hmark), binary, before_restGap hgap hbase, hx]
      rfl
    rw [code_due hplace (ih ((hmarks.behind gap).behind [c]) rfl ?_)]
    · simp
    · rintro d ⟨⟩
      exact hblank
  | @raw due front gap ys old new x y hgap hrun hmark hstop hsplit h ih =>
    have hhead := head?_reverse_append (restGap due gap y) y ys base
    apply yields_raw hgap hrun hmark hstop hsplit hmarks
    exact ih ((hmarks.behind gap).behind (y :: ys)) hhead (not_isIndent_behind_run hrun _ base)
  | @split due sign front gap ys old new x y ops hgap hrun hmark hstop hsplit hsign h ih =>
    have hhead : ((leadGap due sign gap x y ops ++ spread ops).reverse ++ base).head? =
        (y :: ys).getLast? := by
      obtain ⟨-, hflat, htable⟩ := splitRun?_flatMap_text hsplit
      rw [List.drop_zero] at hflat
      have hlast := getLast?_spread htable
      rw [hflat] at hlast
      obtain ⟨z, zs, hz⟩ := List.exists_cons_of_ne_nil
        (spread_ne_nil htable (splitRun?_ne_nil (List.cons_ne_nil y ys) hsplit))
      rw [← hlast, hz]
      exact head?_reverse_append _ z zs base
    apply yields_split hx hbase hgap hrun hmark hstop hsplit hsign hmarks
    apply ih ((hmarks.behind gap).behind (y :: ys)) hhead
    intro d hd
    rw [hhead] at hd
    exact not_isIndent_of_isOperatorChar (hrun d (List.mem_of_getLast? hd))

end Code

/-- The operator characters that follow one, up to the mark. -/
theorem exists_run (mark : Option Nat) {y : Char} {cs : List Char} (hy : isOperatorChar y = true)
    (hmark : mark ≠ some cs.length) :
    ∃ ys old, cs = ys ++ old ∧ (∀ c ∈ y :: ys, isOperatorChar c = true) ∧
      (∀ k ∈ mark, k < old.length ∨ (y :: ys ++ old).length ≤ k) ∧
      ∀ c ∈ old.head?, isOperatorChar c = true → mark = some old.tail.length := by
  induction cs generalizing y with
  | nil =>
    refine ⟨[], [], rfl, by simpa using hy, fun k hk => .inr ?_, fun _ h => by cases h⟩
    have hne : k ≠ 0 := fun h0 => hmark (by rw [hk, h0]; rfl)
    simp only [List.cons_append, List.nil_append, List.length_cons, List.length_nil]
    omega
  | cons c cs ih =>
    have hstart : ∀ k ∈ mark, k < (c :: cs).length ∨ ([y] ++ c :: cs).length ≤ k := by
      intro k hk
      have hne : k ≠ (c :: cs).length := fun h => hmark (by rw [hk, h])
      simp only [List.cons_append, List.nil_append, List.length_cons] at hne ⊢
      omega
    by_cases hstop : isOperatorChar c = true ∧ mark ≠ some cs.length
    · obtain ⟨ys, old, rfl, hrun, hmark', hend⟩ := ih hstop.1 hstop.2
      refine ⟨c :: ys, old, rfl, ?_, fun k hk => ?_, hend⟩
      · intro d hd
        rcases List.mem_cons.mp hd with rfl | hd
        · exact hy
        · exact hrun d hd
      · have hk' := hmark' k hk
        have hk'' := hstart k hk
        simp only [List.cons_append, List.nil_append, List.length_cons, List.length_append]
          at hk' hk'' ⊢
        omega
    · refine ⟨[], c :: cs, rfl, by simpa using hy, hstart, ?_⟩
      rintro d ⟨⟩ hd
      exact Decidable.byContradiction fun h => hstop ⟨hd, h⟩

/-- All code is set as something. -/
theorem exists_sets (more : Bool) {mark : Option Nat} {old : List Char}
    (hmarks : Marks mark old) (due : Bool) (front : List Char) (x : Option Char) :
    ∃ new, Sets more mark due front x old new := by
  -- every piece uses up at least one character
  induction hlen : old.length using Nat.strongRecOn generalizing old due front x with
  | ind len ih =>
    have hold : old.takeWhile isIndent ++ old.dropWhile isIndent = old :=
      List.takeWhile_append_dropWhile
    have hgap : ∀ b ∈ old.takeWhile isIndent, isIndent b = true :=
      List.all_eq_true.mp List.all_takeWhile
    have hhead := head?_dropWhile_eq_false isIndent old
    generalize old.takeWhile isIndent = gap at hold hgap
    generalize old.dropWhile isIndent = rest at hold hhead
    subst hold
    cases rest with
    | nil =>
      rw [List.append_nil]
      exact ⟨_, .done hgap⟩
    | cons c cs =>
      have hblank : isIndent c = false := hhead c rfl
      have hlater : ∀ (cs' : List Char) (due' : Bool) (front' : List Char) (x' : Option Char),
          cs' <:+ cs → ∃ new, Sets more mark due' front' x' cs' new := by
        rintro cs' due' front' x' ⟨pre, rfl⟩
        have hshort : cs'.length < len := by
          rw [← hlen]
          simp only [List.length_append, List.length_cons]
          omega
        exact ih _ hshort (((hmarks.behind gap).behind [c]).behind pre) due' front' x' rfl
      by_cases hmark : mark = some cs.length
      · obtain ⟨new, hnew⟩ :=
          hlater cs true (c :: (gap.reverse ++ front)) (some c) (List.suffix_refl cs)
        exact ⟨_, .mark hgap (hmarks gap c cs rfl hmark) hmark hnew⟩
      by_cases hcomma : c = ','
      · subst hcomma
        obtain ⟨new, hnew⟩ :=
          hlater cs true (',' :: (gap.reverse ++ front)) (some ',') (List.suffix_refl cs)
        exact ⟨_, .comma hgap hmark hnew⟩
      cases hop : isOperatorChar c with
      | false =>
        obtain ⟨new, hnew⟩ :=
          hlater cs false (c :: (gap.reverse ++ front)) (some c) (List.suffix_refl cs)
        exact ⟨_, .plain hgap hblank hop hcomma hmark hnew⟩
      | true =>
        obtain ⟨ys, old, rfl, hrun, hbeyond, hstop⟩ := exists_run mark hop hmark
        cases hsplit : splitRun? (gap.reverse ++ front) old 0 (c :: ys) with
        | none =>
          obtain ⟨new, hnew⟩ :=
            hlater old false ((c :: ys).reverse ++ (gap.reverse ++ front)) (c :: ys).getLast?
            (List.suffix_append ys old)
          exact ⟨_, .raw hgap hrun hbeyond hstop hsplit hnew⟩
        | some ops =>
          obtain ⟨new, hnew⟩ := hlater old
            (!endsInSign (due || !gap.isEmpty || x.all admitsSign) old.head? ops)
            ((c :: ys).reverse ++ (gap.reverse ++ front)) (c :: ys).getLast?
              (List.suffix_append ys old)
          exact ⟨_, .split hgap hrun hbeyond hstop hsplit rfl hnew⟩

end Gaps

end ScratchFormat
