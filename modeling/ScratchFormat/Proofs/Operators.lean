import ScratchFormat.Proofs.Role
import ScratchFormat.Proofs.Text
import ScratchFormat.Layout.Gaps

/-! The operators of the table, and runs of operator characters that split into them. -/

namespace ScratchFormat

namespace Operator

/-- Every operator is a text of operator characters. -/
theorem isOperatorChar_of_mem_table {op : Operator} (h : op ∈ table) :
    op.text ≠ [] ∧ ∀ c ∈ op.text, isOperatorChar c = true := by
  have hall : (table.all fun op => !op.text.isEmpty && op.text.all isOperatorChar) =
      true := by decide
  have hop := List.all_eq_true.mp hall op h
  rw [Bool.and_eq_true, Bool.not_eq_true'] at hop
  exact ⟨List.isEmpty_eq_false_iff.mp hop.1, List.all_eq_true.mp hop.2⟩

/-- An operator that is found somewhere is in the table, and the text there starts with it. -/
theorem mem_table_of_at? {before rest : List Char} {op : Operator} (h : at? before rest = some op) :
    op ∈ table ∧ ∃ later, rest = op.text ++ later := by
  unfold at? at h
  split at h
  · cases h
  · split at h
    · cases h
    · rename_i found hfind
      have hop : found = op := by
        split at h
        · cases h
        · split at h
          · cases h
          · exact Option.some.inj h
      subst hop
      have hadm := List.find?_some hfind
      simp only [admits, Bool.and_eq_true, List.isPrefixOf_iff_prefix] at hadm
      obtain ⟨later, hl⟩ := hadm.1.1
      exact ⟨List.mem_of_find?_eq_some hfind, later, hl.symm⟩

theorem inExponent_eq_false {c : Char} (hc : c ≠ 'e' ∧ c ≠ 'E') (front rest : List Char) :
    inExponent (c :: front) rest = false := by
  cases front with
  | nil => rfl
  | cons d front =>
    match rest with
    | [] => rfl
    | [_] => rfl
    | _ :: next :: _ => simp [inExponent, hc.1, hc.2]

/-- Behind an operator character, nothing further back matters. -/
theorem at?_behind_operator {c : Char} (hc : isOperatorChar c = true)
    (front front' rest : List Char) : at? (c :: front) rest = at? (c :: front') rest := by
  have he : c ≠ 'e' ∧ c ≠ 'E' := by
    refine ⟨?_, ?_⟩ <;> rintro rfl <;> exact absurd hc (by decide)
  simp only [at?, List.head?_cons, inExponent_eq_false he]

/-- A blank in front of an operator is like nothing in front of it. -/
theorem at?_behind_blank {front : List Char} (h : ∀ c ∈ front.head?, isIndent c = true)
    (rest : List Char) : at? front rest = at? [] rest := by
  cases front with
  | nil => rfl
  | cons c front =>
    have hc : c = ' ' ∨ c = '\t' := by
      have := h c rfl
      simpa [isIndent] using this
    -- no operator of the table minds a blank in front of it
    have htable : ∀ op ∈ table, op.notAfter.contains ' ' = false ∧
        op.notAfter.contains '\t' = false := by decide
    have hfind : ∀ ops ⊆ table,
        ops.find? (·.admits (some c) rest) = ops.find? (·.admits none rest) := by
      intro ops hops
      induction ops with
      | nil => rfl
      | cons op ops ih =>
        have hnot : op.notAfter.contains c = false := by
          rcases hc with rfl | rfl
          · exact (htable op (hops List.mem_cons_self)).1
          · exact (htable op (hops List.mem_cons_self)).2
        have hadmits : op.admits (some c) rest = op.admits none rest := by
          simp only [admits, Option.any_some, Option.any_none, hnot]
        rw [List.find?_cons, List.find?_cons, hadmits, ih (List.subset_of_cons_subset hops)]
    have he : c ≠ 'e' ∧ c ≠ 'E' := by rcases hc with rfl | rfl <;> decide
    have hdot : (some c = some '.') = False := by rcases hc with rfl | rfl <;> simp
    have hparen : (some c = some '(') = False := by rcases hc with rfl | rfl <;> simp
    have hnone : inExponent [] rest = false := rfl
    simp only [at?, List.head?_cons, List.head?_nil, hfind table (List.Subset.refl _),
      inExponent_eq_false he, hdot, hparen, hnone, reduceCtorEq]

end Operator

namespace Gaps

/-- The operators that a run splits into make up the run, less what is owed at its start. -/
theorem splitRun?_flatMap_text {front tail run : List Char} {owed : Nat} {ops : List Operator}
    (h : splitRun? front tail owed run = some ops) :
    owed ≤ run.length ∧ ops.flatMap Operator.text = run.drop owed ∧
      ∀ op ∈ ops, op ∈ Operator.table := by
  induction run generalizing front owed ops with
  | nil =>
    simp only [splitRun?] at h
    split at h
    · rename_i h0
      cases h
      subst h0
      simp
    · cases h
  | cons c cs ih =>
    cases owed with
    | succ n =>
      obtain ⟨hle, hflat, hmem⟩ := ih (by simpa [splitRun?] using h)
      refine ⟨by simpa using hle, by simpa using hflat, hmem⟩
    | zero =>
      simp only [splitRun?] at h
      split at h
      · cases h
      · rename_i op hop
        obtain ⟨later, hl, rfl⟩ := Option.map_eq_some_iff.mp h
        obtain ⟨hle, hflat, hmem⟩ := ih hl
        obtain ⟨htable, rest, hrest⟩ := Operator.mem_table_of_at? hop
        have hne := (Operator.isOperatorChar_of_mem_table htable).1
        have hpos : 0 < op.text.length := List.length_pos_iff.mpr hne
        -- the operator ends inside the run, because what it owes does
        have htake : op.text = (c :: cs).take op.text.length := by
          have hlen : op.text.length ≤ (c :: cs).length := by
            simp only [List.length_cons]
            omega
          have hpre := congrArg (List.take op.text.length) hrest
          rw [List.take_left, List.take_append_of_le_length hlen] at hpre
          exact hpre.symm
        have hdrop : cs.drop (op.text.length - 1) = (c :: cs).drop op.text.length := by
          obtain ⟨n, hn⟩ := Nat.exists_eq_add_of_lt hpos
          rw [hn]
          simp
        refine ⟨Nat.zero_le _, ?_, ?_⟩
        · rw [List.flatMap_cons, hflat, hdrop, List.drop_zero]
          calc op.text ++ (c :: cs).drop op.text.length
              = (c :: cs).take op.text.length ++ (c :: cs).drop op.text.length := by rw [← htake]
            _ = c :: cs := List.take_append_drop _ _
        · intro o ho
          rcases List.mem_cons.mp ho with rfl | ho
          · exact htable
          · exact hmem o ho

/-- What is owed is passed first. -/
theorem splitRun?_owed (front tail : List Char) (owed : Nat) (run : List Char) :
    splitRun? front tail owed run =
      if owed ≤ run.length then
        splitRun? ((run.take owed).reverse ++ front) tail 0 (run.drop owed)
      else none := by
  induction run generalizing front owed with
  | nil =>
    cases owed with
    | zero => rfl
    | succ n => rfl
  | cons c run ih =>
    cases owed with
    | zero => rfl
    | succ n =>
      rw [splitRun?, ih]
      simp

/-- A run splits the same way behind a blank as behind nothing. -/
theorem splitRun?_behind_blank {front : List Char} (h : ∀ c ∈ front.head?, isIndent c = true)
    (tail : List Char) {run : List Char} (hrun : ∀ c ∈ run, isOperatorChar c = true) :
    splitRun? front tail 0 run = splitRun? [] tail 0 run := by
  -- from the second character on, the character in front is an operator character
  have hlater : ∀ (cs : List Char) (c : Char) (f f' : List Char) (owed : Nat),
      isOperatorChar c = true → (∀ d ∈ cs, isOperatorChar d = true) →
        splitRun? (c :: f) tail owed cs = splitRun? (c :: f') tail owed cs := by
    intro cs
    induction cs with
    | nil => intros; rfl
    | cons d ds ih =>
      intro c f f' owed hc hcs
      have hd := hcs d List.mem_cons_self
      have hds : ∀ e ∈ ds, isOperatorChar e = true := fun e he => hcs e (List.mem_cons_of_mem d he)
      cases owed with
      | succ n => exact ih d _ _ n hd hds
      | zero =>
        simp only [splitRun?]
        rw [Operator.at?_behind_operator hc f f']
        split
        · rfl
        · rw [ih d (c :: f) (c :: f') _ hd hds]
  cases run with
  | nil => rfl
  | cons c cs =>
    have hc := hrun c List.mem_cons_self
    simp only [splitRun?]
    rw [Operator.at?_behind_blank h]
    split
    · rfl
    · rw [hlater cs c front [] _ hc fun d hd => hrun d (List.mem_cons_of_mem c hd)]

/-- The operators of a run that is not empty. -/
theorem splitRun?_ne_nil {front tail run : List Char} {ops : List Operator} (hrun : run ≠ [])
    (h : splitRun? front tail 0 run = some ops) : ops ≠ [] := by
  rintro rfl
  have hflat := (splitRun?_flatMap_text h).2.1
  simp only [List.flatMap_nil, List.drop_zero] at hflat
  exact hrun hflat.symm

/-- The operators of a run use up at least their own characters. -/
theorem length_le_operators (more : Bool) (ops : List Operator) (rest out : List Char) :
    (ops.flatMap Operator.text).length ≤ (operators more rest out ops).2 := by
  induction ops generalizing rest out with
  | nil => simp
  | cons op ops ih =>
    rw [List.flatMap_cons, List.length_append, operators]
    split
    · exact Nat.add_le_add_left (ih _ _) _
    · split
      · rename_i h
        rw [List.isEmpty_iff.mp h]
        simp
      · exact Nat.add_le_add_left (ih _ _) _

/-- The operator characters that follow one in its run. A colon or an equals sign that is set on its
own ends the run; `special` counts the characters before it, the first of the run included. -/
def runAfter (special : Option Nat) (cs : List Char) : List Char :=
  special.elim (cs.takeWhile isOperatorChar) fun n => (cs.takeWhile isOperatorChar).take (n - 1)

theorem runAfter_front (special : Option Nat) (cs : List Char) : runAfter special cs <+: cs := by
  cases special with
  | none => exact List.takeWhile_prefix _
  | some n => exact (List.take_prefix _ _).trans (List.takeWhile_prefix _)

theorem isOperatorChar_of_mem_runAfter {special : Option Nat} {cs : List Char} {d : Char}
    (h : d ∈ runAfter special cs) : isOperatorChar d = true := by
  have hmem : d ∈ cs.takeWhile isOperatorChar := by
    cases special with
    | none => exact h
    | some n => exact List.mem_of_mem_take h
  exact List.all_eq_true.mp List.all_takeWhile d hmem

/-- What an operator character puts out: its run as it is, or the operators that the run splits
into. -/
theorem place_operator (more : Bool) {special : Option Nat} (front : List Char) {c : Char}
    (cs out : List Char) (hs : special ≠ some 0) (hc : c ≠ ',') (hop : isOperatorChar c = true) :
    ∃ rest, cs = runAfter special cs ++ rest ∧
      place more special front c cs out =
        match splitRun? front rest 0 (c :: runAfter special cs) with
        | none => ((c :: runAfter special cs).reverse ++ out, (runAfter special cs).length)
        | some ops =>
          ((operators more (c :: cs) out ops).1, (operators more (c :: cs) out ops).2 - 1) := by
  obtain ⟨rest, hrest⟩ := runAfter_front special cs
  refine ⟨rest, hrest.symm, ?_⟩
  have hrun : special.elim ((c :: cs).takeWhile isOperatorChar)
      ((c :: cs).takeWhile isOperatorChar).take = c :: runAfter special cs := by
    rw [List.takeWhile_cons_of_pos hop]
    cases special with
    | none => rfl
    | some n =>
      obtain ⟨m, rfl⟩ : ∃ m, n = m + 1 := Nat.exists_eq_succ_of_ne_zero fun h => hs (by rw [h])
      rfl
  have hdrop : (c :: cs).drop (c :: runAfter special cs).length = rest := by
    have h : (c :: runAfter special cs ++ rest).drop (c :: runAfter special cs).length = rest :=
      List.drop_left
    rwa [List.cons_append, hrest] at h
  unfold place
  rw [if_neg hs, if_neg hc, if_pos hop]
  simp only [hrun, hdrop]
  cases splitRun? front rest 0 (c :: runAfter special cs) <;> rfl

end Gaps

end ScratchFormat
