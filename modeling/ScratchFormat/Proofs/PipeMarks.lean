import ScratchFormat.Proofs.Lexing
import ScratchFormat.Proofs.Pipes

/-! Pipes told from the marks of a line. A pipe is a whole run of operator characters, so to tell
one it is enough to know whether an operator character comes before it and which run begins there.
Marks can be taken apart at any place, and the pipes of the parts make up those of the whole. -/

namespace ScratchFormat

namespace Pipe

/-- A pipe is a run of operator characters, from end to end. -/
theorem at?_eq_some_iff {prev : Option Char} {rest : List Char} {p : Pipe} :
    at? prev rest = some p ↔ prev.any isOperatorChar = false ∧
      rest.takeWhile isOperatorChar = p.text := by
  constructor
  · intro h
    obtain ⟨⟨later, rfl⟩, hprev⟩ := eq_append_of_at? h
    refine ⟨hprev, ?_⟩
    rw [at?, Option.filter_eq_some_iff] at h
    have hnext := h.2
    rw [List.drop_left, Bool.and_eq_true, Bool.not_eq_true', Bool.not_eq_true'] at hnext
    rw [List.takeWhile_append_of_pos fun c hc => isOperatorChar_of_mem_text hc]
    cases later with
    | nil => simp
    | cons c later => rw [List.takeWhile_cons_of_neg (by simpa using hnext.2), List.append_nil]
  · rintro ⟨hprev, hrun⟩
    have hrest : rest = p.text ++ rest.dropWhile isOperatorChar := by
      rw [← hrun, List.takeWhile_append_dropWhile]
    have hnext : (rest.dropWhile isOperatorChar).head?.any isOperatorChar = false := by
      cases hhead : (rest.dropWhile isOperatorChar).head? with
      | none => rfl
      | some c => exact head?_dropWhile_eq_false isOperatorChar rest c hhead
    generalize rest.dropWhile isOperatorChar = later at hrest hnext
    subst hrest
    rw [at?, Option.filter_eq_some_iff, List.drop_left, hprev, hnext]
    refine ⟨?_, rfl⟩
    -- only the shorter of two pipes could be taken for the longer one, and then the run would go on
    have hlonger : later.head? ≠ some '>' := by
      intro heq
      rw [heq] at hnext
      exact absurd hnext (by decide)
    cases p with
    | alternative => simp [atStart?, all, text, List.isPrefixOf]
    | forward => simp [atStart?, all, text, List.isPrefixOf]
    | backward =>
      cases later with
      | nil => simp [atStart?, all, text, List.isPrefixOf]
      | cons c later =>
        have hc : ('>' == c) = false := beq_eq_false_iff_ne.mpr fun h => hlonger (by rw [h]; rfl)
        simp [atStart?, all, text, List.isPrefixOf, hc]

theorem at?_congr {prev prev' : Option Char} {rest rest' : List Char}
    (hprev : prev.any isOperatorChar = prev'.any isOperatorChar)
    (hrun : rest.takeWhile isOperatorChar = rest'.takeWhile isOperatorChar) :
    at? prev rest = at? prev' rest' := by
  apply Option.ext
  intro p
  rw [at?_eq_some_iff, at?_eq_some_iff, hprev, hrun]

theorem at?_eq_none_of_head {c : Char} (hc : isOperatorChar c = false) (prev : Option Char)
    (rest : List Char) : at? prev (c :: rest) = none := by
  cases h : at? prev (c :: rest) with
  | none => rfl
  | some p =>
    have hrun := (at?_eq_some_iff.mp h).2
    rw [List.takeWhile_cons_of_neg (by simp [hc])] at hrun
    exact absurd hrun.symm p.text_ne_nil

end Pipe

def codeAhead (ahead : List Char) : List Mark → List Char
  | [] => ahead
  | m :: ms => if m.kind = .code ∧ m.fresh = false then m.char :: codeAhead ahead ms else []

def depthBehind (depth : Nat) : List Mark → Nat
  | [] => depth
  | m :: ms => depthBehind (if m.kind = .code then depthAfter depth m.char else depth) ms

def codeBefore (prev : Option Char) : List Mark → Option Char
  | [] => prev
  | m :: ms => codeBefore (if m.kind = .code then some m.char else none) ms

def pipeAt? (ahead : List Char) (depth : Nat) (prev : Option Char) (m : Mark) (ms : List Mark) :
    Option Pipe :=
  if depth = 0 then
    Pipe.at? (if m.fresh then none else prev) (m.char :: codeAhead ahead ms) else none

def pipesInMarks (ahead : List Char) (offset depth : Nat) (prev : Option Char) :
    List Mark → List (Nat × Pipe)
  | [] => []
  | m :: ms =>
    if m.kind = .code then
      let later := pipesInMarks ahead (offset + m.char.utf8Size) (depthAfter depth m.char)
        (some m.char) ms
      match pipeAt? ahead depth prev m ms with
      | some p => (offset, p) :: later
      | none => later
    else pipesInMarks ahead (offset + m.char.utf8Size) depth none ms

theorem codeAhead_append (ahead : List Char) (ms ns : List Mark) :
    codeAhead ahead (ms ++ ns) = codeAhead (codeAhead ahead ns) ms := by
  induction ms with
  | nil => rfl
  | cons m ms ih => rw [List.cons_append, codeAhead, codeAhead, ih]

theorem pipesInMarks_code {m : Mark} (hm : m.kind = .code) (ahead : List Char) (offset depth : Nat)
    (prev : Option Char) (ms : List Mark) :
    pipesInMarks ahead offset depth prev (m :: ms) =
      (pipeAt? ahead depth prev m ms).toList.map (offset, ·) ++
        pipesInMarks ahead (offset + m.char.utf8Size) (depthAfter depth m.char)
          (some m.char) ms := by
  rw [pipesInMarks, if_pos hm]
  cases pipeAt? ahead depth prev m ms <;> rfl

theorem pipesInMarks_token {m : Mark} (hm : m.kind ≠ .code) (ahead : List Char) (offset depth : Nat)
    (prev : Option Char) (ms : List Mark) :
    pipesInMarks ahead offset depth prev (m :: ms) =
      pipesInMarks ahead (offset + m.char.utf8Size) depth none ms := by
  rw [pipesInMarks, if_neg hm]

/-- The pipes of marks are those of the two parts. -/
theorem pipesInMarks_append (ahead : List Char) (offset depth : Nat) (prev : Option Char)
    (ms ns : List Mark) :
    pipesInMarks ahead offset depth prev (ms ++ ns) =
      pipesInMarks (codeAhead ahead ns) offset depth prev ms ++
        pipesInMarks ahead (offset + byteLength (ms.map Mark.char)) (depthBehind depth ms)
          (codeBefore prev ms) ns := by
  induction ms generalizing offset depth prev with
  | nil => rfl
  | cons m ms ih =>
    rw [List.cons_append, List.map_cons, byteLength_cons, ← Nat.add_assoc, depthBehind, codeBefore]
    by_cases hm : m.kind = .code
    · have hpipe : pipeAt? ahead depth prev m (ms ++ ns) =
          pipeAt? (codeAhead ahead ns) depth prev m ms := by
        rw [pipeAt?, pipeAt?, codeAhead_append]
      rw [pipesInMarks_code hm, pipesInMarks_code hm, ih, hpipe, if_pos hm, if_pos hm,
        List.append_assoc]
    · rw [pipesInMarks_token hm, pipesInMarks_token hm, ih, if_neg hm, if_neg hm]

/-- The offsets of pipes lie within the marks. -/
theorem offset_of_mem_pipesInMarks {ahead : List Char} {offset depth : Nat} {prev : Option Char}
    {ms : List Mark} {q : Nat × Pipe} (h : q ∈ pipesInMarks ahead offset depth prev ms) :
    offset ≤ q.1 ∧ q.1 < offset + byteLength (ms.map Mark.char) := by
  induction ms generalizing offset depth prev with
  | nil => cases h
  | cons m ms ih =>
    have hpos := m.char.utf8Size_pos
    rw [List.map_cons, byteLength_cons]
    by_cases hm : m.kind = .code
    · rw [pipesInMarks_code hm, List.mem_append] at h
      rcases h with h | h
      · obtain ⟨p, -, rfl⟩ := List.mem_map.mp h
        simp only
        omega
      · have := ih h
        omega
    · rw [pipesInMarks_token hm] at h
      have := ih h
      omega

/-- Pipes move on with the text. -/
theorem pipesInMarks_add (ahead : List Char) (offset more depth : Nat) (prev : Option Char)
    (ms : List Mark) :
    pipesInMarks ahead (more + offset) depth prev ms =
      (pipesInMarks ahead offset depth prev ms).map fun q => (more + q.1, q.2) := by
  induction ms generalizing offset depth prev with
  | nil => rfl
  | cons m ms ih =>
    by_cases hm : m.kind = .code
    · rw [pipesInMarks_code hm, pipesInMarks_code hm, List.map_append, List.map_map,
        Nat.add_assoc, ih]
      rfl
    · rw [pipesInMarks_token hm, pipesInMarks_token hm, Nat.add_assoc, ih]

/-- Of what comes before the marks only an operator character matters. -/
theorem pipesInMarks_congr_prev {prev prev' : Option Char}
    (h : prev.any isOperatorChar = prev'.any isOperatorChar) (ahead : List Char)
    (offset depth : Nat) (ms : List Mark) :
    pipesInMarks ahead offset depth prev ms = pipesInMarks ahead offset depth prev' ms := by
  cases ms with
  | nil => rfl
  | cons m ms =>
    by_cases hm : m.kind = .code
    · have hpipe : pipeAt? ahead depth prev m ms = pipeAt? ahead depth prev' m ms := by
        rw [pipeAt?, pipeAt?]
        split
        · apply Pipe.at?_congr ?_ rfl
          split
          · rfl
          · exact h
        · rfl
      rw [pipesInMarks_code hm, pipesInMarks_code hm, hpipe]
    · rw [pipesInMarks_token hm, pipesInMarks_token hm]

/-- Nothing that comes before the marks matters if they do not begin with an operator character. -/
theorem pipesInMarks_of_plain_head {later : List Char} {ms : List Mark}
    (h : (codeAhead later ms).takeWhile isOperatorChar = []) (ahead : List Char)
    (offset depth : Nat) (prev prev' : Option Char) :
    pipesInMarks ahead offset depth prev ms = pipesInMarks ahead offset depth prev' ms := by
  cases ms with
  | nil => rfl
  | cons m ms =>
    by_cases hm : m.kind = .code
    · have hpipe : pipeAt? ahead depth prev m ms = pipeAt? ahead depth prev' m ms := by
        cases hfresh : m.fresh with
        | true => simp only [pipeAt?, hfresh, if_true]
        | false =>
          rw [codeAhead, if_pos ⟨hm, hfresh⟩] at h
          have hchar : isOperatorChar m.char = false := by
            cases hop : isOperatorChar m.char with
            | false => rfl
            | true =>
              rw [List.takeWhile_cons_of_pos hop] at h
              cases h
          rw [pipeAt?, pipeAt?, Pipe.at?_eq_none_of_head hchar, Pipe.at?_eq_none_of_head hchar]
      rw [pipesInMarks_code hm, pipesInMarks_code hm, hpipe]
    · rw [pipesInMarks_token hm, pipesInMarks_token hm]

/-- What follows the marks matters only as far as a run of operator characters goes on there. -/
theorem pipesInMarks_congr_ahead {ahead ahead' : List Char}
    (h : ahead.takeWhile isOperatorChar = ahead'.takeWhile isOperatorChar) (offset depth : Nat)
    (prev : Option Char) (ms : List Mark) :
    pipesInMarks ahead offset depth prev ms = pipesInMarks ahead' offset depth prev ms := by
  have hcode : ∀ ms, (codeAhead ahead ms).takeWhile isOperatorChar =
      (codeAhead ahead' ms).takeWhile isOperatorChar := by
    intro ms
    induction ms with
    | nil => exact h
    | cons m ms ih =>
      rw [codeAhead, codeAhead]
      split
      · rw [List.takeWhile_cons, List.takeWhile_cons, ih]
      · rfl
  induction ms generalizing offset depth prev with
  | nil => rfl
  | cons m ms ih =>
    by_cases hm : m.kind = .code
    · have hpipe : pipeAt? ahead depth prev m ms = pipeAt? ahead' depth prev m ms := by
        rw [pipeAt?, pipeAt?, Pipe.at?_congr rfl]
        rw [List.takeWhile_cons, List.takeWhile_cons, hcode]
      rw [pipesInMarks_code hm, pipesInMarks_code hm, hpipe, ih]
    · rw [pipesInMarks_token hm, pipesInMarks_token hm, ih]

/-- Nothing that follows the marks matters if no operator character of code is the last of them. -/
theorem pipesInMarks_of_plain_last {prev : Option Char} {ms : List Mark}
    (h : (codeBefore prev ms).any isOperatorChar = false) (ahead ahead' : List Char)
    (offset depth : Nat) :
    pipesInMarks ahead offset depth prev ms = pipesInMarks ahead' offset depth prev ms := by
  -- a run of operator characters that begins with `x` ends among the marks
  have hrun : ∀ (ms : List Mark) (x : Char), (codeBefore (some x) ms).any isOperatorChar = false →
      (x :: codeAhead ahead ms).takeWhile isOperatorChar =
      (x :: codeAhead ahead' ms).takeWhile isOperatorChar := by
    intro ms
    induction ms with
    | nil =>
      intro x hx
      have hx : isOperatorChar x = false := hx
      rw [List.takeWhile_cons_of_neg (by simp [hx]), List.takeWhile_cons_of_neg (by simp [hx])]
    | cons m ms ih =>
      intro x hx
      rw [codeAhead, codeAhead]
      split
      · rename_i hm
        rw [codeBefore, if_pos hm.1] at hx
        rw [List.takeWhile_cons, ih m.char hx, ← List.takeWhile_cons]
      · rfl
  induction ms generalizing offset depth prev with
  | nil => rfl
  | cons m ms ih =>
    rw [codeBefore] at h
    by_cases hm : m.kind = .code
    · rw [if_pos hm] at h
      have hpipe : pipeAt? ahead depth prev m ms = pipeAt? ahead' depth prev m ms := by
        rw [pipeAt?, pipeAt?, Pipe.at?_congr rfl (hrun ms m.char h)]
      rw [pipesInMarks_code hm, pipesInMarks_code hm, hpipe, ih h]
    · rw [if_neg hm] at h
      rw [pipesInMarks_token hm, pipesInMarks_token hm, ih h]

/-- Pipes are made of code. -/
theorem pipesInMarks_eq_nil {ms : List Mark} (h : ∀ m ∈ ms, m.kind ≠ .code) (ahead : List Char)
    (offset depth : Nat) (prev : Option Char) : pipesInMarks ahead offset depth prev ms = [] := by
  induction ms generalizing offset depth prev with
  | nil => rfl
  | cons m ms ih =>
    rw [pipesInMarks_token (h m List.mem_cons_self)]
    exact ih (fun n hn => h n (List.mem_cons_of_mem m hn)) _ _ _

theorem ScannedLine.pipesInCode_cons (offset depth : Nat) (prev : Option Char) (c : Char)
    (cs : List Char) :
    pipesInCode offset depth prev (c :: cs) =
      (if depth = 0 then Pipe.at? prev (c :: cs) else none).toList.map (offset, ·) ++
        pipesInCode (offset + c.utf8Size) (depthAfter depth c) (some c) cs := by
  rw [pipesInCode]
  cases if depth = 0 then Pipe.at? prev (c :: cs) else none <;> rfl

/-- A first segment of code is its first character and the code ahead of it. -/
theorem text_of_ofMarks {m : Mark} {ms : List Mark} {t : Segment} {ts : List Segment}
    (h : Segment.ofMarks (m :: ms) = t :: ts) (hgroup : Grouped (m :: ms)) (hm : m.kind = .code) :
    t.text = m.char :: codeAhead [] ms := by
  induction ms generalizing m t ts with
  | nil =>
    cases h
    rfl
  | cons n ms ih =>
    obtain ⟨u, us, hn, hm'⟩ := ofMarks_cons_cons m n ms
    rw [hm'] at h
    cases hgroup with
    | cons hkind hrest =>
      cases hfresh : n.fresh with
      | true =>
        rw [if_pos hfresh] at h
        cases h
        simp [codeAhead, hfresh]
      | false =>
        have hcode : n.kind = .code := (hkind hfresh).trans hm
        rw [if_neg (by simp [hfresh])] at h
        cases h
        simp [codeAhead, hfresh, hcode, ih hn hrest hcode]

/-- The pipes of segments, told from the marks that make them up. A stretch of code may have begun
before the marks, with `prev` as its last character. -/
theorem pipesInMarks_ofMarks {m : Mark} {ms : List Mark} {t : Segment} {ts : List Segment}
    (hgroup : Grouped (m :: ms)) (ht : Segment.ofMarks (m :: ms) = t :: ts) (offset depth : Nat)
    (prev : Option Char) :
    pipesInMarks [] offset depth prev (m :: ms) =
      if m.kind = .code then
        ScannedLine.pipesInCode offset depth (if m.fresh then none else prev) t.text ++
          ScannedLine.pipesInSegments (offset + byteLength t.text)
            (t.text.foldl depthAfter depth) ts
      else ScannedLine.pipesInSegments offset depth (t :: ts) := by
  induction ms generalizing m t ts offset depth prev with
  | nil =>
    cases ht
    by_cases hm : m.kind = .code
    · rw [pipesInMarks_code hm, if_pos hm, pipesInMarks, List.append_nil,
        ScannedLine.pipesInSegments, List.append_nil, ScannedLine.pipesInCode_cons,
        ScannedLine.pipesInCode, List.append_nil, pipeAt?, codeAhead]
    · rw [pipesInMarks_token hm, if_neg hm, ScannedLine.pipesInSegments, if_neg hm]
      rfl
  | cons n ms ih =>
    obtain ⟨u, us, hn, hm'⟩ := ofMarks_cons_cons m n ms
    cases hgroup with
    | cons hkind hrest =>
      rw [hm'] at ht
      have hlater := ih hrest hn
      have hu : u.kind = n.kind := kind_of_ofMarks hn
      have hsegment : ∀ offset depth prev, (n.fresh = true ∨ n.kind ≠ .code) →
          pipesInMarks [] offset depth prev (n :: ms) =
          ScannedLine.pipesInSegments offset depth (u :: us) := by
        intro offset depth prev hfirst
        rw [hlater]
        by_cases hcode : n.kind = .code
        · rw [if_pos hcode, if_pos (hfirst.resolve_right (not_not_intro hcode)),
            ScannedLine.pipesInSegments, if_pos (hu.trans hcode)]
        · rw [if_neg hcode]
      by_cases hm : m.kind = .code
      · rw [pipesInMarks_code hm, if_pos hm]
        cases hfresh : n.fresh with
        | true =>
          rw [if_pos hfresh] at ht
          cases ht
          have hahead : codeAhead [] (n :: ms) = [] := by simp [codeAhead, hfresh]
          rw [hsegment _ _ _ (.inl hfresh), ScannedLine.pipesInCode_cons, ScannedLine.pipesInCode,
            List.append_nil, pipeAt?, hahead]
          rfl
        | false =>
          have hcode : n.kind = .code := (hkind hfresh).trans hm
          rw [if_neg (by simp [hfresh])] at ht
          cases ht
          have htext := text_of_ofMarks hn hrest hcode
          have hahead : codeAhead [] (n :: ms) = u.text := by
            rw [codeAhead, if_pos ⟨hcode, hfresh⟩, htext]
          rw [hlater, if_pos hcode, hfresh, ScannedLine.pipesInCode_cons, pipeAt?, hahead,
            List.foldl_cons, byteLength_cons, Nat.add_assoc, List.append_assoc]
          rfl
      · rw [pipesInMarks_token hm, if_neg hm]
        cases hfresh : n.fresh with
        | true =>
          rw [if_pos hfresh] at ht
          cases ht
          conv => rhs; rw [ScannedLine.pipesInSegments, if_neg hm]
          exact hsegment _ _ _ (.inl hfresh)
        | false =>
          have hcode : n.kind ≠ .code := hkind hfresh ▸ hm
          rw [if_neg (by simp [hfresh])] at ht
          cases ht
          rw [hsegment _ _ _ (.inr hcode), ScannedLine.pipesInSegments,
            ScannedLine.pipesInSegments, if_neg hm, if_neg (hu ▸ hcode), byteLength_cons,
            Nat.add_assoc]

/-- The pipes of segments, told from the marks that make them up. -/
theorem pipesInSegments_ofMarks {ms : List Mark} (h : Grouped ms) (offset depth : Nat) :
    ScannedLine.pipesInSegments offset depth (Segment.ofMarks ms) =
      pipesInMarks [] offset depth none ms := by
  cases ms with
  | nil => rfl
  | cons m ms =>
    obtain ⟨t, ts, ht⟩ := List.exists_cons_of_ne_nil (ofMarks_ne_nil m ms)
    rw [pipesInMarks_ofMarks h ht, ht]
    by_cases hm : m.kind = .code
    · rw [if_pos hm, ScannedLine.pipesInSegments, if_pos ((kind_of_ofMarks ht).trans hm), ite_self]
    · rw [if_neg hm]

/-- The pipes of a line, told from its marks. -/
theorem pipes_scanLine (mode : Mode) (raw : List Char) :
    (scanLine mode raw).pipes = pipesInMarks [] 0 0 none ((Cursor.start mode).marks raw) :=
  pipesInSegments_ofMarks (grouped_marks (Cursor.sound_start mode raw)) 0 0

end ScratchFormat
