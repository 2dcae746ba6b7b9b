import ScratchFormat.Proofs.Scan
import ScratchFormat.Proofs.Slices
import ScratchFormat.Scan.Line

/-! Where the pipes of a line stand: in the order of their offsets, one after the other, each at a
place where its text does. -/

namespace ScratchFormat

/-- Pipes stand along a text whose first byte has the offset `start`: each after the one before, at
its own offset. -/
inductive PipesAlong : Nat → List Char → List (Nat × Pipe) → Prop
  | done (start : Nat) (cs : List Char) : PipesAlong start cs []
  | next {start : Nat} {p : Pipe} {ps : List (Nat × Pipe)} (gap rest : List Char)
      (later : PipesAlong (start + byteLength gap + p.text.length) rest ps) :
      PipesAlong start (gap ++ (p.text ++ rest)) ((start + byteLength gap, p) :: ps)

namespace Pipe

theorem isOperatorChar_of_mem_text {p : Pipe} {c : Char} (h : c ∈ p.text) :
    isOperatorChar c = true := by
  have hall : p.text.all isOperatorChar = true := by cases p <;> rfl
  exact List.all_eq_true.mp hall c h

theorem text_ne_nil (p : Pipe) : p.text ≠ [] := by
  cases p <;> simp [text]

@[simp] theorem byteLength_text (p : Pipe) : byteLength p.text = p.text.length := by
  cases p <;> decide

/-- A pipe is found where its text stands, after no operator character. -/
theorem eq_append_of_at? {prev : Option Char} {rest : List Char} {p : Pipe}
    (h : at? prev rest = some p) :
    (∃ later, rest = p.text ++ later) ∧ prev.any isOperatorChar = false := by
  rw [at?, Option.filter_eq_some_iff] at h
  obtain ⟨hstart, hnext⟩ := h
  have hpre := List.find?_some hstart
  rw [List.isPrefixOf_iff_prefix] at hpre
  obtain ⟨later, hl⟩ := hpre
  simp only [Bool.and_eq_true, Bool.not_eq_true'] at hnext
  exact ⟨⟨later, hl.symm⟩, hnext.1⟩

end Pipe

namespace PipesAlong

theorem prepend {start : Nat} {cs : List Char} {ps : List (Nat × Pipe)} (front : List Char)
    (h : PipesAlong (start + byteLength front) cs ps) : PipesAlong start (front ++ cs) ps := by
  cases h with
  | done => exact .done start _
  | next gap rest later =>
    have hnext := PipesAlong.next (front ++ gap) rest
      (by rw [byteLength_append, ← Nat.add_assoc]; exact later)
    rw [byteLength_append, ← Nat.add_assoc, List.append_assoc] at hnext
    exact hnext

/-- Pipes along two texts stand along both together. -/
theorem append {start : Nat} {cs ds : List Char} {ps qs : List (Nat × Pipe)}
    (h : PipesAlong start cs ps) (h' : PipesAlong (start + byteLength cs) ds qs) :
    PipesAlong start (cs ++ ds) (ps ++ qs) := by
  induction h with
  | done start cs => exact h'.prepend cs
  | @next start p ps gap rest later ih =>
    rw [byteLength_append, byteLength_append, Pipe.byteLength_text, ← Nat.add_assoc,
      ← Nat.add_assoc] at h'
    rw [List.append_assoc, List.append_assoc, List.cons_append]
    exact .next gap (rest ++ ds) (ih h')

/-- No pipe stands before the text. -/
theorem start_le {start : Nat} {cs : List Char} {ps : List (Nat × Pipe)}
    (h : PipesAlong start cs ps) : ∀ p ∈ ps, start ≤ p.1 := by
  induction h with
  | done => intro p hp; cases hp
  | next gap rest later ih =>
    intro p hp
    rcases List.mem_cons.mp hp with rfl | hp
    · exact Nat.le_add_right _ _
    · have := ih p hp
      omega

/-- No pipe goes beyond the text. -/
theorem stop_le {start : Nat} {cs : List Char} {ps : List (Nat × Pipe)}
    (h : PipesAlong start cs ps) : ∀ p ∈ ps, p.1 + p.2.text.length ≤ start + byteLength cs := by
  induction h with
  | done => intro p hp; cases hp
  | next gap rest later ih =>
    intro p hp
    rw [byteLength_append, byteLength_append, Pipe.byteLength_text]
    rcases List.mem_cons.mp hp with rfl | hp
    · simp only
      omega
    · have := ih p hp
      omega

/-- A beginning of the text that ends before the first pipe may be left out. -/
theorem drop {start : Nat} {front cs : List Char} {ps : List (Nat × Pipe)}
    (h : PipesAlong start (front ++ cs) ps)
    (hle : ∀ p ∈ ps.head?, start + byteLength front ≤ p.1) :
    PipesAlong (start + byteLength front) cs ps := by
  generalize hall : front ++ cs = all at h
  cases h with
  | done => exact .done _ _
  | @next _ p ps gap rest later =>
    have hbytes : byteLength front ≤ byteLength gap := by
      have := hle _ rfl
      simp only at this
      omega
    have hpre : front <+: gap :=
      prefix_of_byteLength_le (List.prefix_append front cs)
        (hall ▸ List.prefix_append gap _) hbytes
    obtain ⟨gap, rfl⟩ := hpre
    rw [List.append_assoc] at hall
    rw [List.append_cancel_left hall, byteLength_append, ← Nat.add_assoc]
    refine .next gap rest ?_
    rw [Nat.add_assoc start, ← byteLength_append]
    exact later

end PipesAlong

namespace ScannedLine

theorem depthAfter_of_isOperatorChar {c : Char} (h : isOperatorChar c = true) (depth : Nat) :
    depthAfter depth c = depth := by
  have hne : ∀ d, isOperatorChar d = false → c ≠ d := by
    rintro d hd rfl
    rw [h] at hd
    cases hd
  simp [depthAfter, hne '(' rfl, hne '[' rfl, hne '\x7b' rfl, hne ')' rfl, hne ']' rfl,
    hne '\x7d' rfl]

/-- No pipe begins inside a run of operator characters. -/
theorem pipesInCode_of_operators {x : Char} {run : List Char} (offset depth : Nat)
    (rest : List Char) (hx : isOperatorChar x = true) (hrun : ∀ c ∈ run, isOperatorChar c = true) :
    pipesInCode offset depth (some x) (run ++ rest) =
      pipesInCode (offset + byteLength run) depth (run.getLast?.or (some x)) rest := by
  induction run generalizing offset x with
  | nil => rfl
  | cons c run ih =>
    have hc := hrun c List.mem_cons_self
    have hnone : (if depth = 0 then Pipe.at? (some x) (c :: (run ++ rest)) else none) = none := by
      split
      · cases hat : Pipe.at? (some x) (c :: (run ++ rest)) with
        | none => rfl
        | some p =>
          have hprev := (Pipe.eq_append_of_at? hat).2
          simp [hx] at hprev
      · rfl
    have hlater := ih (offset + c.utf8Size) hc fun d hd => hrun d (List.mem_cons_of_mem c hd)
    rw [List.cons_append, pipesInCode, hnone, depthAfter_of_isOperatorChar hc, getLast?_cons_or,
      byteLength_cons, ← Nat.add_assoc]
    exact hlater

/-- Where a pipe is found, the next one comes after its text. -/
theorem pipesInCode_at {prev : Option Char} {p : Pipe} {rest : List Char}
    (h : Pipe.at? prev (p.text ++ rest) = some p) (offset : Nat) :
    pipesInCode offset 0 prev (p.text ++ rest) =
      (offset, p) :: pipesInCode (offset + p.text.length) 0 p.text.getLast? rest := by
  obtain ⟨x, run, hrun⟩ := List.exists_cons_of_ne_nil p.text_ne_nil
  have hop : ∀ d ∈ x :: run, isOperatorChar d = true := fun d hd =>
    Pipe.isOperatorChar_of_mem_text (hrun ▸ hd)
  have hx := hop x List.mem_cons_self
  have hbytes : p.text.length = x.utf8Size + byteLength run := by
    rw [← Pipe.byteLength_text, hrun, byteLength_cons]
  -- the scan goes on inside the pipe, where it finds nothing
  have hskip := pipesInCode_of_operators (offset + x.utf8Size) 0 rest hx
    fun d hd => hop d (List.mem_cons_of_mem x hd)
  have hlast : p.text.getLast? = run.getLast?.or (some x) := by
    rw [hrun, ← getLast?_cons_or x run none, Option.or_none]
  rw [hlast, hbytes, ← Nat.add_assoc, ← hskip]
  rw [hrun, List.cons_append] at h ⊢
  rw [pipesInCode, if_pos rfl, h, depthAfter_of_isOperatorChar hx]

/-- The pipes that are found in code stand along it. -/
theorem pipesAlong_pipesInCode (offset depth : Nat) (prev : Option Char) (cs : List Char) :
    PipesAlong offset cs (pipesInCode offset depth prev cs) := by
  induction hn : cs.length using Nat.strongRecOn generalizing offset depth prev cs with
  | _ n ih =>
    cases cs with
    | nil => exact .done _ _
    | cons c cs =>
      cases hp : if depth = 0 then Pipe.at? prev (c :: cs) else none with
      | some p =>
        obtain ⟨rfl, hat⟩ : depth = 0 ∧ Pipe.at? prev (c :: cs) = some p := by
          split at hp
          · rename_i hzero
            exact ⟨hzero, hp⟩
          · cases hp
        obtain ⟨⟨rest, hrest⟩, -⟩ := Pipe.eq_append_of_at? hat
        have hpos := List.length_pos_iff.mpr p.text_ne_nil
        have hlen : rest.length < n := by
          rw [← hn, hrest, List.length_append]
          omega
        rw [hrest] at hat ⊢
        rw [pipesInCode_at hat]
        exact .next [] rest (ih rest.length hlen _ _ _ rest rfl)
      | none =>
        have hlater := ih cs.length (by simp [← hn]) (offset + c.utf8Size) (depthAfter depth c)
          (some c) cs rfl
        rw [pipesInCode, hp]
        exact PipesAlong.prepend [c] (by simpa using hlater)

theorem pipesAlong_pipesInSegments (offset depth : Nat) (ss : List Segment) :
    PipesAlong offset (ss.flatMap Segment.text) (pipesInSegments offset depth ss) := by
  induction ss generalizing offset depth with
  | nil => exact .done _ _
  | cons s ss ih =>
    rw [pipesInSegments, List.flatMap_cons]
    split
    · exact (pipesAlong_pipesInCode offset depth none s.text).append (ih _ _)
    · exact (ih _ _).prepend s.text

theorem pipesInSegments_concat {s : Segment} (h : s.kind ≠ .code) (offset depth : Nat)
    (ss : List Segment) :
    pipesInSegments offset depth (ss ++ [s]) = pipesInSegments offset depth ss := by
  induction ss generalizing offset depth with
  | nil => simp [pipesInSegments, h]
  | cons t ss ih => simp only [List.cons_append, pipesInSegments, ih]

/-- The comment at the end of a line, and the text before it along which the pipes stand. -/
theorem pipesAlong_body {l : ScannedLine} (hl : l.raw = l.segments.flatMap Segment.text) :
    ∃ body, l.raw = body ++ l.trailingComment?.getD [] ∧ PipesAlong 0 body l.pipes := by
  have hall : PipesAlong 0 l.raw l.pipes := hl ▸ pipesAlong_pipesInSegments 0 0 l.segments
  have hwhole (h : l.trailingComment? = none) :
      ∃ body, l.raw = body ++ l.trailingComment?.getD [] ∧ PipesAlong 0 body l.pipes :=
    ⟨l.raw, by simp [h], hall⟩
  cases hlast : l.segments.getLast? with
  | none => exact hwhole (by rw [trailingComment?, hlast])
  | some s =>
    by_cases hs : s.kind = .comment ∧ 1 < l.segments.length
    · have hsome : l.trailingComment? = some s.text := by
        simp only [trailingComment?, hlast, if_pos hs]
      obtain ⟨ss, hss⟩ := List.getLast?_eq_some_iff.mp hlast
      refine ⟨ss.flatMap Segment.text, ?_, ?_⟩
      · rw [hsome, hl, hss]
        simp
      · have hpipes : l.pipes = pipesInSegments 0 0 ss := by
          rw [pipes, hss]
          exact pipesInSegments_concat (by rw [hs.1]; decide) 0 0 ss
        rw [hpipes]
        exact pipesAlong_pipesInSegments 0 0 ss
    · exact hwhole (by simp only [trailingComment?, hlast, if_neg hs])

end ScannedLine

end ScratchFormat
