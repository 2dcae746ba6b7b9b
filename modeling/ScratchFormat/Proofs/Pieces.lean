import ScratchFormat.Proofs.Broken
import ScratchFormat.Proofs.PipeMarks

/-! The pieces of a broken line, read on lines of their own. At every cut the scanner is idle, so
the marks of the line are those of its pieces one after another. What the blanks around a piece can
change is little: a blank may be the escaped character of a literal, or belong to a literal that the
line leaves open. -/

namespace ScratchFormat

namespace Cursor

structure Begins (s : Cursor) : Prop where
  rests : s.Rests
  fresh : s.fresh = false

theorem begins_start : (start .code).Begins := ⟨rests_start, rfl⟩

/-- Scanners that agree mark a text alike. -/
theorem Agrees.marks {s t : Cursor} (h : s.Agrees t) (hfresh : s.fresh = t.fresh) (cs : List Char) :
    s.marks cs = t.marks cs := by
  cases cs with
  | nil => rfl
  | cons c cs =>
    have hmark : (s.advance c cs).1.fresh = (t.advance c cs).1.fresh := by
      have hstep := step_congr t.mode h.name c cs
      unfold Cursor.advance
      rw [h.mode, h.owed, hstep]
      cases t.owed with
      | zero => cases step t.mode t.prev c cs with
        | leave n => cases n <;> exact hfresh
        | stay m n => exact hfresh
        | _ => rfl
      | succ n => rfl
    obtain ⟨hnext, hkind⟩ := h.advance c cs
    have hsame : (s.advance c cs).1 = (t.advance c cs).1 := by
      rw [Mark.mk.injEq]
      exact ⟨by rw [advance_char, advance_char], hkind, hmark⟩
    rw [Cursor.marks, Cursor.marks, hnext, hsame]

theorem Begins.marks {s : Cursor} (hs : s.Begins) (cs : List Char) :
    s.marks cs = (start .code).marks cs :=
  (hs.rests.agrees rests_start).marks hs.fresh cs

/-- The marks of a line are those of its two parts if the scanner is idle between them. -/
theorem marks_cut {s : Cursor} {cs rest : List Char} (h : (s.run rest cs).Idle) :
    s.marks (cs ++ rest) = s.marks cs ++ (s.run rest cs).marks rest := by
  induction cs generalizing s with
  | nil => rfl
  | cons c cs ih =>
    rw [List.cons_append, Cursor.marks, Cursor.marks, advance_cut h, ih h, run, List.cons_append]

end Cursor

def isPlain (c : Char) : Bool := !(['"', '\'', '?', '-', '\x7b'].contains c) && !isNameTail c

/-- White space is plain: it opens no literal and no comment. -/
theorem isPlain_of_isSpace {c : Char} (h : isSpace c = true) : isPlain c = true := by
  have hopener : ['"', '\'', '?', '-', '\x7b'].contains c = false := by
    have hne : ∀ d ∈ ['"', '\'', '?', '-', '\x7b'], c ≠ d := by
      intro d hd
      apply ne_of_isSpace h
      have hall : (['"', '\'', '?', '-', '\x7b'].all fun d => !isSpace d) = true := by decide
      simpa using List.all_eq_true.mp hall d hd
    rw [List.contains_eq_any_beq, List.any_eq_false]
    intro d hd
    simpa using hne d hd
  rw [isPlain, hopener, isNameTail_of_isSpace h]
  rfl

theorem isPlain_of_mem_text {p : Pipe} {c : Char} (h : c ∈ p.text) : isPlain c = true := by
  have hall : p.text.all isPlain = true := by cases p <;> decide
  exact List.all_eq_true.mp hall c h

def plainMarks (cs : List Char) : List Mark := cs.map fun c => ⟨c, .code, false⟩

@[simp] theorem map_char_plainMarks (cs : List Char) : (plainMarks cs).map Mark.char = cs := by
  simp [plainMarks, Function.comp_def]

theorem tokenMarks_plainMarks (cs : List Char) : tokenMarks (plainMarks cs) = [] := by
  simp [tokenMarks, plainMarks]

theorem codeAhead_plainMarks (ahead cs : List Char) :
    codeAhead ahead (plainMarks cs) = cs ++ ahead := by
  induction cs with
  | nil => rfl
  | cons c cs ih => simpa [plainMarks, codeAhead] using ih

namespace Cursor

/-- A plain character leaves an idle scanner idle. -/
theorem advance_isPlain {s : Cursor} (hs : s.Idle) {c : Char} (hc : isPlain c = true)
    (rest : List Char) :
    s.advance c rest = (⟨c, .code, s.fresh⟩, ⟨.code, 0, false, false, some c⟩) := by
  have hopener : c ∉ ['"', '\'', '?', '-', '\x7b'] := by
    simp only [isPlain, Bool.and_eq_true, Bool.not_eq_true'] at hc
    simpa using hc.1
  have hcursor := advance_plain hs hopener rest
  have hmark : (s.advance c rest).1 = ⟨c, .code, s.fresh⟩ := by
    rcases mark_of_idle hs c rest with ⟨hkind, hfresh⟩ | ⟨hkind, -⟩
    · rw [Mark.mk.injEq]
      exact ⟨advance_char s c rest, hkind, hfresh⟩
    · exact absurd (by rw [hcursor]; exact ⟨rfl, rfl⟩) (opener_of_mark hs hkind).2
  exact Prod.ext hmark hcursor

theorem begins_plain {c : Char} (hc : isPlain c = true) :
    Begins ⟨.code, 0, false, false, some c⟩ := by
  simp only [isPlain, Bool.and_eq_true, Bool.not_eq_true'] at hc
  exact ⟨⟨⟨rfl, rfl⟩, hc.2⟩, rfl⟩

/-- Behind plain text the scanner reads on as at the start of a line. -/
theorem Begins.marks_plain {s : Cursor} (hs : s.Begins) {cs : List Char}
    (hcs : ∀ c ∈ cs, isPlain c = true) (rest : List Char) :
    s.marks (cs ++ rest) = plainMarks cs ++ (start .code).marks rest := by
  induction cs generalizing s with
  | nil => exact hs.marks rest
  | cons c cs ih =>
    have hc := hcs c List.mem_cons_self
    have hlater := ih (begins_plain hc) fun d hd => hcs d (List.mem_cons_of_mem c hd)
    rw [List.cons_append, Cursor.marks, advance_isPlain hs.rests.1 hc, hlater, hs.fresh]
    rfl

/-- Behind plain characters a segment has begun. -/
theorem begins_run_plain {s : Cursor} (hs : s.Idle) {cs : List Char}
    (hcs : ∀ c ∈ cs, isPlain c = true) (hne : cs ≠ []) (rest : List Char) :
    (s.run rest cs).Begins := by
  induction cs generalizing s with
  | nil => exact absurd rfl hne
  | cons c cs ih =>
    have hc := hcs c List.mem_cons_self
    rw [run, advance_isPlain hs hc]
    by_cases hcs' : cs = []
    · rw [hcs']
      exact begins_plain hc
    · exact ih ⟨rfl, rfl⟩ (fun d hd => hcs d (List.mem_cons_of_mem c hd)) hcs'

end Cursor

namespace Cursor

def Escapes (s : Cursor) (cs : List Char) : Prop :=
  ∃ front, cs = front ++ ['?', '\\'] ∧ (s.run ['?', '\\'] front).Rests

section Escaped

variable {s : Cursor} (hs : s.Rests)
include hs

theorem marks_escaped (b : Char) (rest : List Char) :
    s.marks ('?' :: '\\' :: b :: rest) =
      ⟨'?', .literal, true⟩ :: ⟨'\\', .literal, false⟩ :: ⟨b, .literal, false⟩ ::
        (closed b).marks rest := by
  obtain ⟨⟨hmode, howed⟩, hname⟩ := hs
  simp [Cursor.marks, advance, hmode, howed, step, stepCode, hname, questionLength?, Mode.kind]

theorem marks_escape : s.marks ['?', '\\'] = [⟨'?', .code, s.fresh⟩, ⟨'\\', .code, false⟩] := by
  obtain ⟨⟨hmode, howed⟩, hname⟩ := hs
  simp [Cursor.marks, advance, hmode, howed, step, stepCode, hname, questionLength?, Mode.kind]

end Escaped

/-- Up to white space the scanner gives the marks that it gives at the end of the line, unless the
white space is the escaped character of a literal. -/
theorem marks_append_space {s : Cursor} {cs : List Char} (h : s.Ends cs) {b : Char}
    (hb : isSpace b = true) {rest : List Char} (hr : rest.head? ≠ some '\'') :
    (¬ s.Escapes cs ∧ s.marks (cs ++ b :: rest) = s.marks cs ++ (s.run [] cs).marks (b :: rest) ∧
        (s.run [] cs).Ends []) ∨
      ∃ front t, cs = front ++ ['?', '\\'] ∧ t.Rests ∧ s.run ('?' :: '\\' :: b :: rest) front = t ∧
        s.run ['?', '\\'] front = t := by
  induction cs generalizing s with
  | nil =>
    refine .inl ⟨?_, rfl, h⟩
    rintro ⟨front, hnil, -⟩
    simp at hnil
  | cons c cs ih =>
    rcases s.advance_append_space c cs hb hr with hsame | ⟨hrests, rfl, rfl⟩
    · rcases ih h.advance with ⟨hescapes, hmarks, hends⟩ | ⟨front, t, rfl, hrests, hrun, hrun'⟩
      · refine .inl ⟨?_, ?_, ?_⟩
        · rintro ⟨front, hcs, hrests⟩
          cases front with
          | nil =>
            -- the question mark would be read in another way with the white space behind the backslash
            cases hcs
            have hmarks := congrArg (fun x => x.1.kind) hsame
            have hwith := congrArg (fun ms => ms.head?.map Mark.kind) (marks_escaped hrests b rest)
            have hwithout := congrArg (fun ms => ms.head?.map Mark.kind) (marks_escape hrests)
            simp only [Cursor.marks, List.head?_cons, Option.map_some, Option.some.injEq, run]
              at hwith hwithout
            simp only [List.cons_append, List.nil_append, hwith, hwithout] at hmarks
            cases hmarks
          | cons x front =>
            obtain ⟨rfl, rfl⟩ := List.cons.inj hcs
            exact hescapes ⟨front, rfl, hrests⟩
        · rw [List.cons_append, Cursor.marks, Cursor.marks, hsame, hmarks, run, List.append_nil,
            List.cons_append]
        · rwa [run, List.append_nil]
      · refine .inr ⟨c :: front, t, rfl, hrests, ?_, ?_⟩
        · rw [List.append_assoc] at hsame
          simp only [List.cons_append, List.nil_append] at hsame
          rwa [run, hsame]
        · rwa [run]
    · exact .inr ⟨[], s, rfl, hrests, rfl, rfl⟩

/-- Before a place where the scanner is idle no literal is left to be made. -/
theorem not_escapes_of_idle {s : Cursor} {cs : List Char} {d : Char} {rest : List Char}
    (h : (s.run (d :: rest) cs).Idle) : ¬ s.Escapes cs := by
  rintro ⟨front, rfl, hrests⟩
  have hfront : s.run (['?', '\\'] ++ d :: rest) front = s.run ['?', '\\'] front := by
    clear hrests
    induction front generalizing s with
    | nil => rfl
    | cons c front ih =>
      have hsame : s.advance c (front ++ ['?', '\\']) =
          s.advance c (front ++ ['?', '\\'] ++ d :: rest) := advance_cut h
      rw [List.append_assoc] at hsame
      rw [run, run, ← hsame]
      apply ih
      rw [hsame]
      simpa [run] using h
  rw [run_append, hfront] at h
  obtain ⟨⟨hmode, howed⟩, hname⟩ := hrests
  simp [run, advance, hmode, howed, step, stepCode, hname, questionLength?, Idle] at h

end Cursor

theorem depthAfter_of_isSpace {c : Char} (h : isSpace c = true) (depth : Nat) :
    depthAfter depth c = depth := by
  have hne : ∀ d, isSpace d = false → c ≠ d := fun d hd => ne_of_isSpace h hd
  simp [depthAfter, hne '(' (by decide), hne '[' (by decide), hne '\x7b' (by decide),
    hne ')' (by decide), hne ']' (by decide), hne '\x7d' (by decide)]

/-- Blanks in front move the pipes. -/
theorem pipesInMarks_blanks {bs : List Char} (hb : ∀ b ∈ bs, isSpace b = true) {prev : Option Char}
    (hprev : prev.any isOperatorChar = false) (ahead : List Char) (offset depth : Nat)
    (ms : List Mark) :
    pipesInMarks ahead offset depth prev (plainMarks bs ++ ms) =
      pipesInMarks ahead (offset + byteLength bs) depth none ms := by
  induction bs generalizing offset prev with
  | nil => exact pipesInMarks_congr_prev hprev ahead offset depth ms
  | cons b bs ih =>
    have hspace := hb b List.mem_cons_self
    have hop := not_operator_of_isSpace hspace
    have hnone : pipeAt? ahead depth prev ⟨b, .code, false⟩ (plainMarks bs ++ ms) = none := by
      rw [pipeAt?, Pipe.at?_eq_none_of_head hop, ite_self]
    have hlater := ih (fun d hd => hb d (List.mem_cons_of_mem b hd))
      (show (some b).any isOperatorChar = false from hop)
      (offset + b.utf8Size)
    have hcons : plainMarks (b :: bs) ++ ms = ⟨b, .code, false⟩ :: (plainMarks bs ++ ms) := rfl
    rw [hcons, pipesInMarks_code rfl, hnone, depthAfter_of_isSpace hspace, byteLength_cons,
      ← Nat.add_assoc]
    exact hlater

/-- No pipe begins inside a run of operator characters. -/
theorem pipesInMarks_operators {x : Char} (hx : isOperatorChar x = true) {cs : List Char}
    (hcs : ∀ c ∈ cs, isOperatorChar c = true) (ahead : List Char) (offset depth : Nat)
    (ms : List Mark) :
    pipesInMarks ahead offset depth (some x) (plainMarks cs ++ ms) =
      pipesInMarks ahead (offset + byteLength cs) depth (some x) ms := by
  induction cs generalizing offset x with
  | nil => rfl
  | cons c cs ih =>
    have hc := hcs c List.mem_cons_self
    have hnone : pipeAt? ahead depth (some x) ⟨c, .code, false⟩ (plainMarks cs ++ ms) = none := by
      rw [pipeAt?]
      split
      · cases hat : Pipe.at? (some x) (c :: codeAhead ahead (plainMarks cs ++ ms)) with
        | none => simpa using hat
        | some p => exact absurd (Pipe.at?_eq_some_iff.mp hat).1 (by simp [hx])
      · rfl
    have hlater := ih hc (fun d hd => hcs d (List.mem_cons_of_mem c hd)) (offset + c.utf8Size)
    have hlast : (some c).any isOperatorChar = (some x).any isOperatorChar := by simp [hc, hx]
    have hcons : plainMarks (c :: cs) ++ ms = ⟨c, .code, false⟩ :: (plainMarks cs ++ ms) := rfl
    rw [hcons, pipesInMarks_code rfl, hnone, ScannedLine.depthAfter_of_isOperatorChar hc,
      byteLength_cons, ← Nat.add_assoc, ← pipesInMarks_congr_prev hlast]
    exact hlater

/-- A pipe on the way, and then what follows it. The first of its marks may begin a segment. -/
theorem pipesInMarks_pipe {p : Pipe} {c : Char} {cs : List Char} (hp : p.text = c :: cs)
    (fresh : Bool) (ahead : List Char) (offset depth : Nat) (prev : Option Char) (ms : List Mark) :
    pipesInMarks ahead offset depth prev (⟨c, .code, fresh⟩ :: (plainMarks cs ++ ms)) =
      (pipeAt? ahead depth prev ⟨c, .code, fresh⟩ (plainMarks cs ++ ms)).toList.map (offset, ·) ++
        pipesInMarks ahead (offset + p.text.length) depth (some c) ms := by
  have hop : ∀ d ∈ c :: cs, isOperatorChar d = true :=
    fun d hd => Pipe.isOperatorChar_of_mem_text (hp ▸ hd)
  have hc := hop c List.mem_cons_self
  have hbytes : offset + p.text.length = offset + c.utf8Size + byteLength cs := by
    rw [← Pipe.byteLength_text, hp, byteLength_cons, Nat.add_assoc]
  rw [pipesInMarks_code rfl, ScannedLine.depthAfter_of_isOperatorChar hc, hbytes,
    pipesInMarks_operators hc fun d hd => hop d (List.mem_cons_of_mem c hd)]

/-- No pipe is found in marks behind which the first pipe of all is found. -/
theorem pipesInMarks_eq_nil_of_head {ahead : List Char} {offset depth : Nat} {prev : Option Char}
    {ms : List Mark} {p : Pipe} {later rest : List (Nat × Pipe)}
    (h : pipesInMarks ahead offset depth prev ms ++ later =
      (offset + byteLength (ms.map Mark.char), p) :: rest) :
    pipesInMarks ahead offset depth prev ms = [] := by
  refine List.eq_nil_iff_forall_not_mem.mpr fun q hq => ?_
  obtain ⟨r, rs, hrs⟩ := List.exists_cons_of_ne_nil (List.ne_nil_of_mem hq)
  rw [hrs, List.cons_append, List.cons.injEq] at h
  have hbound := offset_of_mem_pipesInMarks (hrs ▸ List.mem_cons_self : r ∈ _)
  rw [h.1] at hbound
  exact absurd hbound.2 (Nat.lt_irrefl _)

/-- Where the characters of a pipe come first and the pipe is found, it stands outside brackets and
is no part of a longer run. -/
theorem isolated_of_pipesInMarks {p : Pipe} {c : Char} {cs : List Char} (hp : p.text = c :: cs)
    {fresh : Bool} {offset depth : Nat} {prev : Option Char} {ms : List Mark}
    {rest : List (Nat × Pipe)}
    (h : pipesInMarks [] offset depth prev (⟨c, .code, fresh⟩ :: (plainMarks cs ++ ms)) =
      (offset, p) :: rest) :
    (if fresh then none else prev).any isOperatorChar = false ∧
      (codeAhead [] ms).takeWhile isOperatorChar = [] ∧
        pipesInMarks [] (offset + p.text.length) 0 (some c) ms = rest := by
  rw [pipesInMarks_pipe hp] at h
  cases hat : pipeAt? [] depth prev ⟨c, .code, fresh⟩ (plainMarks cs ++ ms) with
  | none =>
    -- what is found behind the pipe stands behind it
    rw [hat] at h
    have hmem : (offset, p) ∈ pipesInMarks [] (offset + p.text.length) depth (some c) ms := by
      rw [← List.nil_append (pipesInMarks ..)]
      exact h ▸ List.mem_cons_self
    have hbound : offset + p.text.length ≤ offset := (offset_of_mem_pipesInMarks hmem).1
    have hlen := List.length_pos_iff.mpr p.text_ne_nil
    omega
  | some p' =>
    rw [hat] at h
    obtain ⟨hhead, hlater⟩ := List.cons.inj h
    obtain ⟨-, rfl⟩ := Prod.mk.inj hhead
    rw [pipeAt?] at hat
    split at hat
    · rename_i hdepth
      obtain ⟨hprev, hrun⟩ := Pipe.at?_eq_some_iff.mp hat
      rw [codeAhead_append, codeAhead_plainMarks, ← List.cons_append, ← hp,
        List.takeWhile_append_of_pos fun d hd => Pipe.isOperatorChar_of_mem_text hd] at hrun
      rw [hdepth] at hlater
      exact ⟨hprev, List.append_right_eq_self.mp hrun, hlater⟩
    · cases hat

namespace ScannedLine

/-- Blanks in front of a line of code move its pipes. -/
theorem pipes_space_append {bs : List Char} (hb : ∀ b ∈ bs, isSpace b = true) (cs : List Char) :
    (scanLine .code (bs ++ cs)).pipes = (scanLine .code cs).pipes.map fun q =>
      (byteLength bs + q.1, q.2) := by
  rw [pipes_scanLine, pipes_scanLine, Cursor.begins_start.marks_plain fun b hbs =>
    isPlain_of_isSpace (hb b hbs), pipesInMarks_blanks hb rfl, Nat.zero_add]
  exact pipesInMarks_add [] 0 (byteLength bs) 0 none _

/-- Blanks behind a line of code do not change its pipes. -/
theorem pipes_append_space {bs : List Char} (hb : ∀ b ∈ bs, isSpace b = true) (cs : List Char) :
    (scanLine .code (cs ++ bs)).pipes = (scanLine .code cs).pipes := by
  cases bs with
  | nil => rw [List.append_nil]
  | cons b bs =>
    have hspace := hb b List.mem_cons_self
    have hhead : bs.head? ≠ some '\'' := fun heq =>
      absurd (hb _ (List.mem_cons_of_mem b (List.mem_of_mem_head? heq))) (by decide)
    -- marks of white space, of whatever kind, hold no pipe and no operator character
    have hblank : ∀ (s : Cursor) (ds : List Char), (∀ d ∈ ds, isSpace d = true) →
        ∀ ahead offset depth prev, pipesInMarks ahead offset depth prev (s.marks ds) = [] := by
      intro s ds hds
      induction ds generalizing s with
      | nil => intros; rfl
      | cons d ds ih =>
        intro ahead offset depth prev
        have hop := not_operator_of_isSpace (hds d List.mem_cons_self)
        have hlater := ih (s.advance d ds).2 fun e he => hds e (List.mem_cons_of_mem d he)
        rw [Cursor.marks]
        by_cases hm : (s.advance d ds).1.kind = .code
        · have hnone :
              pipeAt? ahead depth prev (s.advance d ds).1 ((s.advance d ds).2.marks ds) = none := by
            rw [pipeAt?, advance_char, Pipe.at?_eq_none_of_head hop, ite_self]
          rw [pipesInMarks_code hm, hnone]
          exact hlater _ _ _ _
        · rw [pipesInMarks_token hm]
          exact hlater _ _ _ _
    have hrun : ∀ (s : Cursor),
        (codeAhead [] (s.marks (b :: bs))).takeWhile isOperatorChar = [] := by
      intro s
      rw [Cursor.marks, codeAhead, advance_char]
      split
      · rw [List.takeWhile_cons_of_neg (by simp [not_operator_of_isSpace hspace])]
      · rfl
    have hends : (Cursor.start .code).Ends cs := fun _ => Nat.zero_le cs.length
    rw [pipes_scanLine, pipes_scanLine]
    rcases Cursor.marks_append_space hends hspace hhead with ⟨-, hmarks, -⟩ |
      ⟨front, t, rfl, hrests, hrun', hrun''⟩
    · rw [hmarks, pipesInMarks_append, hblank _ _ hb, List.append_nil]
      exact pipesInMarks_congr_ahead (hrun _) 0 0 none _
    · -- the two characters before the white space are no operators, in a literal or not
      have hescaped : front ++ ['?', '\\'] ++ b :: bs = front ++ '?' :: '\\' :: b :: bs := by simp
      have hwith := Cursor.marks_cut (by rw [hrun']; exact hrests.1)
      have hwithout := Cursor.marks_cut (by rw [hrun'']; exact hrests.1)
      rw [hrun', Cursor.marks_escaped hrests] at hwith
      rw [hrun'', Cursor.marks_escape hrests] at hwithout
      rw [hescaped, hwith, hwithout, pipesInMarks_append, pipesInMarks_append]
      congr 1
      · apply pipesInMarks_congr_ahead
        cases t.fresh <;> simp [codeAhead, isOperatorChar]
      · have hliteral : Kind.literal ≠ .code := by decide
        rw [pipesInMarks_token hliteral, pipesInMarks_token hliteral, pipesInMarks_token hliteral,
          pipesInMarks_code rfl, pipesInMarks_code rfl, hblank _ _ fun d hd =>
          hb d (List.mem_cons_of_mem b hd)]
        have hquestion : isOperatorChar '?' = false := by decide
        have hback : isOperatorChar '\\' = false := by decide
        rw [pipeAt?, pipeAt?, Pipe.at?_eq_none_of_head hquestion, Pipe.at?_eq_none_of_head hback,
          ite_self, ite_self]
        rfl

/-- A piece without the blanks around it has the same pipes, at other offsets. -/
theorem pipes_trim (cs : List Char) :
    ∃ more, (scanLine .code cs).pipes = (scanLine .code (trim cs)).pipes.map fun q =>
      (more + q.1, q.2) := by
  obtain ⟨lead, tail, hcs, hlead, htail⟩ := Cursor.trim_decompose cs
  refine ⟨byteLength lead, ?_⟩
  conv => lhs; rw [hcs]
  rw [pipes_space_append hlead, pipes_append_space htail]

theorem pipes_trim_eq_nil_iff (cs : List Char) :
    (scanLine .code (trim cs)).pipes = [] ↔ (scanLine .code cs).pipes = [] := by
  obtain ⟨more, hpipes⟩ := pipes_trim cs
  rw [hpipes, List.map_eq_nil_iff]

/-- The first segment of a line of code begins with all the white space that the line begins
with. -/
theorem takeWhile_first {raw : List Char} {t : Segment} {ts : List Segment}
    (h : (scanLine .code raw).segments = t :: ts) :
    t.text.takeWhile isSpace = raw.takeWhile isSpace := by
  have hlexed : Lexed (.start .code) (t :: ts) := h ▸ lexed_ofMarks (Cursor.sound_start .code raw)
  have hraw := segments_flatMap_text .code raw
  rw [h, List.flatMap_cons] at hraw
  -- literals and comments do not open with white space
  have hopener : ∀ {s : Cursor} {c : Char} {rest : List Char}, s.Idle →
      (s.advance c rest).1.kind ≠ .code → isSpace c = false := by
    intro s c rest hs hkind
    obtain ⟨hc, -⟩ := Cursor.opener_of_mark hs hkind
    rcases hc with rfl | rfl | rfl | rfl | rfl <;> decide
  cases hlexed with
  | @code _ text _ hidle hnext hlater =>
    rw [← hraw]
    cases ts with
    | nil => rw [List.flatMap_nil, List.append_nil]
    | cons u us =>
      cases hlater with
      | code => exact absurd rfl (hnext _ rfl)
      | token hkind hmark =>
        have hc := hopener (Cursor.idle_run_of_idleAlong hidle) (hmark ▸ hkind)
        symm
        apply takeWhile_append_of_head
        intro b hb
        cases hb
        exact hc
  | token hkind hmark =>
    have hc := hopener (s := .start .code) ⟨rfl, rfl⟩ (hmark ▸ hkind)
    rw [← hraw, List.cons_append, List.takeWhile_cons_of_neg (by simp [hc]),
      List.takeWhile_cons_of_neg (by simp [hc])]

/-- A line of code starts with a pipe if nothing but white space comes before its first one. -/
theorem startsWithPipe_iff (raw : List Char) :
    (scanLine .code raw).startsWithPipe = true ↔
      ∃ p, (scanLine .code raw).pipes.head? = some (byteLength (raw.takeWhile isSpace), p) := by
  unfold startsWithPipe
  cases hsegments : (scanLine .code raw).segments with
  | nil => simp [pipes, hsegments, pipesInSegments]
  | cons t ts =>
    cases hpipes : (scanLine .code raw).pipes with
    | nil => simp
    | cons q qs =>
      obtain ⟨offset, p⟩ := q
      have hlead := takeWhile_first hsegments
      simp only [Bool.and_eq_true, decide_eq_true_eq, hlead, List.head?_cons, Option.some.injEq,
        Prod.mk.injEq]
      refine ⟨fun h => ⟨p, h.2, rfl⟩, ?_⟩
      rintro ⟨-, hoffset, -⟩
      refine ⟨Decidable.byContradiction fun hkind => ?_, hoffset⟩
      -- a literal or a comment in front is not white space, and the pipe comes after it
      have hmem : (offset, p) ∈ pipesInSegments (byteLength t.text) 0 ts := by
        rw [pipes, hsegments, pipesInSegments, if_neg hkind, Nat.zero_add] at hpipes
        rw [hpipes]
        exact List.mem_cons_self
      have hle := (pipesAlong_pipesInSegments _ _ _).start_le _ hmem
      have hlexed : Lexed (.start .code) (t :: ts) :=
        hsegments ▸ lexed_ofMarks (Cursor.sound_start .code raw)
      cases hlexed with
      | code => exact hkind rfl
      | @token _ _ c text _ _ hmark =>
        have hsize := c.utf8Size_pos
        have hc : isSpace c = false := by
          obtain ⟨hopen, -⟩ := Cursor.opener_of_mark (s := .start .code) ⟨rfl, rfl⟩ (hmark ▸ hkind)
          rcases hopen with rfl | rfl | rfl | rfl | rfl <;> decide
        rw [List.takeWhile_cons_of_neg (by simp [hc])] at hlead
        rw [hoffset, ← hlead, byteLength_cons, byteLength_nil] at hle
        omega

/-- A line of code may be indented in any way. -/
theorem startsWithPipe_space_append {bs : List Char} (hb : ∀ b ∈ bs, isSpace b = true)
    (cs : List Char) :
    (scanLine .code (bs ++ cs)).startsWithPipe = (scanLine .code cs).startsWithPipe := by
  rw [Bool.eq_iff_iff, startsWithPipe_iff, startsWithPipe_iff, pipes_space_append hb,
    List.takeWhile_append_of_pos hb, byteLength_append, List.head?_map]
  cases (scanLine .code cs).pipes.head? with
  | none => simp
  | some q => simp [Prod.ext_iff]

theorem isCodeLine_space_append {bs : List Char} (hb : ∀ b ∈ bs, isSpace b = true)
    (cs : List Char) : (scanLine .code (bs ++ cs)).isCodeLine = (scanLine .code cs).isCodeLine := by
  rw [isCodeLine_scanLine, isCodeLine_scanLine, Cursor.shows_space_append rfl rfl hb]

end ScannedLine

def commentMarks : List Char → List Mark
  | [] => []
  | c :: cs => ⟨c, .comment, true⟩ :: cs.map fun d => ⟨d, .comment, false⟩

theorem kind_of_mem_commentMarks {cs : List Char} {m : Mark} (h : m ∈ commentMarks cs) :
    m.kind = .comment := by
  cases cs with
  | nil => cases h
  | cons c cs =>
    rcases List.mem_cons.mp h with rfl | h
    · rfl
    · obtain ⟨d, -, rfl⟩ := List.mem_map.mp h
      rfl

theorem codeAhead_commentMarks (ahead : List Char) {cs : List Char} (h : cs ≠ []) :
    codeAhead ahead (commentMarks cs) = [] := by
  cases cs with
  | nil => exact absurd rfl h
  | cons c cs => rfl

/-- A scanner that stays busy goes on with one segment. -/
theorem Cursor.marks_of_busyAlong {s : Cursor} {cs : List Char} (hs : s.Sound cs)
    (h : s.BusyAlong [] cs) : s.marks cs = cs.map fun c => ⟨c, s.mode.kind, false⟩ := by
  induction cs generalizing s with
  | nil => rfl
  | cons c cs ih =>
    obtain ⟨hbusy, hlater⟩ := h
    rw [List.append_nil] at hlater
    obtain ⟨hkind, hfresh⟩ := mark_of_busy hs hbusy
    have hmark : (s.advance c cs).1 = ⟨c, s.mode.kind, false⟩ := by
      rw [Mark.mk.injEq]
      exact ⟨advance_char s c cs, hkind, hfresh⟩
    rw [Cursor.marks, hmark, List.map_cons]
    cases cs with
    | nil => rfl
    | cons d cs =>
      have hmode : (s.advance c (d :: cs)).2.mode.kind = s.mode.kind := by
        rcases next_cases hs with ⟨-, hidle, -⟩ | ⟨-, -, hmode⟩ | ⟨-, hclosed⟩
        · exact absurd hidle hlater.1
        · rw [hmode, hkind]
        · exact absurd (hclosed ▸ idle_closed c) hlater.1
      rw [ih (sound_advance hs) hlater, hmode]

/-- The comment at the end of a line is marked as a comment from any idle place. -/
theorem marks_trailingComment {mode : Mode} {raw body comment : List Char}
    (hcomment : (scanLine mode raw).trailingComment? = some comment) (hraw : raw = body ++ comment)
    {s : Cursor} (hs : s.Idle) : s.marks comment = commentMarks comment := by
  obtain ⟨hidle, hlexed⟩ := lexed_comment hcomment hraw
  generalize (Cursor.start mode).run comment body = t at hidle hlexed
  cases hlexed with
  | @token _ _ c text _ hkind hmark hbusy =>
    rw [List.flatMap_nil, List.append_nil] at hmark hbusy
    obtain ⟨hnext, hsame⟩ := Cursor.advance_comment hs hidle (head_of_comment hidle hmark) text
    rw [hmark] at hsame
    have hfirst : (s.advance c text).1 = ⟨c, .comment, true⟩ := by
      rcases Cursor.mark_of_idle hs c text with ⟨hcode, -⟩ | ⟨-, hfresh⟩
      · rw [hsame] at hcode
        cases hcode
      · rw [Mark.mk.injEq]
        exact ⟨advance_char s c text, hsame, hfresh⟩
    rw [Cursor.marks, hfirst, hnext,
      Cursor.marks_of_busyAlong (Cursor.sound_advance (hidle.sound _)) hbusy, commentMarks]
    congr 1
    cases text with
    | nil => rfl
    | cons d text =>
      have hmode : (t.advance c (d :: text)).2.mode.kind = .comment := by
        rcases Cursor.next_cases (hidle.sound (c :: d :: text))
          with ⟨hcode, -⟩ | ⟨-, -, hmode⟩ | ⟨-, hclosed⟩
        · rw [hmark] at hcode
          cases hcode
        · rw [hmode, hmark]
        · exact absurd (hclosed ▸ Cursor.idle_closed c) hbusy.1
      rw [hmode]

/-- Behind a segment that has just closed no code goes on. -/
theorem codeBefore_of_fresh {s : Cursor} {cs : List Char} (hs : s.Sound cs) (hne : cs ≠ [])
    (h : (s.run [] cs).fresh = true) (prev : Option Char) :
    codeBefore prev (s.marks cs) = none := by
  induction cs generalizing s prev with
  | nil => exact absurd rfl hne
  | cons c cs ih =>
    rw [Cursor.run, List.append_nil] at h
    rw [Cursor.marks, codeBefore]
    by_cases hcs : cs = []
    · subst hcs
      rcases Cursor.next_cases hs with ⟨-, -, hfresh⟩ | ⟨hkind, -⟩ | ⟨hkind, -⟩
      · exact absurd h (by simp [Cursor.run, hfresh])
      · exact if_neg hkind
      · exact if_neg hkind
    · exact ih (Cursor.sound_advance hs) hcs h _

/-- The scanner comes idle to a pipe and reads on behind it as at the start of a line. -/
theorem Cursor.marks_pipe {s : Cursor} (hs : s.Idle) {p : Pipe} {c : Char} {cs : List Char}
    (hp : p.text = c :: cs) (rest : List Char) :
    s.marks (p.text ++ rest) = ⟨c, .code, s.fresh⟩ ::
      (plainMarks cs ++ (start .code).marks rest) := by
  have hplain : ∀ d ∈ c :: cs, isPlain d = true := fun d hd => isPlain_of_mem_text (hp ▸ hd)
  have hc := hplain c List.mem_cons_self
  rw [hp, List.cons_append, Cursor.marks, advance_isPlain hs hc]
  rw [(begins_plain hc).marks_plain fun d hd => hplain d (List.mem_cons_of_mem c hd)]

theorem pipesInMarks_eq_nil_of_offset {ahead : List Char} {offset depth : Nat} {prev : Option Char}
    {ms : List Mark} (h : pipesInMarks ahead offset depth prev ms = []) (offset' : Nat) :
    pipesInMarks ahead offset' depth prev ms = [] := by
  have hzero := pipesInMarks_add ahead 0 offset depth prev ms
  rw [Nat.add_zero, h] at hzero
  have hmove := pipesInMarks_add ahead 0 offset' depth prev ms
  rw [Nat.add_zero, List.map_eq_nil_iff.mp hzero.symm] at hmove
  exact hmove

namespace Chains

/-- What stands before the first cut is marked by itself. -/
theorem IdleAtCuts.marks_first {s : Cursor} {post first : List Char}
    {parts : List (Pipe × List Char)} (h : IdleAtCuts s post first parts) :
    ∃ ms, s.marks (chainText first parts ++ post) = s.marks first ++ ms := by
  cases parts with
  | nil =>
    rw [chainText_nil]
    by_cases hpost : post = []
    · exact ⟨[], by rw [hpost, List.append_nil, List.append_nil]⟩
    · exact ⟨_, Cursor.marks_cut (h hpost)⟩
  | cons q parts =>
    rw [chainText_cons, List.append_assoc, List.append_assoc]
    exact ⟨_, Cursor.marks_cut h.1⟩

/-- The pipes of a chain are all cuts, so its pieces have none: neither what comes first, where it
stands, nor the parts, each on a line of its own. The induction goes from pipe to pipe. -/
theorem pipes_parts {post : List Char}
    (hpost : ∀ t : Cursor, t.Idle → codeAhead [] (t.marks post) = [])
    {parts : List (Pipe × List Char)} {s : Cursor} (hs : s.Begins) {first : List Char}
    (hidle : IdleAtCuts s post first parts) {offset depth : Nat} {prev : Option Char}
    (hpipes : pipesInMarks [] offset depth prev (s.marks (chainText first parts ++ post)) =
      chainPipes offset first parts) :
    pipesInMarks [] offset depth prev ((Cursor.start .code).marks first) = [] ∧
      ∀ q ∈ parts, (scanLine .code q.2).pipes = [] := by
  induction parts generalizing s first offset depth prev with
  | nil =>
    refine ⟨?_, nofun⟩
    rw [chainText_nil, chainPipes] at hpipes
    rw [← hs.marks]
    by_cases hne : post = []
    · rwa [hne, List.append_nil] at hpipes
    · have hbefore := hidle hne
      rw [Cursor.marks_cut hbefore, pipesInMarks_append, List.append_eq_nil_iff, hpost _ hbefore]
        at hpipes
      exact hpipes.1
  | cons q parts ih =>
    obtain ⟨p, text⟩ := q
    obtain ⟨hbefore, hlater⟩ := hidle
    obtain ⟨c, cs, hp⟩ := List.exists_cons_of_ne_nil p.text_ne_nil
    have hcut := Cursor.run_cut hbefore
    have hbegins :
        ((s.run (p.text ++ (chainText text parts ++ post)) first).run (chainText text parts ++ post)
          p.text).Begins :=
      Cursor.begins_run_plain hbefore (fun d hd => isPlain_of_mem_text hd) p.text_ne_nil _
    rw [chainText_cons, List.append_assoc, List.append_assoc, Cursor.marks_cut hbefore,
      Cursor.marks_pipe hbefore hp, pipesInMarks_append, chainPipes] at hpipes
    generalize s.run (p.text ++ (chainText text parts ++ post)) first = u
      at hbefore hlater hcut hbegins hpipes
    -- the first pipe of the chain comes behind the first piece
    have hfirst : pipesInMarks (codeAhead [] (⟨c, .code, u.fresh⟩ ::
        (plainMarks cs ++ (Cursor.start .code).marks (chainText text parts ++ post))))
        offset depth prev (s.marks first) = [] :=
      pipesInMarks_eq_nil_of_head (by rw [marks_map_char]; exact hpipes)
    rw [hfirst, List.nil_append, marks_map_char] at hpipes
    -- and it is the one that the chain names
    obtain ⟨hprev, hahead, hpipes⟩ := isolated_of_pipesInMarks hp hpipes
    obtain ⟨htext, hparts⟩ := ih hbegins hlater (by rw [hbegins.marks]; exact hpipes)
    constructor
    · have hlast : (codeBefore prev (s.marks first)).any isOperatorChar = false := by
        cases hfresh : u.fresh with
        | false => simpa [hfresh] using hprev
        | true =>
          have hne : first ≠ [] := by
            rintro rfl
            rw [← hcut] at hfresh
            exact absurd (hs.fresh.symm.trans hfresh) (by decide)
          rw [codeBefore_of_fresh (hs.rests.1.sound first) hne (by rw [hcut]; exact hfresh)]
          rfl
      rw [← hs.marks, pipesInMarks_of_plain_last hlast [] (codeAhead [] _)]
      exact hfirst
    · intro q hq
      rcases List.mem_cons.mp hq with rfl | hq
      · obtain ⟨ms, hms⟩ := hlater.marks_first
        rw [hbegins.marks, hbegins.marks] at hms
        rw [hms, codeAhead_append] at hahead
        rw [pipes_scanLine, pipesInMarks_of_plain_head hahead [] 0 0 none (some c)]
        exact pipesInMarks_eq_nil_of_offset htext 0
      · exact hparts q hq

end Chains

end ScratchFormat
