import ScratchFormat.Proofs.Grid
import ScratchFormat.Proofs.Pieces

/-! The lines that a line with several pipes is broken into, each scanned for itself. A link stands
behind the one pipe of its line; the head of a definition has none, and what the chain starts from
at most one, right behind the equals sign. -/

namespace ScratchFormat

section Link

variable {p : Pipe} {text more : List Char}

/-- Behind its pipe a link begins with a blank, if the line does not end there. -/
theorem Link.render_append (p : Pipe) (text : List Char) (hmore : ∀ c ∈ more.head?, c = ' ') :
    ∃ rest, Link.render ⟨some p, text⟩ ++ more = p.text ++ rest ∧ (∀ c ∈ rest.head?, c = ' ') ∧
      (rest = text ++ more ∨ rest = ' ' :: (text ++ more)) := by
  by_cases htext : text = []
  · subst htext
    exact ⟨more, by simp [Link.render], hmore, .inl rfl⟩
  · refine ⟨' ' :: (text ++ more), ?_, ?_, .inr rfl⟩
    · simp [Link.render, htext]
    · intro c hc
      cases hc
      rfl

theorem codeAhead_of_blank {rest : List Char} (hrest : ∀ c ∈ rest.head?, c = ' ') :
    (codeAhead [] ((Cursor.start .code).marks rest)).takeWhile isOperatorChar = [] := by
  cases rest with
  | nil => rfl
  | cons c rest =>
    obtain rfl := hrest c rfl
    rw [Cursor.marks, codeAhead, advance_char]
    split
    · rfl
    · rfl

/-- The line of a link has the pipe of the link and no other. -/
theorem pipes_link (hmore : ∀ c ∈ more.head?, c = ' ')
    (hpipes : (scanLine .code (text ++ more)).pipes = []) :
    (scanLine .code (Link.render ⟨some p, text⟩ ++ more)).pipes = [(0, p)] := by
  obtain ⟨rest, hrender, hblank, hrest⟩ := Link.render_append p text hmore
  obtain ⟨c, cs, hp⟩ := List.exists_cons_of_ne_nil p.text_ne_nil
  have hlater : (scanLine .code rest).pipes = [] := by
    rcases hrest with rfl | rfl
    · exact hpipes
    · have hspace := ScannedLine.pipes_space_append
        (List.forall_mem_singleton.mpr rfl : ∀ b ∈ [' '], isSpace b = true)
        (text ++ more)
      rw [hpipes] at hspace
      exact hspace
  have hahead := codeAhead_of_blank hblank
  have hat : pipeAt? [] 0 none ⟨c, .code, false⟩
      (plainMarks cs ++ (Cursor.start .code).marks rest) = some p := by
    have hrun : (c :: (cs ++ codeAhead [] ((Cursor.start .code).marks rest))).takeWhile
        isOperatorChar = p.text := by
      rw [← List.cons_append, ← hp, List.takeWhile_append_of_pos fun d hd =>
        Pipe.isOperatorChar_of_mem_text hd, hahead, List.append_nil]
    rw [pipeAt?, codeAhead_append, codeAhead_plainMarks]
    exact Pipe.at?_eq_some_iff.mpr ⟨rfl, hrun⟩
  rw [pipes_scanLine] at hlater
  rw [hrender, pipes_scanLine, Cursor.marks_pipe ⟨rfl, rfl⟩ hp]
  have hfresh : (Cursor.start .code).fresh = false := rfl
  rw [hfresh, pipesInMarks_pipe hp, hat, pipesInMarks_of_plain_head hahead [] _ 0 (some c) none,
    pipesInMarks_eq_nil_of_offset hlater]
  rfl

theorem head_render {p : Pipe} {c : Char} {cs : List Char} (hp : p.text = c :: cs)
    (text more : List Char) : ∃ rest, Link.render ⟨some p, text⟩ ++ more = c :: rest := by
  unfold Link.render
  simp only
  split
  · exact ⟨cs ++ more, by rw [hp]; rfl⟩
  · exact ⟨cs ++ ' ' :: text ++ more, by rw [hp]; simp⟩

/-- A line that begins with a pipe is a line of code. -/
theorem isCodeLine_link (p : Pipe) (text more : List Char) :
    (scanLine .code (Link.render ⟨some p, text⟩ ++ more)).isCodeLine = true := by
  obtain ⟨c, cs, hp⟩ := List.exists_cons_of_ne_nil p.text_ne_nil
  obtain ⟨rest, hrest⟩ := head_render hp text more
  have hmem : c ∈ p.text := hp ▸ List.mem_cons_self
  have hspace : isSpace c = false := by
    cases hc : isSpace c with
    | false => rfl
    | true =>
      have hop := not_operator_of_isSpace hc
      rw [Pipe.isOperatorChar_of_mem_text hmem] at hop
      cases hop
  rw [ScannedLine.isCodeLine_scanLine, hrest, Cursor.shows_cons,
    Cursor.advance_isPlain ⟨rfl, rfl⟩ (isPlain_of_mem_text hmem)]
  simp [Mark.shown, hspace]

end Link

/-- The `=` of a definition stands outside brackets and behind no operator character. -/
theorem depth_of_beforeEquals? {depth : Nat} {prev : Option Char} {cs head : List Char}
    (h : beforeEquals? depth prev cs = some head) :
    head.foldl depthAfter depth = 0 ∧ (head.getLast?.or prev).any isOperatorChar = false := by
  induction cs generalizing depth prev head with
  | nil => cases h
  | cons c cs ih =>
    rw [beforeEquals?] at h
    split at h
    · cases h
    · split at h
      · rename_i heq
        cases h
        exact ⟨heq.2.1, by simpa using heq.2.2.1⟩
      · obtain ⟨later, hlater, rfl⟩ := Option.map_eq_some_iff.mp h
        obtain ⟨hdepth, hlast⟩ := ih hlater
        refine ⟨hdepth, ?_⟩
        rwa [getLast?_cons_or]

/-- Where the scanner stays idle all marks are code. -/
theorem Cursor.kind_of_idleAlong {s : Cursor} {rest cs : List Char} (h : s.IdleAlong rest cs) :
    ∀ m ∈ s.marks cs, m.kind = .code := by
  induction cs generalizing s with
  | nil => exact nofun
  | cons c cs ih =>
    obtain ⟨hidle, hlater⟩ := h
    have hsame := advance_cut (idle_run_of_idleAlong hlater)
    rw [← hsame] at hlater
    intro m hm
    rcases List.mem_cons.mp hm with rfl | hm
    · refine Decidable.byContradiction fun hkind => ?_
      exact (opener_of_mark hidle hkind).2 (idle_of_idleAlong hlater)
    · exact ih hlater m hm

theorem depthBehind_of_code {ms : List Mark} (h : ∀ m ∈ ms, m.kind = .code) (depth : Nat) :
    depthBehind depth ms = (ms.map Mark.char).foldl depthAfter depth := by
  induction ms generalizing depth with
  | nil => rfl
  | cons m ms ih =>
    rw [depthBehind, if_pos (h m List.mem_cons_self),
      ih fun n hn => h n (List.mem_cons_of_mem m hn)]
    rfl

/-- The code before a place ends with the last character there, or has broken off. -/
theorem codeBefore_cases (prev : Option Char) (ms : List Mark) :
    codeBefore prev ms = none ∨ codeBefore prev ms = (ms.map Mark.char).getLast?.or prev := by
  induction ms generalizing prev with
  | nil => exact .inr rfl
  | cons m ms ih =>
    rw [codeBefore, List.map_cons]
    split
    · rw [getLast?_cons_or]
      exact ih (some m.char)
    · cases ms with
      | nil => exact .inl rfl
      | cons n ms =>
        rcases ih none with hnone | hlast
        · exact .inl hnone
        · refine .inr ?_
          rw [hlast, List.map_cons, List.getLast?_cons_cons, List.getLast?_cons, Option.some_or,
            Option.some_or]

theorem codeBefore_of_code {ms : List Mark} (h : ∀ m ∈ ms, m.kind = .code) (prev : Option Char) :
    codeBefore prev ms = (ms.map Mark.char).getLast?.or prev := by
  induction ms generalizing prev with
  | nil => rfl
  | cons m ms ih =>
    rw [codeBefore, if_pos (h m List.mem_cons_self), ih fun n hn => h n (List.mem_cons_of_mem m hn),
      List.map_cons, getLast?_cons_or]

namespace Chains

theorem start_le_of_mem_chainPipes {start : Nat} {first : List Char}
    {parts : List (Pipe × List Char)} {q : Nat × Pipe} (h : q ∈ chainPipes start first parts) :
    start ≤ q.1 := by
  induction parts generalizing start first with
  | nil => cases h
  | cons r parts ih =>
    rcases List.mem_cons.mp h with rfl | h
    · exact Nat.le_add_right _ _
    · have hlater := ih h
      omega

/-- If something follows the chain, the scanner is idle behind every part of it. -/
theorem IdleAtCuts.idle_of_mem {s : Cursor} {d : Char} {post first : List Char}
    {parts : List (Pipe × List Char)} (h : IdleAtCuts s (d :: post) first parts) (hs : s.Rests)
    (hd : (d :: post).head? ≠ some '\'') {q : Pipe × List Char} (hq : q ∈ parts) :
    ∃ (t : Cursor) (rest : List Char), t.Rests ∧ (t.run rest q.2).Idle ∧
      rest.head? ≠ some '\'' := by
  induction parts generalizing s first with
  | nil => cases hq
  | cons r parts ih =>
    obtain ⟨p, text⟩ := r
    obtain ⟨hbefore, hlater⟩ := h
    have hrests := Cursor.rests_run_pipe hbefore p (chainText text parts ++ d :: post)
    rcases List.mem_cons.mp hq with rfl | hq
    · cases parts with
      | nil => exact ⟨_, _, hrests, hlater (List.cons_ne_nil d post), hd⟩
      | cons r parts =>
        refine ⟨_, _, hrests, hlater.1, ?_⟩
        cases r.1 <;> simp [Pipe.text]
    · exact ih hlater hrests hq

section Broken

variable {style : Style} {head : Option (List Char)} {column base : Nat} {raw first : List Char}
  {parts : List (Pipe × List Char)} {out : List (List Char)}

/-- The comment at the end of a broken line is set down by itself, whatever comes before it. -/
theorem Broken.marks_comment
    (h : Broken style (scanLine .code raw) head column base first parts out) {s : Cursor}
    (hs : s.Idle) : s.marks ((scanLine .code raw).trailingComment?.getD []) =
      commentMarks ((scanLine .code raw).trailingComment?.getD []) := by
  cases hcomment : (scanLine .code raw).trailingComment? with
  | none => rfl
  | some comment =>
    have hraw := h.raw_eq
    rw [hcomment, ← List.append_assoc] at hraw
    exact marks_trailingComment hcomment hraw hs

theorem Broken.codeAhead_comment
    (h : Broken style (scanLine .code raw) head column base first parts out) (s : Cursor)
    (hs : s.Idle) :
    codeAhead [] (s.marks ((scanLine .code raw).trailingComment?.getD [])) = [] := by
  rw [h.marks_comment hs]
  cases (scanLine .code raw).trailingComment?.getD [] with
  | nil => rfl
  | cons c cs => exact codeAhead_commentMarks [] (List.cons_ne_nil c cs)

/-- Behind the indentation, or behind the equals sign, the scanner reads on as at the start of a
line. -/
theorem Broken.begins (h : Broken style (scanLine .code raw) head column base first parts out) :
    ((Cursor.start .code).run
      (chainText first parts ++ (scanLine .code raw).trailingComment?.getD [])
      (head.elim (raw.takeWhile isIndent) (· ++ ['=']))).Begins := by
  refine ⟨h.rests _ h.raw_eq, ?_⟩
  cases hhead : head with
  | none =>
    rw [Option.elim_none]
    by_cases hindent : raw.takeWhile isIndent = []
    · rw [hindent]
      rfl
    · refine (Cursor.begins_run_plain ⟨rfl, rfl⟩ (fun c hc => ?_) hindent _).fresh
      exact isPlain_of_isSpace (isSpace_of_mem_indent hc)
  | some text =>
    obtain ⟨rest, hraw, hidle⟩ := idle_before_equals (h.head_eq text hhead)
    have hrest : rest = chainText first parts ++ (scanLine .code raw).trailingComment?.getD [] := by
      have hraw' : raw = text ++ ['='] ++ _ := hhead ▸ h.raw_eq
      rw [List.append_assoc] at hraw'
      exact (List.cons.inj (List.append_cancel_left (hraw.symm.trans hraw'))).2
    rw [Option.elim_some, Cursor.run_append, ← hrest]
    exact (Cursor.begins_run_plain hidle (List.forall_mem_singleton.mpr (by decide))
      (by simp) _).fresh

/-- A line that is broken behind its indentation has no pipe but the cuts. -/
theorem Broken.pipes_of_none
    (h : Broken style (scanLine .code raw) none column base first parts out) :
    (scanLine .code first).pipes = [] ∧ ∀ q ∈ parts, (scanLine .code q.2).pipes = [] := by
  have hindent : ∀ c ∈ raw.takeWhile isIndent, isSpace c = true := fun _ => isSpace_of_mem_indent
  have hraw : raw = raw.takeWhile isIndent ++ _ := h.raw_eq
  have hpipes : chainPipes (byteLength (raw.takeWhile isIndent)) first parts = _ := h.pipes_eq
  rw [pipes_scanLine] at hpipes
  conv at hpipes => rhs; rw [hraw]
  rw [Cursor.begins_start.marks_plain fun c hc => isPlain_of_isSpace (hindent c hc),
    pipesInMarks_blanks hindent rfl, Nat.zero_add, ← h.begins.marks] at hpipes
  obtain ⟨hfirst, hparts⟩ := pipes_parts h.codeAhead_comment h.begins h.idleAtCuts hpipes.symm
  refine ⟨?_, hparts⟩
  rw [pipes_scanLine]
  exact pipesInMarks_eq_nil_of_offset hfirst 0

/-- A definition that is broken has no pipe but the cuts. What the chain starts from would have one
more if it stood apart from the equals sign. -/
theorem Broken.pipes_of_some {text : List Char}
    (h : Broken style (scanLine .code raw) (some text) column base first parts out) :
    (scanLine .code text).pipes = [] ∧
      pipesInMarks [] 0 0 (some '=') ((Cursor.start .code).marks first) = [] ∧
      ∀ q ∈ parts, (scanLine .code q.2).pipes = [] := by
  have hdef := h.head_eq text rfl
  obtain ⟨rest, hraw, halong⟩ := idleAlong_head hdef
  obtain ⟨code, hcode⟩ := definitionHead?_of_definition? hdef
  obtain ⟨hdepth, hlast⟩ := depth_of_beforeEquals? (Option.filter_eq_some_iff.mp hcode).1
  have hidle := Cursor.idle_run_of_idleAlong halong
  have hcodes := Cursor.kind_of_idleAlong halong
  have hrest : rest = chainText first parts ++ (scanLine .code raw).trailingComment?.getD [] := by
    have hraw' : raw = text ++ ['='] ++ _ := h.raw_eq
    rw [List.append_assoc] at hraw'
    exact (List.cons.inj (List.append_cancel_left (hraw.symm.trans hraw'))).2
  have hplain : ∀ c ∈ ['='], isPlain c = true := List.forall_mem_singleton.mpr (by decide)
  have hpipes := h.pipes_eq
  rw [Option.elim_some, byteLength_append, pipes_scanLine] at hpipes
  conv at hpipes => rhs; rw [hraw]
  rw [Cursor.marks_cut hidle, Cursor.marks,
    Cursor.advance_isPlain hidle (hplain _ List.mem_cons_self), pipesInMarks_append,
    pipesInMarks_code rfl, depthBehind_of_code hcodes, codeBefore_of_code hcodes, marks_map_char,
    hdepth, (Cursor.begins_plain (hplain _ List.mem_cons_self)).marks] at hpipes
  have hsize : byteLength ['='] = ('=' : Char).utf8Size := rfl
  have hpos := ('=' : Char).utf8Size_pos
  -- every pipe of the chain comes behind the equals sign
  have hhead : pipesInMarks
      (codeAhead [] (⟨'=', .code, ((Cursor.start .code).run ('=' :: rest) text).fresh⟩ ::
        (Cursor.start .code).marks rest)) 0 0 none ((Cursor.start .code).marks text) = [] := by
    refine List.eq_nil_iff_forall_not_mem.mpr fun q hq => ?_
    have hmem : q ∈ chainPipes (byteLength text + byteLength ['=']) first parts :=
      hpipes ▸ List.mem_append_left _ hq
    have hle := start_le_of_mem_chainPipes hmem
    have hlt := (offset_of_mem_pipesInMarks hq).2
    rw [marks_map_char] at hlt
    omega
  have hequals : pipeAt? [] 0 (text.getLast?.or none)
      ⟨'=', .code, ((Cursor.start .code).run ('=' :: rest) text).fresh⟩
      ((Cursor.start .code).marks rest) = none := by
    refine Option.eq_none_iff_forall_not_mem.mpr fun p hp => ?_
    rw [Option.mem_def.mp hp] at hpipes
    have hmem : (0 + byteLength text, p) ∈ chainPipes (byteLength text + byteLength ['='])
        first parts := by
      rw [hpipes]
      simp
    have hle := start_le_of_mem_chainPipes hmem
    simp only at hle
    omega
  have hflat : depthAfter 0 '=' = 0 := rfl
  rw [hhead, hequals] at hpipes
  simp only [Option.toList_none, List.map_nil, List.nil_append, hflat, Nat.zero_add] at hpipes
  rw [← hsize, hrest, ← h.begins.marks] at hpipes
  obtain ⟨hfirst, hparts⟩ := pipes_parts h.codeAhead_comment h.begins h.idleAtCuts hpipes.symm
  refine ⟨?_, pipesInMarks_eq_nil_of_offset hfirst 0, hparts⟩
  rw [pipes_scanLine, pipesInMarks_of_plain_last
    (by rw [codeBefore_of_code hcodes, marks_map_char]; exact hlast) [] _]
  exact hhead

theorem Broken.pipes_part (h : Broken style (scanLine .code raw) head column base first parts out) :
    ∀ q ∈ parts, (scanLine .code q.2).pipes = [] := by
  cases head with
  | none => exact h.pipes_of_none.2
  | some text => exact h.pipes_of_some.2.2

/-- What a chain starts from has a pipe only if that is glued to the equals sign before it. -/
theorem Broken.pipes_first_le
    (h : Broken style (scanLine .code raw) head column base first parts out) :
    (scanLine .code (trim first)).pipes.length ≤ 1 := by
  obtain ⟨more, htrim⟩ := ScannedLine.pipes_trim first
  have hlength : (scanLine .code (trim first)).pipes.length =
      (scanLine .code first).pipes.length := by
    rw [htrim, List.length_map]
  rw [hlength]
  cases head with
  | none =>
    rw [h.pipes_of_none.1]
    exact Nat.zero_le 1
  | some text =>
    obtain ⟨-, hfirst, -⟩ := h.pipes_of_some
    rw [pipes_scanLine]
    generalize (Cursor.start .code).marks first = ms at hfirst
    cases ms with
    | nil => exact Nat.zero_le 1
    | cons m ms =>
      -- only the pipe that the first mark begins depends on what comes before it
      by_cases hm : m.kind = .code
      · rw [pipesInMarks_code hm, List.append_eq_nil_iff] at hfirst
        rw [pipesInMarks_code hm, hfirst.2, List.append_nil, List.length_map]
        exact Option.length_toList_le
      · rw [pipesInMarks_token hm] at hfirst
        rw [pipesInMarks_token hm, hfirst]
        exact Nat.zero_le 1

/-- The head of a definition is a line of code without pipes. -/
theorem Broken.headLine {text : List Char}
    (h : Broken style (scanLine .code raw) (some text) column base first parts out) :
    (scanLine .code (trim text ++ " =".toList)).isCodeLine = true ∧
      (scanLine .code (trim text ++ " =".toList)).pipes = [] := by
  obtain ⟨rest, -, hidle⟩ := idle_before_equals (h.head_eq text rfl)
  have hbehind : ((Cursor.start .code).run ['='] (trim text ++ [' '])).Idle :=
    Cursor.idle_run_trim_blank Cursor.rests_start Cursor.rests_start hidle (by simp) (by simp)
  have hsplit : trim text ++ " =".toList = (trim text ++ [' ']) ++ ['='] := by simp
  have hplain : isPlain '=' = true := by decide
  have hmarks : (Cursor.start .code).marks (trim text ++ " =".toList) =
      (Cursor.start .code).marks (trim text ++ [' ']) ++
        [⟨'=', .code, ((Cursor.start .code).run ['='] (trim text ++ [' '])).fresh⟩] := by
    rw [hsplit, Cursor.marks_cut hbehind, Cursor.marks, Cursor.advance_isPlain hbehind hplain]
    rfl
  constructor
  · have hshown :
        (Mark.mk '=' .code ((Cursor.start .code).run ['='] (trim text ++ [' '])).fresh).shown =
        true := rfl
    rw [ScannedLine.isCodeLine_scanLine, Cursor.shows, hmarks, List.any_append,
      List.any_cons, hshown]
    simp
  · have hblank : ∀ b ∈ [' '], isSpace b = true := List.forall_mem_singleton.mpr rfl
    have hpipes := h.pipes_of_some.1
    rw [← ScannedLine.pipes_trim_eq_nil_iff, ← ScannedLine.pipes_append_space hblank,
      pipes_scanLine] at hpipes
    rw [pipes_scanLine, hmarks, pipesInMarks_append, List.append_eq_nil_iff]
    constructor
    · -- the equals sign is an operator character, but it stands behind a blank
      rw [pipesInMarks_of_plain_last ?_ _ []]
      · exact hpipes
      · rcases codeBefore_cases none ((Cursor.start .code).marks (trim text ++ [' ']))
          with hnone | hlast
        · rw [hnone]
          rfl
        · rw [hlast, marks_map_char, List.getLast?_concat]
          rfl
    · have hnone : ∀ prev, Pipe.at? prev ['='] = none := by
        intro prev
        refine Option.eq_none_iff_forall_not_mem.mpr fun p hp => ?_
        have hrun := (Pipe.at?_eq_some_iff.mp hp).2
        cases p <;> exact absurd hrun (by decide)
      rw [pipesInMarks_code rfl, pipeAt?, codeAhead, hnone, ite_self]
      rfl

/-- The comment behind a piece, set off by one blank, brings no pipe with it. -/
theorem Broken.pipes_comment
    (h : Broken style (scanLine .code raw) head column base first parts out) {comment : List Char}
    (hcomment : (scanLine .code raw).trailingComment? = some comment) {q : Pipe × List Char}
    (hq : q ∈ parts) : (scanLine .code (trim q.2 ++ ' ' :: comment)).pipes = [] := by
  obtain ⟨c, rest, rfl, hc⟩ := h.comment_opens comment hcomment
  have hquote : (c :: rest).head? ≠ some '\'' := by
    rcases hc with rfl | rfl <;> simp
  have hcuts := h.idleAtCuts
  have hrests := h.begins.rests
  rw [hcomment, Option.getD_some] at hcuts hrests
  obtain ⟨s, later, hs, hidle, hlater⟩ := hcuts.idle_of_mem hrests hquote hq
  have hbehind : ((Cursor.start .code).run (c :: rest) (trim q.2 ++ [' '])).Idle :=
    Cursor.idle_run_trim_blank hs Cursor.rests_start hidle hlater hquote
  have hmarks := h.marks_comment hbehind
  rw [hcomment, Option.getD_some] at hmarks
  have hsplit : trim q.2 ++ ' ' :: c :: rest = (trim q.2 ++ [' ']) ++ c :: rest := by simp
  have hblank : ∀ b ∈ [' '], isSpace b = true := List.forall_mem_singleton.mpr rfl
  have hpipes := h.pipes_part q hq
  rw [← ScannedLine.pipes_trim_eq_nil_iff, ← ScannedLine.pipes_append_space hblank, pipes_scanLine]
    at hpipes
  rw [pipes_scanLine, hsplit, Cursor.marks_cut hbehind, hmarks, pipesInMarks_append,
    codeAhead_commentMarks [] (List.cons_ne_nil c rest), hpipes, List.nil_append]
  apply pipesInMarks_eq_nil
  intro m hm
  rw [kind_of_mem_commentMarks hm]
  decide

end Broken

structure IsLink (text : List Char) : Prop where
  isCodeLine : (scanLine .code text).isCodeLine = true
  startsWithPipe : (scanLine .code text).startsWithPipe = true
  one : (scanLine .code text).pipes.length = 1
  head : ∀ c ∈ text.head?, isIndent c = false

/-- A link of a chain reads as a link if no other pipe stands in it. -/
theorem isLink_render (p : Pipe) (text : List Char) {more : List Char}
    (hmore : ∀ c ∈ more.head?, c = ' ') (hpipes : (scanLine .code (text ++ more)).pipes = []) :
    IsLink (Link.render ⟨some p, text⟩ ++ more) := by
  have hlink := pipes_link (p := p) hmore hpipes
  obtain ⟨c, cs, hp⟩ := List.exists_cons_of_ne_nil p.text_ne_nil
  obtain ⟨rest, hrest⟩ := head_render hp text more
  have hop : isOperatorChar c = true := Pipe.isOperatorChar_of_mem_text (hp ▸ List.mem_cons_self)
  have hspace : isSpace c = false := by
    cases hc : isSpace c with
    | false => rfl
    | true => exact absurd (not_operator_of_isSpace hc) (by simp [hop])
  refine ⟨isCodeLine_link p text more, ?_, by rw [hlink]; rfl, ?_⟩
  · rw [ScannedLine.startsWithPipe_iff, hlink, hrest, List.takeWhile_cons_of_neg (by simp [hspace])]
    exact ⟨p, rfl⟩
  · intro d hd
    rw [hrest] at hd
    cases hd
    cases hindent : isIndent c with
    | false => rfl
    | true =>
      rw [isSpace_of_isIndent hindent] at hspace
      cases hspace

def linkTexts (comment : Option (List Char)) : List Link → List (List Char)
  | [] => []
  | [k] => [k.render ++ comment.elim [] (' ' :: ·)]
  | k :: ks => k.render :: linkTexts comment ks

theorem linkTexts_cons (comment : Option (List Char)) (k : Link) {ks : List Link} (h : ks ≠ []) :
    linkTexts comment (k :: ks) = k.render :: linkTexts comment ks := by
  rw [linkTexts]
  exact h

theorem linkLines_eq_map (style : Style) (cols : Nat) (comment : Option (List Char))
    (links : List Link) :
    linkLines style cols comment links = (linkTexts comment links).map (style.place cols) := by
  induction links with
  | nil => rfl
  | cons k ks ih =>
    cases ks with
    | nil => rfl
    | cons k' ks => rw [linkLines, linkTexts, List.map_cons, ih] <;> simp

/-- The text of a link's line is the link, perhaps with the comment behind it. -/
theorem mem_linkTexts {comment : Option (List Char)} {links : List Link} {text : List Char}
    (h : text ∈ linkTexts comment links) :
    ∃ k ∈ links, text = k.render ∨ text = k.render ++ comment.elim [] (' ' :: ·) := by
  induction links with
  | nil => cases h
  | cons k ks ih =>
    cases ks with
    | nil => exact ⟨k, List.mem_cons_self, .inr (List.mem_singleton.mp h)⟩
    | cons k' ks =>
      rcases List.mem_cons.mp h with rfl | h
      · exact ⟨k, List.mem_cons_self, .inl rfl⟩
      · obtain ⟨k'', hk, htext⟩ := ih h
        exact ⟨k'', List.mem_cons_of_mem k hk, htext⟩

section Broken

variable {style : Style} {head : Option (List Char)} {column base : Nat} {raw first : List Char}
  {parts : List (Pipe × List Char)} {out : List (List Char)}

/-- Each line that a line with pipes is broken into reads as a link. -/
theorem Broken.isLink (h : Broken style (scanLine .code raw) head column base first parts out) :
    ∀ text ∈ linkTexts (scanLine .code raw).trailingComment? (parts.map fun q =>
      ⟨some q.1, trim q.2⟩), IsLink text := by
  intro text htext
  obtain ⟨k, hk, htext⟩ := mem_linkTexts htext
  obtain ⟨q, hq, rfl⟩ := List.mem_map.mp hk
  have hplain : IsLink (Link.render ⟨some q.1, trim q.2⟩) := by
    have hnone : ∀ c ∈ ([] : List Char).head?, c = ' ' := nofun
    have hlink := isLink_render q.1 (trim q.2) hnone
    rw [List.append_nil, List.append_nil] at hlink
    exact hlink ((ScannedLine.pipes_trim_eq_nil_iff q.2).mpr (h.pipes_part q hq))
  rcases htext with rfl | rfl
  · exact hplain
  · cases hcomment : (scanLine .code raw).trailingComment? with
    | none =>
      rw [Option.elim_none, List.append_nil]
      exact hplain
    | some comment =>
      apply isLink_render
      · intro c hc
        cases hc
        rfl
      · exact h.pipes_comment hcomment hq

/-- All lines of a chain start in code. -/
theorem scanFrom_linkLines (style : Style) (cols : Nat) (comment : Option (List Char))
    (pipe : Option Pipe) (parts : List (Pipe × List Char)) {s : Cursor} (hs : s.Rests)
    (first : List Char) (hidle : IdleAtCuts s (comment.getD []) first parts) :
    scanFrom .code (linkLines style cols comment
      (⟨pipe, trim first⟩ :: parts.map fun q => ⟨some q.1, trim q.2⟩)) =
      (linkLines style cols comment
        (⟨pipe, trim first⟩ :: parts.map fun q => ⟨some q.1, trim q.2⟩)).map
        (scanLine .code) := by
  induction parts generalizing pipe s first with
  | nil => rfl
  | cons q parts ih =>
    obtain ⟨p, text⟩ := q
    obtain ⟨hbefore, hlater⟩ := hidle
    have hends := endsIn_link_of_idle style cols pipe hs hbefore
    have hnext := ih (some p) (Cursor.rests_run_pipe hbefore p _) text hlater
    rw [List.map_cons, linkLines, scanFrom, hends, List.map_cons]
    · exact congrArg _ hnext
    · simp

/-- All lines of a broken line start in code. -/
theorem Broken.scanFrom_out
    (h : Broken style (scanLine .code raw) head column base first parts out) :
    scanFrom .code out = out.map (scanLine .code) := by
  have hcuts := h.idleAtCuts
  have hends := h.endsIn_first column
  rw [h.out_eq]
  obtain ⟨⟨p, text⟩, later, rfl⟩ := List.exists_cons_of_ne_nil h.parts_ne_nil
  have hlinks := scanFrom_linkLines style base (scanLine .code raw).trailingComment? (some p) later
    (Cursor.rests_run_pipe hcuts.1 p _) text hcuts.2
  rw [← List.map_cons (f := fun q : Pipe × List Char => Link.mk (some q.1) (trim q.2))
    (a := (p, text))] at hlinks
  have hfirst : ∀ rest : List (List Char), scanFrom .code rest = rest.map (scanLine .code) →
      scanFrom .code
      ((if (trim first).isEmpty then [] else [style.place column (trim first)]) ++ rest) =
        ((if (trim first).isEmpty then [] else [style.place column (trim first)]) ++ rest).map
        (scanLine .code) := by
    intro rest hrest
    split
    · exact hrest
    · rw [List.singleton_append, scanFrom, hends, List.map_cons]
      exact congrArg _ hrest
  cases hhead : head with
  | none => exact hfirst _ hlinks
  | some text =>
    rw [Option.elim_some, List.singleton_append, scanFrom,
      endsIn_headLine style _ (h.head_eq text hhead), List.map_cons]
    exact congrArg _ (hfirst _ hlinks)

end Broken

end Chains

end ScratchFormat
