import ScratchFormat.Proofs.Links
import ScratchFormat.Proofs.Modes

/-! A line with pipes that is broken into several. The scanner is idle at every pipe and before the
comment at the end, so each piece can be read on a line of its own: all but the last end in code,
and the last ends as the whole line did. -/

namespace ScratchFormat

namespace Cursor

def Rests (s : Cursor) : Prop := s.Idle ∧ s.prev.any isNameTail = false

theorem rests_start : (start .code).Rests := ⟨⟨rfl, rfl⟩, rfl⟩

theorem Rests.agrees {s t : Cursor} (hs : s.Rests) (ht : t.Rests) : s.Agrees t :=
  hs.1.agrees ht.1 (hs.2.trans ht.2.symm)

theorem Rests.run_space {s : Cursor} (hs : s.Rests) {bs : List Char}
    (hb : ∀ b ∈ bs, isSpace b = true) (rest : List Char) : (s.run rest bs).Rests := by
  have hagrees := agrees_run_space hs.1.2 hs.2 hb rest
  exact ⟨⟨hagrees.mode.trans hs.1.1, hagrees.owed.trans hs.1.2⟩, hagrees.name.trans hs.2⟩

theorem Idle.sound {s : Cursor} (hs : s.Idle) (cs : List Char) : s.Sound cs := by
  have howed := hs.2
  refine ⟨fun _ => hs.2, fun _ => hs.1, ?_, fun _ h => ?_, fun _ h => ?_⟩ <;> omega

theorem Idle.of_mode_run {s : Cursor} (hs : s.Idle) {rest cs : List Char}
    (h : (s.run rest cs).mode = .code) : (s.run rest cs).Idle :=
  ⟨h, (sound_run (hs.sound (cs ++ rest))).owed_of_code h⟩

/-- Characters that open nothing keep the scanner in code. -/
theorem advance_plain {s : Cursor} (hs : s.Idle) {c : Char}
    (hc : c ∉ ['"', '\'', '?', '-', '\x7b']) (rest : List Char) :
    (s.advance c rest).2 = ⟨.code, 0, false, false, some c⟩ := by
  simp only [List.mem_cons, List.not_mem_nil, or_false, not_or] at hc
  have hstep : stepCode s.prev c rest = .stay .code 0 := by
    simp [stepCode, hc.1, hc.2.1, hc.2.2.1, hc.2.2.2.1, hc.2.2.2.2]
  rw [advance_idle hs, hstep]

/-- Behind a pipe the scanner is idle, and the pipe does not go into a name. -/
theorem rests_run_pipe {s : Cursor} (hs : s.Idle) (p : Pipe) (rest : List Char) :
    (s.run rest p.text).Rests := by
  have hall : ∀ cs : List Char,
      (∀ c ∈ cs, c ∉ ['"', '\'', '?', '-', '\x7b'] ∧ isNameTail c = false) → cs ≠ [] → ∀ t : Cursor,
      t.Idle → (t.run rest cs).Rests := by
    intro cs
    induction cs with
    | nil => exact fun _ h => absurd rfl h
    | cons c cs ih =>
      intro hcs _ t ht
      obtain ⟨hc, hname⟩ := hcs c List.mem_cons_self
      rw [run, advance_plain ht hc]
      by_cases hne : cs = []
      · subst hne
        exact ⟨⟨rfl, rfl⟩, hname⟩
      · exact ih (fun d hd => hcs d (List.mem_cons_of_mem c hd)) hne _ ⟨rfl, rfl⟩
  have hplain :
      (p.text.all fun c => decide (c ∉ ['"', '\'', '?', '-', '\x7b']) && !isNameTail c) = true := by
    cases p <;> decide
  refine hall p.text (fun c hc => ?_) p.text_ne_nil s hs
  have hc := List.all_eq_true.mp hplain c hc
  rw [Bool.and_eq_true, decide_eq_true_eq, Bool.not_eq_true'] at hc
  exact hc

/-- A comment opens in the same way after a name and after a blank. -/
theorem advance_comment {s t : Cursor} (hs : s.Idle) (ht : t.Idle) {c : Char}
    (hc : c = '-' ∨ c = '\x7b') (rest : List Char) :
    (s.advance c rest).2 = (t.advance c rest).2 ∧
      (s.advance c rest).1.kind = (t.advance c rest).1.kind := by
  have hstep : stepCode s.prev c rest = stepCode t.prev c rest := by
    rcases hc with rfl | rfl <;> rfl
  rw [advance_idle hs, advance_idle ht, hstep]
  cases stepCode t.prev c rest with
  | leave n => cases n <;> exact ⟨rfl, rfl⟩
  | _ => exact ⟨rfl, rfl⟩

theorem trim_decompose (cs : List Char) :
    ∃ lead tail, cs = lead ++ (trim cs ++ tail) ∧
      (∀ c ∈ lead, isSpace c = true) ∧ ∀ c ∈ tail, isSpace c = true := by
  obtain ⟨tail, htail, hspace⟩ := dropEndWhile_append isSpace (trimStart cs)
  refine ⟨cs.takeWhile isSpace, tail, ?_, List.all_eq_true.mp List.all_takeWhile, hspace⟩
  rw [trim, htail, trimStart, List.takeWhile_append_dropWhile]

section Piece

variable {s t : Cursor} (hs : s.Rests) (ht : t.Rests)
include hs ht

/-- A piece up to a place where the scanner is idle, without the blanks around it, ends in code. -/
theorem mode_run_trim {piece rest : List Char} (hidle : (s.run rest piece).Idle)
    (hr : rest.head? ≠ some '\'') : (t.run [] (trim piece)).mode = .code := by
  obtain ⟨lead, tail, hpiece, hlead, htail⟩ := trim_decompose piece
  rw [hpiece, run_append] at hidle
  have hrest := hs.run_space hlead (trim piece ++ tail ++ rest)
  generalize s.run (trim piece ++ tail ++ rest) lead = u at hidle hrest
  have hmode : (u.run [] (trim piece)).mode = .code := by
    by_cases hne : tail = []
    · -- the piece ends at the place itself
      rw [hne, List.append_nil] at hidle
      rw [run_cut hidle]
      exact hidle.1
    · have hends : u.Ends (trim piece) := fun _ => by rw [hrest.1.2]; exact Nat.zero_le _
      rw [← mode_run_append_space hends htail (.inl hne) hr]
      exact hidle.1
  rw [← final_eq_mode_run] at hmode ⊢
  rw [(ht.agrees hrest).final, hmode]

/-- Behind such a piece and one blank the scanner is idle, whatever follows. -/
theorem idle_run_trim_blank {piece rest : List Char} (hidle : (s.run rest piece).Idle)
    (hr : rest.head? ≠ some '\'') {more : List Char} (hm : more.head? ≠ some '\'') :
    (t.run more (trim piece ++ [' '])).Idle := by
  have hends : t.Ends (trim piece) := fun _ => by rw [ht.1.2]; exact Nat.zero_le _
  apply ht.1.of_mode_run
  rw [mode_run_append_space hends (List.forall_mem_singleton.mpr rfl)
    (.inl (List.cons_ne_nil _ _)) hm]
  exact mode_run_trim hs ht hidle hr

/-- The last piece of a line ends as the line does. -/
theorem final_trim (piece : List Char) : t.final (trim piece) = s.final piece := by
  obtain ⟨lead, tail, hpiece, hlead, htail⟩ := trim_decompose piece
  have hends : s.Ends (trim piece) := fun _ => by rw [hs.1.2]; exact Nat.zero_le _
  conv => rhs; rw [hpiece]
  rw [final_space_append hs.1.2 hs.2 hlead, final_append_space hends htail, (ht.agrees hs).final]

/-- So it does with the comment that ends the line, which is set off by one blank. -/
theorem final_trim_comment {piece : List Char} {c : Char} {rest : List Char}
    (hidle : (s.run (c :: rest) piece).Idle) (hc : c = '-' ∨ c = '\x7b') :
    t.final (trim piece ++ ' ' :: c :: rest) = s.final (piece ++ c :: rest) := by
  have hr : (c :: rest).head? ≠ some '\'' := by
    rcases hc with rfl | rfl <;> simp
  have hidle' := idle_run_trim_blank hs ht hidle hr hr
  have hblank : trim piece ++ ' ' :: c :: rest = (trim piece ++ [' ']) ++ c :: rest := by simp
  rw [hblank, final_append, final_append, final, final, (advance_comment hidle' hidle hc rest).1]

end Piece

end Cursor

/-- In a stretch of code a pipe stands behind as many bytes as its offset says. -/
theorem ScannedLine.eq_append_of_mem_pipesInCode {offset depth : Nat} {prev : Option Char}
    {cs : List Char} {q : Nat × Pipe} (h : q ∈ pipesInCode offset depth prev cs) :
    ∃ as bs, cs = as ++ bs ∧ q.1 = offset + byteLength as := by
  induction cs generalizing offset depth prev with
  | nil => cases h
  | cons c cs ih =>
    have hlater : q ∈ pipesInCode (offset + c.utf8Size) (depthAfter depth c) (some c) cs →
        ∃ as bs, c :: cs = as ++ bs ∧ q.1 = offset + byteLength as := by
      intro hq
      obtain ⟨as, bs, hcs, hoffset⟩ := ih hq
      exact ⟨c :: as, bs, by rw [hcs]; rfl, by rw [hoffset, byteLength_cons, Nat.add_assoc]⟩
    rw [pipesInCode] at h
    split at h
    · rcases List.mem_cons.mp h with rfl | hq
      · exact ⟨[], c :: cs, rfl, rfl⟩
      · exact hlater hq
    · exact hlater h

/-- Before every pipe the scanner is idle. -/
theorem Lexed.idle_at_pipe {s : Cursor} {ts : List Segment} (h : Lexed s ts) {offset depth : Nat}
    {q : Nat × Pipe} (hq : q ∈ ScannedLine.pipesInSegments offset depth ts) :
    ∃ as bs, ts.flatMap Segment.text = as ++ bs ∧ q.1 = offset + byteLength as ∧
      (s.run bs as).Idle := by
  induction h generalizing offset depth with
  | nil s => cases hq
  | @code s text ts hidle hnext h ih =>
    rw [ScannedLine.pipesInSegments, if_pos rfl] at hq
    rcases List.mem_append.mp hq with hq | hq
    · obtain ⟨as, bs, rfl, hoffset⟩ := ScannedLine.eq_append_of_mem_pipesInCode hq
      refine ⟨as, bs ++ ts.flatMap Segment.text, by simp, hoffset, ?_⟩
      exact Cursor.idle_of_idleAlong (Cursor.idleAlong_append hidle)
    · obtain ⟨as, bs, hts, hoffset, hrun⟩ := ih hq
      refine ⟨text ++ as, bs, by simp [hts], ?_, ?_⟩
      · rw [hoffset, byteLength_append, Nat.add_assoc]
      · rwa [Cursor.run_append, ← hts]
  | @token s kind c text ts hkind hmark hbusy hidle h ih =>
    rw [ScannedLine.pipesInSegments, if_neg hkind] at hq
    obtain ⟨as, bs, hts, hoffset, hrun⟩ := ih hq
    refine ⟨c :: text ++ as, bs, by simp [hts], ?_, ?_⟩
    · rw [hoffset, byteLength_append, Nat.add_assoc]
    · rwa [Cursor.run_append, ← hts]

/-- A pipe is found where the scanner is idle. -/
theorem idle_before_pipe {mode : Mode} {raw as bs : List Char} {q : Nat × Pipe}
    (hq : q ∈ (scanLine mode raw).pipes) (hraw : raw = as ++ bs) (hbytes : byteLength as = q.1) :
    ((Cursor.start mode).run bs as).Idle := by
  obtain ⟨as', bs', hsplit, hoffset, hidle⟩ :=
    (lexed_ofMarks (Cursor.sound_start mode raw)).idle_at_pipe hq
  rw [ofMarks_flatMap_text, marks_map_char] at hsplit
  rw [Nat.zero_add] at hoffset
  -- two beginnings of the line with as many bytes are the same
  have hsame : as = as' := by
    have hpre : as <+: raw := ⟨bs, hraw.symm⟩
    have hpre' : as' <+: raw := ⟨bs', hsplit.symm⟩
    have hle := prefix_of_byteLength_le hpre hpre' (by omega)
    have hge := prefix_of_byteLength_le hpre' hpre (by omega)
    exact hle.eq_of_length_le hge.length_le
  subst hsame
  rw [hraw] at hsplit
  rwa [List.append_cancel_left hsplit]

theorem Lexed.idle_at_last {s : Cursor} {ts : List Segment} {t : Segment} (h : Lexed s (ts ++ [t]))
    (hne : ts ≠ []) :
    (s.run t.text (ts.flatMap Segment.text)).Idle ∧
      Lexed (s.run t.text (ts.flatMap Segment.text)) [t] := by
  obtain ⟨hlexed, hidle⟩ := h.behind
  rw [List.flatMap_singleton] at hlexed hidle
  exact ⟨hidle hne (List.cons_ne_nil t []), hlexed⟩

/-- A comment opens with a minus sign or a brace. -/
theorem head_of_comment {s : Cursor} (hs : s.Idle) {c : Char} {rest : List Char}
    (h : (s.advance c rest).1.kind = .comment) : c = '-' ∨ c = '\x7b' := by
  have henter : ∀ mode n, stepCode s.prev c rest = .enter mode n → mode.kind = .comment →
      c = '-' ∨ c = '\x7b' := by
    intro mode n hstep hkind
    unfold stepCode at hstep
    split at hstep
    · split at hstep <;> cases hstep <;> cases hkind
    split at hstep
    · split at hstep <;> cases hstep
      cases hkind
    split at hstep
    · split at hstep
      · cases hstep
      · split at hstep <;> cases hstep
    split at hstep
    · rename_i hc
      exact .inl hc.1
    split at hstep
    · rename_i hc
      exact .inr hc.1
    split at hstep
    · rename_i hc
      exact .inr hc.1
    · cases hstep
  have hfits := stepCode_fits s.prev c rest
  rw [Cursor.advance_idle hs] at h
  cases hstep : stepCode s.prev c rest with
  | stay mode n =>
    rw [hstep] at h
    cases h
  | enter mode n =>
    rw [hstep] at h
    exact henter mode n hstep h
  | whole n =>
    rw [hstep] at h
    cases h
  | leave n =>
    rw [hstep] at hfits
    exact absurd rfl hfits.1

/-- Before the comment at the end of a line the scanner is idle, and then it stays busy. -/
theorem lexed_comment {mode : Mode} {raw body comment : List Char}
    (hcomment : (scanLine mode raw).trailingComment? = some comment)
    (hraw : raw = body ++ comment) :
    ((Cursor.start mode).run comment body).Idle ∧
      Lexed ((Cursor.start mode).run comment body) [⟨.comment, comment⟩] := by
  have hlexed := lexed_ofMarks (Cursor.sound_start mode raw)
  have hflat := segments_flatMap_text mode raw
  have hsegments : (scanLine mode raw).segments = Segment.ofMarks ((Cursor.start mode).marks raw) :=
    rfl
  rw [← hsegments] at hlexed
  unfold ScannedLine.trailingComment? at hcomment
  split at hcomment
  · rename_i t hlast
    split at hcomment
    · rename_i ht
      cases hcomment
      obtain ⟨ts, hts⟩ := List.getLast?_eq_some_iff.mp hlast
      rw [hts] at hlexed hflat
      have hbody : ts.flatMap Segment.text = body := by
        rw [List.flatMap_append, List.flatMap_singleton, hraw] at hflat
        exact List.append_cancel_right hflat
      have hne : ts ≠ [] := by
        rintro rfl
        rw [hts] at ht
        exact absurd ht.2 (Nat.lt_irrefl 1)
      have hkind : t = ⟨.comment, t.text⟩ := by rw [← ht.1]
      have hidle := hlexed.idle_at_last hne
      rw [hbody] at hidle
      rwa [← hkind]
    · cases hcomment
  · cases hcomment

/-- Before the comment at the end of a line the scanner is idle. -/
theorem idle_before_comment {mode : Mode} {raw body comment : List Char}
    (hcomment : (scanLine mode raw).trailingComment? = some comment)
    (hraw : raw = body ++ comment) :
    ((Cursor.start mode).run comment body).Idle ∧
      ∃ c rest, comment = c :: rest ∧ (c = '-' ∨ c = '\x7b') := by
  obtain ⟨hidle, hlexed⟩ := lexed_comment hcomment hraw
  refine ⟨hidle, ?_⟩
  cases hlexed with
  | token hkind hmark => exact ⟨_, _, rfl, head_of_comment hidle hmark⟩

namespace Chains

@[simp] theorem chainText_nil (first : List Char) : chainText first [] = first :=
  List.append_nil first

theorem chainText_cons (first : List Char) (p : Pipe) (text : List Char)
    (parts : List (Pipe × List Char)) :
    chainText first ((p, text) :: parts) = first ++ (p.text ++ chainText text parts) := by
  simp [chainText]

theorem final_chain (s : Cursor) (front first : List Char) (p : Pipe) (text : List Char)
    (parts : List (Pipe × List Char)) (post : List Char) :
    s.final (front ++ (chainText first ((p, text) :: parts) ++ post)) =
      (((s.run (chainText first ((p, text) :: parts) ++ post) front).run
        (p.text ++ (chainText text parts ++ post)) first).run
          (chainText text parts ++ post) p.text).final
          (chainText text parts ++ post) := by
  rw [Cursor.final_append, chainText_cons, List.append_assoc, List.append_assoc]
  exact (Cursor.final_append _ first _).trans (Cursor.final_append _ p.text _)

def IdleAtCuts (s : Cursor) (post first : List Char) : List (Pipe × List Char) → Prop
  | [] => post ≠ [] → (s.run post first).Idle
  | (p, text) :: parts =>
    let before := s.run (p.text ++ (chainText text parts ++ post)) first
    before.Idle ∧ IdleAtCuts (before.run (chainText text parts ++ post) p.text) post text parts

/-- A chain that is cut at its own pipes is cut where the scanner is idle. -/
theorem idleAtCuts_of_pipes {mode : Mode} {raw front post first : List Char}
    {parts : List (Pipe × List Char)} (hraw : raw = front ++ (chainText first parts ++ post))
    (hpipes : ∀ q ∈ chainPipes (byteLength front) first parts, q ∈ (scanLine mode raw).pipes)
    (hpost : post ≠ [] → ((Cursor.start mode).run post (front ++ chainText first parts)).Idle) :
    IdleAtCuts ((Cursor.start mode).run (chainText first parts ++ post) front) post
      first parts := by
  induction parts generalizing front first with
  | nil =>
    intro hne
    rw [chainText_nil] at hpost ⊢
    rw [← Cursor.run_append]
    exact hpost hne
  | cons q parts ih =>
    obtain ⟨p, text⟩ := q
    rw [chainText_cons, List.append_assoc, List.append_assoc] at hraw ⊢
    have hbefore : ((Cursor.start mode).run (p.text ++ (chainText text parts ++ post))
        (front ++ first)).Idle := by
      refine idle_before_pipe (hpipes _ List.mem_cons_self) (by rw [hraw, List.append_assoc]) ?_
      rw [byteLength_append]
    -- the next piece begins behind the pipe
    have hbytes : byteLength (front ++ first ++ p.text) = byteLength front + byteLength first +
        p.text.length := by
      rw [byteLength_append, byteLength_append, Pipe.byteLength_text]
    have hlater : IdleAtCuts
        ((Cursor.start mode).run (chainText text parts ++ post) (front ++ first ++ p.text))
        post text parts := by
      refine ih (by rw [hraw]; simp) (fun q hq => hpipes q (List.mem_cons_of_mem _ ?_)) ?_
      · rwa [hbytes] at hq
      · simpa [chainText_cons] using hpost
    rw [Cursor.run_append] at hbefore hlater
    rw [Cursor.run_append] at hlater
    exact ⟨hbefore, hlater⟩

/-- A link on a line of its own, in any column, is read like its text by a scanner that rests. -/
theorem endsIn_link (style : Style) (cols : Nat) (k : Link) (more : List Char) :
    ∃ t : Cursor, t.Rests ∧
      (scanLine .code (style.place cols (k.render ++ more))).endsIn = t.final (k.text ++ more) := by
  have hindent : ∀ c ∈ style.render cols, isSpace c = true := fun _ hc =>
    isSpace_of_isIndent (isIndent_of_mem_render hc)
  have hrests := Cursor.rests_start.run_space hindent (k.render ++ more)
  have hends : (scanLine .code (style.place cols (k.render ++ more))).endsIn =
      ((Cursor.start .code).run (k.render ++ more) (style.render cols)).final (k.render ++ more) :=
    Cursor.final_append _ _ _
  rw [hends]
  generalize (Cursor.start .code).run (k.render ++ more) (style.render cols) = u at hrests
  cases hpipe : k.pipe with
  | none => exact ⟨u, hrests, by rw [Link.render, hpipe]⟩
  | some p =>
    by_cases htext : k.text = []
    · refine ⟨u.run more p.text, Cursor.rests_run_pipe hrests.1 p more, ?_⟩
      simp only [Link.render, hpipe, htext, List.isEmpty_nil, if_true, List.nil_append]
      rw [Cursor.final_append]
    · have hpipe' := Cursor.rests_run_pipe hrests.1 p ([' '] ++ (k.text ++ more))
      have hblank : ∀ b ∈ [' '], isSpace b = true := List.forall_mem_singleton.mpr rfl
      refine ⟨_, hpipe'.run_space hblank (k.text ++ more), ?_⟩
      have hrender : k.render ++ more = p.text ++ ([' '] ++ (k.text ++ more)) := by
        simp [Link.render, hpipe, htext]
      rw [hrender, Cursor.final_append, Cursor.final_append]

/-- The line of a piece before a pipe ends in code. -/
theorem endsIn_link_of_idle (style : Style) (cols : Nat) (pipe : Option Pipe) {s : Cursor}
    (hs : s.Rests) {first later : List Char} {p : Pipe}
    (hidle : (s.run (p.text ++ later) first).Idle) :
    (scanLine .code (style.place cols (Link.mk pipe (trim first)).render)).endsIn = .code := by
  have hhead : (p.text ++ later).head? ≠ some '\'' := by
    cases p <;> simp [Pipe.text]
  obtain ⟨t, ht, hends⟩ := endsIn_link style cols ⟨pipe, trim first⟩ []
  rwa [List.append_nil, List.append_nil, Cursor.final_eq_mode_run,
    Cursor.mode_run_trim hs ht hidle hhead] at hends

/-- The lines of a chain leave the scanner in the mode that the text of the chain leaves. -/
theorem modeBelow_linkLines (style : Style) (cols : Nat) {comment : Option (List Char)}
    (hcomment : ∀ text ∈ comment, ∃ c rest, text = c :: rest ∧ (c = '-' ∨ c = '\x7b'))
    (pipe : Option Pipe) (parts : List (Pipe × List Char)) {s : Cursor} (hs : s.Rests)
    (first : List Char) (hidle : IdleAtCuts s (comment.getD []) first parts) :
    modeBelow .code (linkLines style cols comment
        (⟨pipe, trim first⟩ :: parts.map fun q => ⟨some q.1, trim q.2⟩)) =
      (s.final (chainText first parts ++ comment.getD [])).carried := by
  induction parts generalizing pipe s first with
  | nil =>
    obtain ⟨t, ht, hends⟩ := endsIn_link style cols ⟨pipe, trim first⟩ (comment.elim [] (' ' :: ·))
    rw [List.map_nil, linkLines, modeBelow, modeBelow, hends]
    cases comment with
    | none =>
      have hfinal := Cursor.final_trim hs ht first
      simpa [chainText] using congrArg Mode.carried hfinal
    | some text =>
      obtain ⟨c, rest, rfl, hc⟩ := hcomment text rfl
      have hfinal := Cursor.final_trim_comment hs ht (hidle (by simp)) hc
      simpa [chainText] using congrArg Mode.carried hfinal
  | cons q parts ih =>
    obtain ⟨p, text⟩ := q
    obtain ⟨hbefore, hlater⟩ := hidle
    have hends := endsIn_link_of_idle style cols pipe hs hbefore
    have hnext := ih (some p) (Cursor.rests_run_pipe hbefore p _) text hlater
    rw [List.map_cons, linkLines, modeBelow, hends]
    · rw [chainText_cons, List.append_assoc, List.append_assoc, Cursor.final_append,
        Cursor.final_append]
      exact hnext
    · simp

/-- Each line of links is a link in its column, the last one perhaps with the comment behind it. -/
theorem mem_linkLines {style : Style} {cols : Nat} {comment : Option (List Char)}
    {links : List Link} {m : List Char} (h : m ∈ linkLines style cols comment links) :
    ∃ k ∈ links, m = style.place cols k.render ∨
      m = style.place cols (k.render ++ comment.elim [] (' ' :: ·)) := by
  induction links with
  | nil => cases h
  | cons k ks ih =>
    by_cases hks : ks = []
    · subst hks
      exact ⟨k, List.mem_cons_self, .inr (List.mem_singleton.mp h)⟩
    · rw [linkLines] at h
      · rcases List.mem_cons.mp h with rfl | h
        · exact ⟨k, List.mem_cons_self, .inl rfl⟩
        · obtain ⟨k', hk', hm⟩ := ih h
          exact ⟨k', List.mem_cons_of_mem k hk', hm⟩
      · exact hks

/-- How a line with pipes is broken: the head of its definition goes on a line of its own, and so do
what the chain starts from, if that is not blank, and the links. -/
structure Broken (style : Style) (l : ScannedLine) (head : Option (List Char)) (column base : Nat)
    (first : List Char) (parts : List (Pipe × List Char)) (out : List (List Char)) : Prop where
  head_eq : ∀ h ∈ head, definition? l = some h
  raw_eq : l.raw = head.elim (l.raw.takeWhile isIndent) (· ++ ['=']) ++
    (chainText first parts ++ l.trailingComment?.getD [])
  pipes_eq : chainPipes (byteLength (head.elim (l.raw.takeWhile isIndent) (· ++ ['=']))) first
    parts = l.pipes
  parts_ne_nil : parts ≠ []
  out_eq :
    out = (head.elim [] fun h => [style.place (style.columns l.raw) (trim h ++ " =".toList)]) ++
    ((if (trim first).isEmpty then [] else [style.place column (trim first)]) ++
      linkLines style base l.trailingComment? (parts.map fun q => ⟨some q.1, trim q.2⟩))

/-- The lines of a broken line one by one. -/
theorem Broken.mem_out {style : Style} {l : ScannedLine} {head : Option (List Char)}
    {column base : Nat} {first : List Char} {parts : List (Pipe × List Char)}
    {out : List (List Char)} (h : Broken style l head column base first parts out) {m : List Char}
    (hm : m ∈ out) :
    (∃ text ∈ head, m = style.place (style.columns l.raw) (trim text ++ " =".toList)) ∨
      m = style.place column (trim first) ∨
      ∃ q ∈ parts, m = style.place base (Link.render ⟨some q.1, trim q.2⟩) ∨
        m = style.place base
          (Link.render ⟨some q.1, trim q.2⟩ ++ l.trailingComment?.elim [] (' ' :: ·)) := by
  rw [h.out_eq, List.mem_append, List.mem_append] at hm
  rcases hm with hm | hm | hm
  · cases head with
    | none => cases hm
    | some text => exact .inl ⟨text, rfl, List.mem_singleton.mp hm⟩
  · split at hm
    · cases hm
    · exact .inr (.inl (List.mem_singleton.mp hm))
  · obtain ⟨k, hk, hm⟩ := mem_linkLines hm
    obtain ⟨q, hq, rfl⟩ := List.mem_map.mp hk
    exact .inr (.inr ⟨q, hq, hm⟩)

theorem linksOf_none {first : List Char} {parts : List (Pipe × List Char)} (hne : parts ≠ []) :
    linksOf none first parts = (if (trim first).isEmpty then [] else [⟨none, trim first⟩]) ++
      parts.map fun q => ⟨some q.1, trim q.2⟩ := by
  cases h : (trim first).isEmpty <;> simp [linksOf, hne, h]

/-- The lines of a chain: what it starts from, if that is not blank, and a line for each pipe. -/
theorem linkLines_linksOf (style : Style) (cols : Nat) (comment : Option (List Char))
    {first : List Char} {parts : List (Pipe × List Char)} (hne : parts ≠ []) :
    linkLines style cols comment (linksOf none first parts) =
      (if (trim first).isEmpty then [] else [style.place cols (trim first)]) ++
        linkLines style cols comment (parts.map fun q => ⟨some q.1, trim q.2⟩) := by
  rw [linksOf_none hne]
  cases h : (trim first).isEmpty with
  | true => rfl
  | false =>
    rw [if_neg Bool.false_ne_true, if_neg Bool.false_ne_true, List.singleton_append, linkLines]
    · rfl
    · simpa using hne

/-- A line that starts with a pipe is put in the column of its chain, whole or in pieces. -/
theorem continueChain_cases (style : Style) (s : Chains) {l : ScannedLine}
    (hl : l.raw = l.segments.flatMap Segment.text) {base : Nat}
    (hbase : base = s.joinColumn style (style.columns l.raw)) :
    (continueChain style s l).1 = ⟨some base, some base⟩ ∧
      ((l.pipes.length ≤ 1 ∧ (continueChain style s l).2.lines =
        [style.place base (l.raw.dropWhile isIndent)]) ∨
        (1 < l.pipes.length ∧ ∃ first parts,
          Broken style l none base base first parts (continueChain style s l).2.lines)) := by
  subst hbase
  refine ⟨rfl, ?_⟩
  by_cases hmany : 1 < l.pipes.length
  · have hpipes : l.pipes ≠ [] := List.ne_nil_of_length_pos (by omega)
    obtain ⟨first, parts, hrest, hparts, hsplit⟩ := split?_eq hl hpipes
      (List.takeWhile_append_dropWhile (p := isIndent) (l := l.raw)).symm
        (byteLength_indent_le_pipe hl)
    have hne := parts_ne_nil hparts hpipes
    refine .inr ⟨hmany, first, parts, nofun, ?_, hparts, hne, ?_⟩
    · rw [Option.elim_none, ← hrest, List.takeWhile_append_dropWhile]
    · simp only [continueChain, Style.measure, if_pos hmany, hsplit, Option.elim_some,
        Option.elim_none, List.nil_append]
      exact linkLines_linksOf style _ _ hne
  · refine .inl ⟨Nat.not_lt.mp hmany, ?_⟩
    simp only [continueChain, Style.measure, if_neg hmany]

/-- What a broken line leaves behind: its columns, and lines that are cut out of it. -/
theorem breakChain_cases (style : Style) {l : ScannedLine}
    (hl : l.raw = l.segments.flatMap Segment.text) (hpipes : l.pipes ≠ []) {column : Nat}
    (hcolumn : column = startColumn style (definition? l) (style.columns l.raw)) :
    (breakChain style l).1 = ⟨some (column + style.colsOf 1), some (column + style.colsOf 1)⟩ ∧
      ∃ first parts, brokenLinks? l (definition? l) = some (linksOf none first parts) ∧
        Broken style l (definition? l) column (column + style.colsOf 1) first parts
          (breakChain style l).2.lines := by
  subst hcolumn
  obtain ⟨first, parts, hraw, hparts, hlinks⟩ := brokenLinks?_eq hl hpipes
  have hne := parts_ne_nil hparts hpipes
  unfold breakChain
  simp only [hlinks]
  refine ⟨trivial, first, parts, rfl, fun h hh => hh, hraw, hparts, hne, ?_⟩
  congr 1
  rw [linksOf_none hne]
  cases (trim first).isEmpty with
  | false => rfl
  | true =>
    obtain ⟨q, qs, rfl⟩ := List.exists_cons_of_ne_nil hne
    rfl

/-- What becomes of a line: it stays, or it is a line of code and is put in the column of its chain,
or it is broken. -/
theorem rule_cases (style : Style) (s : Chains) {l : ScannedLine}
    (hl : l.raw = l.segments.flatMap Segment.text) :
    rule style s l = (s, .line l.raw) ∨
      (l.isCodeLine = true ∧ rule style s l =
        (⟨s.base.filter (· < style.columns l.raw), some (style.columns l.raw)⟩, .line l.raw)) ∨
      (l.isCodeLine = true ∧ ∃ base, base = s.joinColumn style (style.columns l.raw) ∧
        (rule style s l).1 = ⟨some base, some base⟩ ∧
        ((rule style s l).2.lines = [style.place base (l.raw.dropWhile isIndent)] ∨
          ∃ first parts, Broken style l none base base first parts (rule style s l).2.lines)) ∨
      (l.isCodeLine = true ∧ ∃ column, column =
        startColumn style (definition? l) (style.columns l.raw) ∧
        (rule style s l).1 = ⟨some (column + style.colsOf 1), some (column + style.colsOf 1)⟩ ∧
        ∃ first parts, Broken style l (definition? l) column (column + style.colsOf 1) first parts
          (rule style s l).2.lines) := by
  unfold rule
  split
  · exact .inl rfl
  rename_i hcode
  have hcode : l.isCodeLine = true := by simpa using hcode
  split
  · obtain ⟨hstate, hlines⟩ := continueChain_cases style s hl rfl
    exact .inr (.inr (.inl ⟨hcode, _, rfl, hstate, hlines.imp And.right And.right⟩))
  split
  · exact .inr (.inl ⟨hcode, rfl⟩)
  · obtain ⟨hstate, first, parts, -, hbroken⟩ :=
      breakChain_cases style hl (List.ne_nil_of_length_pos (by omega)) rfl
    exact .inr (.inr (.inr ⟨hcode, _, rfl, hstate, first, parts, hbroken⟩))

/-- Up to its equals sign the head of a definition is code. -/
theorem idleAlong_head {raw head : List Char} (h : definition? (scanLine .code raw) = some head) :
    ∃ rest, raw = head ++ '=' :: rest ∧ (Cursor.start .code).IdleAlong ('=' :: rest) head := by
  have hlexed := lexed_ofMarks (Cursor.sound_start .code raw)
  have hflat := segments_flatMap_text .code raw
  have hsegments : (scanLine .code raw).segments =
      Segment.ofMarks ((Cursor.start .code).marks raw) := rfl
  rw [← hsegments] at hlexed
  unfold definition? at h
  split at h
  · split at h
    · cases h
    · rename_i first later hsegs
      split at h
      · rename_i hkind
        obtain ⟨rest, hrest⟩ := eq_append_of_definitionHead? (Option.filter_eq_some_iff.mp h).1
        obtain ⟨kind, text⟩ := first
        simp only at hkind hrest
        subst hkind hrest
        rw [hsegs] at hlexed hflat
        obtain ⟨hidle, -, -⟩ := hlexed.of_code
        refine ⟨rest ++ later.flatMap Segment.text, by rw [← hflat]; simp, ?_⟩
        exact Cursor.idleAlong_front hidle
      · cases h
  · cases h

theorem idle_before_equals {raw head : List Char}
    (h : definition? (scanLine .code raw) = some head) :
    ∃ rest, raw = head ++ '=' :: rest ∧ ((Cursor.start .code).run ('=' :: rest) head).Idle := by
  obtain ⟨rest, hraw, hidle⟩ := idleAlong_head h
  exact ⟨rest, hraw, Cursor.idle_run_of_idleAlong hidle⟩

/-- The head of a definition on a line of its own ends in code. -/
theorem endsIn_headLine (style : Style) (cols : Nat) {raw head : List Char}
    (h : definition? (scanLine .code raw) = some head) :
    (scanLine .code (style.place cols (trim head ++ " =".toList))).endsIn = .code := by
  obtain ⟨rest, -, hidle⟩ := idle_before_equals h
  obtain ⟨t, ht, hends⟩ := endsIn_link style cols ⟨none, trim head⟩ " =".toList
  have hbehind : (t.run ['='] (trim head ++ [' '])).Idle :=
    Cursor.idle_run_trim_blank Cursor.rests_start ht hidle (by simp) (by simp)
  have hsplit : trim head ++ " =".toList = (trim head ++ [' ']) ++ ['='] := by simp
  rw [Link.render] at hends
  rw [hends, hsplit, Cursor.final_append, Cursor.final, Cursor.advance_plain hbehind (by decide)]
  rfl

section Modes

variable {style : Style} {head : Option (List Char)} {column base : Nat} {raw first : List Char}
  {parts : List (Pipe × List Char)} {out : List (List Char)}

/-- The links of a broken line are cut where the scanner is idle. -/
theorem Broken.idleAtCuts (h : Broken style (scanLine .code raw) head column base first parts out) :
    IdleAtCuts
      ((Cursor.start .code).run
        (chainText first parts ++ (scanLine .code raw).trailingComment?.getD [])
        (head.elim (raw.takeWhile isIndent) (· ++ ['='])))
      ((scanLine .code raw).trailingComment?.getD []) first parts := by
  have hraw : raw = head.elim (raw.takeWhile isIndent) (· ++ ['=']) ++
      (chainText first parts ++ (scanLine .code raw).trailingComment?.getD []) := h.raw_eq
  refine idleAtCuts_of_pipes hraw (fun q hq => ?_) fun hne => ?_
  · rw [← h.pipes_eq]
    exact hq
  · cases hcomment : (scanLine .code raw).trailingComment? with
    | none =>
      rw [hcomment] at hne
      exact absurd rfl hne
    | some comment =>
      rw [hcomment, ← List.append_assoc] at hraw
      exact (idle_before_comment hcomment hraw).1

/-- What the chain starts from is read from rest: only indentation or the equals sign comes before
it. -/
theorem Broken.rests (h : Broken style (scanLine .code raw) head column base first parts out)
    (rest : List Char) (hraw : raw = head.elim (raw.takeWhile isIndent) (· ++ ['=']) ++ rest) :
    ((Cursor.start .code).run rest (head.elim (raw.takeWhile isIndent) (· ++ ['=']))).Rests := by
  cases hhead : head with
  | none =>
    exact Cursor.rests_start.run_space (fun _ => isSpace_of_mem_indent) rest
  | some text =>
    rw [hhead, Option.elim_some] at hraw
    obtain ⟨later, hlater, hidle⟩ := idle_before_equals (h.head_eq text hhead)
    have hrest : later = rest := by
      rw [List.append_assoc] at hraw
      have hboth := List.append_cancel_left (hlater.symm.trans hraw)
      exact (List.cons.inj hboth).2
    subst hrest
    rw [Option.elim_some, Cursor.run_append, List.singleton_append, Cursor.run,
      Cursor.advance_plain hidle (by decide)]
    exact ⟨⟨rfl, rfl⟩, rfl⟩

/-- The comment at the end of a line opens with a minus sign or a brace. -/
theorem Broken.comment_opens
    (h : Broken style (scanLine .code raw) head column base first parts out) :
    ∀ comment ∈ (scanLine .code raw).trailingComment?, ∃ c rest,
      comment = c :: rest ∧ (c = '-' ∨ c = '\x7b') := by
  intro comment hc
  have hraw := h.raw_eq
  rw [Option.mem_def.mp hc, ← List.append_assoc] at hraw
  exact (idle_before_comment hc hraw).2

/-- What the chain starts from, on a line of its own, ends in code. -/
theorem Broken.endsIn_first (h : Broken style (scanLine .code raw) head column base first parts out)
    (cols : Nat) : (scanLine .code (style.place cols (trim first))).endsIn = .code := by
  have hcuts := h.idleAtCuts
  have hrests := h.rests _ h.raw_eq
  obtain ⟨⟨p, text⟩, later, rfl⟩ := List.exists_cons_of_ne_nil h.parts_ne_nil
  obtain ⟨t, ht, hends⟩ := endsIn_link style cols ⟨none, trim first⟩ []
  have hpipe :
      (p.text ++ (chainText text later ++ (scanLine .code raw).trailingComment?.getD [])).head? ≠
      some '\'' := by
    cases p <;> simp [Pipe.text]
  rw [Link.render, List.append_nil, Cursor.final_eq_mode_run,
    Cursor.mode_run_trim hrests ht hcuts.1 hpipe] at hends
  exact hends

/-- The lines of a broken line leave the scanner in the mode that the line leaves. -/
theorem Broken.modeBelow_eq
    (h : Broken style (scanLine .code raw) head column base first parts out) :
    modeBelow .code out = (scanLine .code raw).endsIn.carried := by
  have hcuts := h.idleAtCuts
  have hfirst := h.endsIn_first column
  obtain ⟨⟨p, text⟩, later, rfl⟩ := List.exists_cons_of_ne_nil h.parts_ne_nil
  obtain ⟨hbefore, hlater⟩ := hcuts
  -- the head of a definition ends in code
  have hhead : modeBelow .code
      (head.elim [] fun h => [style.place (style.columns (scanLine .code raw).raw)
        (trim h ++ " =".toList)]) = .code := by
    cases hhead : head with
    | none => rfl
    | some text =>
      rw [Option.elim_some, modeBelow, endsIn_headLine style _ (h.head_eq text hhead)]
      rfl
  -- and so does what the chain starts from
  have hfirst : modeBelow .code
      (if (trim first).isEmpty then [] else [style.place column (trim first)]) = .code := by
    split
    · rfl
    · rw [modeBelow, hfirst]
      rfl
  have hlinks := modeBelow_linkLines style base h.comment_opens (some p) later
    (Cursor.rests_run_pipe hbefore p _) text
    hlater
  have hends := (congrArg (Cursor.start .code).final h.raw_eq).trans (final_chain ..)
  rw [h.out_eq, modeBelow_append, hhead, modeBelow_append, hfirst, List.map_cons, hlinks]
  exact congrArg Mode.carried hends.symm

end Modes

/-- The breaker puts out lines that leave the mode of the line that they are made of. -/
theorem keepsModes (style : Style) : KeepsModes (rule style) := by
  intro s mode raw
  have hl := raw_scanLine mode raw
  have hmode : (scanLine mode raw).isCodeLine = true → mode = .code := by
    intro hcode
    rw [ScannedLine.isCodeLine_scanLine, Bool.and_eq_true] at hcode
    exact of_decide_eq_true hcode.1
  rcases rule_cases style s hl
    with hrule | ⟨-, hrule⟩ | ⟨hcode, base, -, -, hlines | ⟨first, parts, hbroken⟩⟩ |
    ⟨hcode, column, -, -, first, parts, hbroken⟩
  · rw [hrule]
    rfl
  · rw [hrule]
    rfl
  · rw [hlines, modeBelow, endsIn_place]
    rfl
  · obtain rfl := hmode hcode
    exact hbroken.modeBelow_eq
  · obtain rfl := hmode hcode
    exact hbroken.modeBelow_eq

end Chains

end ScratchFormat
