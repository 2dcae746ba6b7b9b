import ScratchFormat.Proofs.ChainRule

/-! Literals and comments of a broken line. They are cut out of the line together with the piece
they stand in, and come out as they were unless the blanks that are trimmed off a piece belong to a
literal. -/

namespace ScratchFormat

/-- Marks may be collected apart on the two sides of a place where a segment begins. -/
theorem ofMarks_append (ms : List Mark) {ns : List Mark} (h : ∀ n ∈ ns.head?, n.fresh = true) :
    Segment.ofMarks (ms ++ ns) = Segment.ofMarks ms ++ Segment.ofMarks ns := by
  induction ms with
  | nil => rfl
  | cons m ms ih =>
    cases ms with
    | nil => exact ofMarks_cons_of_fresh m h
    | cons n ms =>
      obtain ⟨t, ts, hn, hm⟩ := ofMarks_cons_cons m n ms
      obtain ⟨u, us, hn', hm'⟩ := ofMarks_cons_cons m n (ms ++ ns)
      rw [List.cons_append] at ih
      rw [ih, hn, List.cons_append] at hn'
      obtain ⟨rfl, rfl⟩ := List.cons.inj hn'
      rw [List.cons_append, List.cons_append, hm', hm]
      split
      · rfl
      · rfl

/-- The last segment has the kind of the last mark and ends with its character. -/
theorem ofMarks_concat {ms : List Mark} {m : Mark} (h : Grouped (ms ++ [m])) :
    ∃ ts t, Segment.ofMarks (ms ++ [m]) = ts ++ [t] ∧ t.kind = m.kind ∧
      t.text.getLast? = some m.char := by
  induction ms with
  | nil => exact ⟨[], ⟨m.kind, [m.char]⟩, rfl, rfl, rfl⟩
  | cons x ms ih =>
    obtain ⟨n, rest, hrest⟩ :=
      List.exists_cons_of_ne_nil (List.append_ne_nil_of_right_ne_nil ms (List.cons_ne_nil m []))
    rw [List.cons_append, hrest] at h ⊢
    rw [hrest] at ih
    cases h with
    | cons hkind hlater =>
      obtain ⟨ts, t, hts, htkind, htlast⟩ := ih hlater
      obtain ⟨u, us, hn, hx⟩ := ofMarks_cons_cons x n rest
      rw [hx]
      rw [hn] at hts
      split
      · exact ⟨⟨x.kind, [x.char]⟩ :: ts, t, by rw [hts]; rfl, htkind, htlast⟩
      · rename_i hfresh
        cases ts with
        | nil =>
          -- the only segment grows at its front
          obtain ⟨rfl, rfl⟩ := List.cons.inj hts
          refine ⟨[], ⟨x.kind, x.char :: u.text⟩, rfl, ?_, ?_⟩
          · rw [← htkind, kind_of_ofMarks hn, hkind (by simpa using hfresh)]
          · rw [List.getLast?_cons, htlast]
            rfl
        | cons v ts =>
          obtain ⟨rfl, rfl⟩ := List.cons.inj hts
          exact ⟨⟨x.kind, x.char :: u.text⟩ :: ts, t, rfl, htkind, htlast⟩

namespace Cursor

/-- The literals and comments that the scanner finds. -/
def tokens (s : Cursor) (cs : List Char) : List Segment := Segment.ofMarks (tokenMarks (s.marks cs))

theorem fresh_tokenMarks {s : Cursor} (hs : s.Idle) (cs : List Char) :
    ∀ n ∈ (tokenMarks (s.marks cs)).head?, n.fresh = true := by
  cases cs with
  | nil => exact nofun
  | cons c cs =>
    apply (filter_ofMarks (grouped_marks (hs.sound (c :: cs)))).2 _ rfl
    rcases mark_of_idle hs c cs with ⟨hkind, -⟩ | ⟨-, hfresh⟩
    · exact .inl hkind
    · exact .inr hfresh

theorem tokens_cut {s : Cursor} {cs rest : List Char} (h : (s.run rest cs).Idle) :
    s.tokens (cs ++ rest) = s.tokens cs ++ (s.run rest cs).tokens rest := by
  rw [tokens, marks_cut h, tokenMarks_append, ofMarks_append _ (fresh_tokenMarks h rest)]
  rfl

theorem Begins.tokens {s : Cursor} (hs : s.Begins) (cs : List Char) :
    s.tokens cs = (start .code).tokens cs := by
  rw [Cursor.tokens, Cursor.tokens, hs.marks]

theorem tokens_plain_append {cs : List Char} (hcs : ∀ c ∈ cs, isPlain c = true) (rest : List Char) :
    (start .code).tokens (cs ++ rest) = (start .code).tokens rest := by
  rw [tokens, begins_start.marks_plain hcs, tokenMarks_append, tokenMarks_plainMarks]
  rfl

theorem tokens_space_append {bs : List Char} (hb : ∀ b ∈ bs, isSpace b = true) (rest : List Char) :
    (start .code).tokens (bs ++ rest) = (start .code).tokens rest :=
  tokens_plain_append (fun b hbs => isPlain_of_isSpace (hb b hbs)) rest

/-- A pipe is no literal and no comment. -/
theorem tokens_pipe {s : Cursor} (hs : s.Idle) (p : Pipe) (rest : List Char) :
    s.tokens (p.text ++ rest) = (start .code).tokens rest := by
  obtain ⟨c, cs, hp⟩ := List.exists_cons_of_ne_nil p.text_ne_nil
  have hcode : tokenMarks [⟨c, .code, s.fresh⟩] = [] := by simp [tokenMarks]
  rw [tokens, marks_pipe hs hp, tokenMarks_cons, hcode, tokenMarks_append, tokenMarks_plainMarks]
  rfl

/-- Nor is the equals sign of a definition. -/
theorem tokens_equals {s : Cursor} (hs : s.Idle) (rest : List Char) :
    s.tokens ('=' :: rest) = (start .code).tokens rest := by
  have hplain : isPlain '=' = true := by decide
  have hcode : tokenMarks [⟨'=', .code, s.fresh⟩] = [] := by simp [tokenMarks]
  rw [tokens, Cursor.marks, advance_isPlain hs hplain, tokenMarks_cons, hcode,
    (begins_plain hplain).marks]
  rfl

/-- A line that does not end in code ends with a literal or a comment, up to its last character. -/
theorem last_token {s : Cursor} (hs : s.Idle) {cs : List Char} {c : Char}
    (h : s.final (cs ++ [c]) ≠ .code) :
    ∃ ts t, Segment.ofMarks (s.marks (cs ++ [c])) = ts ++ [t] ∧
      t.kind = (s.final (cs ++ [c])).kind ∧ t.text.getLast? = some c := by
  have hconcat : ∀ (s : Cursor) (cs : List Char),
      ∃ ms, s.marks (cs ++ [c]) = ms ++ [((s.run [c] cs).advance c []).1] := by
    intro s cs
    induction cs generalizing s with
    | nil => exact ⟨[], rfl⟩
    | cons d cs ih =>
      obtain ⟨ms, hms⟩ := ih (s.advance d (cs ++ [c])).2
      exact ⟨(s.advance d (cs ++ [c])).1 :: ms, by rw [List.cons_append, Cursor.marks, hms]; rfl⟩
  have hsound := sound_run (hs.sound (cs ++ [c]))
  have hgrouped := grouped_marks (hs.sound (cs ++ [c]))
  obtain ⟨ms, hms⟩ := hconcat s cs
  rw [final_append] at h ⊢
  generalize s.run [c] cs = t at hms hsound h
  rw [hms] at hgrouped ⊢
  obtain ⟨ts, u, hts, hkind, hlast⟩ := ofMarks_concat hgrouped
  rw [advance_char] at hlast
  refine ⟨ts, u, hts, ?_, hlast⟩
  rw [hkind]
  change (t.advance c []).2.mode ≠ .code at h
  rcases next_cases hsound with ⟨-, hidle, -⟩ | ⟨-, -, hmode⟩ | ⟨-, hclosed⟩
  · exact absurd hidle.1 h
  · exact hmode.symm
  · exact absurd (hclosed ▸ rfl) h

end Cursor

/-- Whether a literal or comment ends with white space, as one that the line leaves open and an
escaped character may. -/
def Segment.endsBlank (t : Segment) : Bool := t.text.getLast?.any isSpace

namespace Cursor

theorem Escapes.of_rests {s t : Cursor} {cs : List Char} (h : s.Escapes cs) (hs : s.Rests)
    (ht : t.Rests) : t.Escapes cs := by
  obtain ⟨front, rfl, hrests⟩ := h
  refine ⟨front, rfl, ?_⟩
  cases front with
  | nil => exact ht
  | cons c front =>
    rw [run] at hrests ⊢
    rwa [← ((hs.agrees ht).advance c _).1]

variable {s : Cursor} (hs : s.Begins)
include hs

/-- White space behind an escape makes a literal that ends with it. -/
theorem not_escapes_of_tokens {cs : List Char} {b : Char} {bs : List Char}
    (hb : ∀ c ∈ b :: bs, isSpace c = true)
    (h : ∀ t ∈ s.tokens (cs ++ b :: bs), t.kind = .literal → t.endsBlank = false) :
    ¬ s.Escapes cs := by
  have hspace := hb b List.mem_cons_self
  have hmore : ∀ c ∈ bs, isSpace c = true := fun c hc => hb c (List.mem_cons_of_mem b hc)
  have hhead : bs.head? ≠ some '\'' := fun heq =>
    absurd (hmore _ (List.mem_of_mem_head? heq)) (by decide)
  have hends : s.Ends cs := fun _ => by rw [hs.rests.1.2]; exact Nat.zero_le _
  rcases marks_append_space hends hspace hhead with ⟨hescapes, -⟩ | ⟨front, t, rfl, hrests, hrun, -⟩
  · exact hescapes
  · -- the literal is one of the tokens
    have hsplit : front ++ ['?', '\\'] ++ b :: bs = front ++ '?' :: '\\' :: b :: bs := by simp
    have hidle : (s.run ('?' :: '\\' :: b :: bs) front).Idle := by
      rw [hrun]
      exact hrests.1
    obtain ⟨ms, hgap, -, htokens⟩ := marks_gap (idle_closed b) hmore []
    rw [List.append_nil, Cursor.marks, List.append_nil] at hgap
    have hliteral : t.tokens ('?' :: '\\' :: b :: bs) = [⟨.literal, ['?', '\\', b]⟩] := by
      have hmarks : t.marks ('?' :: '\\' :: b :: bs) =
          [⟨'?', .literal, true⟩, ⟨'\\', .literal, false⟩, ⟨b, .literal, false⟩] ++ ms := by
        rw [marks_escaped hrests, hgap]
        rfl
      rw [tokens, hmarks, tokenMarks_append, htokens, List.append_nil]
      rfl
    have hmem :
        (⟨.literal, ['?', '\\', b]⟩ : Segment) ∈ s.tokens (front ++ ['?', '\\'] ++ b :: bs) := by
      rw [hsplit, tokens_cut hidle, hrun, hliteral]
      exact List.mem_append_right _ List.mem_cons_self
    have hclosed := h _ hmem rfl
    simp [Segment.endsBlank, hspace] at hclosed

/-- White space behind a piece that ends in code is no literal. -/
theorem tokens_append_space {cs bs : List Char} (hb : ∀ c ∈ bs, isSpace c = true)
    (hescapes : ¬ s.Escapes cs) (hcode : s.final cs = .code) :
    s.tokens (cs ++ bs) = s.tokens cs := by
  cases bs with
  | nil => rw [List.append_nil]
  | cons b bs =>
    have hhead : bs.head? ≠ some '\'' := fun heq =>
      absurd (hb _ (List.mem_cons_of_mem b (List.mem_of_mem_head? heq))) (by decide)
    have hends : s.Ends cs := fun _ => by rw [hs.rests.1.2]; exact Nat.zero_le _
    rcases marks_append_space hends (hb b List.mem_cons_self) hhead
      with ⟨-, hmarks, -⟩ | ⟨front, t, rfl, hrests, -, hrun⟩
    · rw [final_eq_mode_run] at hcode
      have hidle := hs.rests.1.of_mode_run hcode
      obtain ⟨ms, hgap, -, htokens⟩ := marks_gap hidle hb []
      rw [List.append_nil, Cursor.marks, List.append_nil] at hgap
      rw [tokens, hmarks, hgap, tokenMarks_append, htokens, List.append_nil]
      rfl
    · refine absurd ⟨front, rfl, ?_⟩ hescapes
      rwa [hrun]

/-- A piece that ends in code keeps its literals and comments when it is trimmed. -/
theorem tokens_trim {piece : List Char} (hcode : s.final piece = .code)
    (h : ∀ t ∈ s.tokens piece, t.kind = .literal → t.endsBlank = false) :
    (start .code).tokens (trim piece) = s.tokens piece := by
  obtain ⟨lead, tail, hpiece, hlead, htail⟩ := trim_decompose piece
  have hsame : s.tokens piece = (start .code).tokens (trim piece ++ tail) := by
    conv => lhs; rw [hpiece]
    rw [hs.tokens, tokens_space_append hlead]
  rw [hsame] at h ⊢
  have hfinal := final_trim hs.rests rests_start piece
  rw [hcode] at hfinal
  cases tail with
  | nil => rw [List.append_nil]
  | cons b bs =>
    symm
    exact tokens_append_space begins_start htail (not_escapes_of_tokens begins_start htail h) hfinal

/-- Set off by one blank it keeps them as well, if it ended at a place where the scanner was
idle. -/
theorem tokens_trim_blank {piece : List Char} {d : Char} {rest : List Char}
    (hidle : (s.run (d :: rest) piece).Idle)
    (h : ∀ t ∈ s.tokens piece, t.kind = .literal → t.endsBlank = false) :
    (start .code).tokens (trim piece ++ [' ']) = s.tokens piece := by
  have hcode : s.final piece = .code := by
    rw [final_eq_mode_run, run_cut hidle]
    exact hidle.1
  have hfinal := final_trim hs.rests rests_start piece
  rw [hcode] at hfinal
  have hescapes : ¬ (start .code).Escapes (trim piece) := by
    obtain ⟨lead, tail, hpiece, hlead, htail⟩ := trim_decompose piece
    cases tail with
    | nil =>
      rw [List.append_nil] at hpiece
      rw [hpiece, run_append] at hidle
      have hrests := hs.rests.run_space hlead (trim piece ++ d :: rest)
      exact fun hescapes => not_escapes_of_idle hidle (hescapes.of_rests rests_start hrests)
    | cons b bs =>
      apply not_escapes_of_tokens begins_start htail
      rw [hs.tokens, hpiece, tokens_space_append hlead] at h
      exact h
  rw [tokens_append_space begins_start (List.forall_mem_singleton.mpr rfl) hescapes hfinal,
    tokens_trim hs hcode h]

/-- The last piece of a line may end inside a literal; then no blank is trimmed off its end. -/
theorem tokens_trim_last {piece : List Char} (hkind : (s.final piece).kind ≠ .comment)
    (h : ∀ t ∈ s.tokens piece, t.kind = .literal → t.endsBlank = false) :
    (start .code).tokens (trim piece) = s.tokens piece := by
  by_cases hcode : s.final piece = .code
  · exact tokens_trim hs hcode h
  obtain ⟨lead, tail, hpiece, hlead, htail⟩ := trim_decompose piece
  have htail : tail = [] := by
    rcases List.eq_nil_or_concat tail with hnil | ⟨bs, b, rfl⟩
    · exact hnil
    · -- the literal at the end would end with a blank
      have hconcat : piece = (lead ++ (trim piece ++ bs)) ++ [b] := by
        conv => lhs; rw [hpiece]
        simp
      have hliteral : (s.final piece).kind = .literal := by
        cases hk : (s.final piece).kind with
        | code => exact absurd (Mode.kind_eq_code.mp hk) hcode
        | literal => rfl
        | comment => exact absurd hk hkind
      rw [hconcat] at hcode hliteral
      obtain ⟨ts, t, hts, htkind, htlast⟩ := last_token hs.rests.1 hcode
      have hmem : t ∈ s.tokens piece := by
        rw [tokens, ← (filter_ofMarks (grouped_marks (hs.rests.1.sound piece))).1, hconcat, hts,
          List.mem_filter]
        exact ⟨by simp, by rw [htkind, hliteral]; rfl⟩
      have hblank := h t hmem (htkind.trans hliteral)
      rw [Segment.endsBlank, htlast] at hblank
      exact absurd (htail b (by simp)) (by simpa using hblank)
  rw [htail, List.append_nil] at hpiece
  conv => rhs; rw [hpiece]
  rw [hs.tokens, tokens_space_append hlead]

end Cursor

theorem tokens_head {rest head : List Char} (h : (Cursor.start .code).IdleAlong rest head) :
    (Cursor.start .code).tokens head = [] := by
  have hcode : tokenMarks ((Cursor.start .code).marks head) = [] := by
    rw [tokenMarks, List.filter_eq_nil_iff]
    intro m hm
    simp [Cursor.kind_of_idleAlong h m hm]
  rw [Cursor.tokens, hcode]
  rfl

/-- The pipe of a link adds no token. -/
theorem tokens_render (pipe : Option Pipe) (text more : List Char) :
    (Cursor.start .code).tokens (Link.render ⟨pipe, text⟩ ++ more) =
      (Cursor.start .code).tokens (text ++ more) := by
  cases pipe with
  | none => rfl
  | some p =>
    by_cases htext : text = []
    · subst htext
      rw [Link.render]
      exact Cursor.tokens_pipe ⟨rfl, rfl⟩ p more
    have hrender : Link.render ⟨some p, text⟩ ++ more = p.text ++ ([' '] ++ (text ++ more)) := by
      simp [Link.render, htext]
    rw [hrender, Cursor.tokens_pipe ⟨rfl, rfl⟩,
      Cursor.tokens_space_append (List.forall_mem_singleton.mpr rfl)]

theorem tokens_place (style : Style) (cols : Nat) (text : List Char) :
    (scanLine .code (style.place cols text)).tokens = (Cursor.start .code).tokens text := by
  rw [tokens_scanLine]
  exact Cursor.tokens_space_append (fun _ hc => isSpace_of_mem_render hc) text

namespace Chains

/-- The lines of a chain hold the literals and comments of its text. -/
theorem tokens_linkTexts {comment : Option (List Char)}
    (hcomment : ∀ t : Cursor, t.Idle → t.marks (comment.getD []) = commentMarks (comment.getD []))
    (hopens : ∀ text ∈ comment, ∃ c rest, text = c :: rest ∧ (c = '-' ∨ c = '\x7b'))
    (pipe : Option Pipe) (parts : List (Pipe × List Char)) {s : Cursor} (hs : s.Begins)
    (text : List Char) (hidle : IdleAtCuts s (comment.getD []) text parts)
    (hkind : comment = none → (s.final (chainText text parts ++ comment.getD [])).kind ≠ .comment)
    (h : ∀ t ∈ s.tokens (chainText text parts ++ comment.getD []), t.kind = .literal →
      t.endsBlank = false) :
    (linkTexts comment (⟨pipe, trim text⟩ :: parts.map fun q => ⟨some q.1, trim q.2⟩)).flatMap
        (Cursor.start .code).tokens = s.tokens (chainText text parts ++ comment.getD []) := by
  induction parts generalizing pipe s text with
  | nil =>
    have htext : chainText text [] = text := by simp [chainText]
    rw [htext] at hkind h ⊢
    rw [List.map_nil, linkTexts, List.flatMap_singleton, tokens_render]
    cases comment with
    | none =>
      rw [Option.getD_none, List.append_nil] at hkind h ⊢
      rw [Option.elim_none, List.append_nil]
      exact Cursor.tokens_trim_last hs (hkind rfl) h
    | some comment =>
      obtain ⟨c, rest, rfl, hc⟩ := hopens comment rfl
      rw [Option.getD_some] at hcomment hidle h ⊢
      have hbefore := hidle (List.cons_ne_nil c rest)
      have hquote : (c :: rest).head? ≠ some '\'' := by
        rcases hc with rfl | rfl <;> simp
      have hbehind : ((Cursor.start .code).run (c :: rest) (trim text ++ [' '])).Idle :=
        Cursor.idle_run_trim_blank hs.rests Cursor.rests_start hbefore hquote hquote
      rw [Cursor.tokens_cut hbefore] at h ⊢
      have hpiece := Cursor.tokens_trim_blank hs hbefore fun t ht => h t (List.mem_append_left _ ht)
      have hsplit : trim text ++ ' ' :: c :: rest = (trim text ++ [' ']) ++ c :: rest := by simp
      rw [Option.elim_some, hsplit, Cursor.tokens_cut hbehind, hpiece, Cursor.tokens, Cursor.tokens,
        Cursor.tokens, hcomment _ hbefore, hcomment _ hbehind]
  | cons q parts ih =>
    obtain ⟨p', text'⟩ := q
    obtain ⟨hbefore, hlater⟩ := hidle
    have hbegins :=
      Cursor.begins_run_plain hbefore (fun d hd => isPlain_of_mem_text hd) p'.text_ne_nil
      (chainText text' parts ++ comment.getD [])
    rw [chainText_cons, List.append_assoc, List.append_assoc] at hkind h ⊢
    rw [Cursor.final_append, Cursor.final_append] at hkind
    rw [Cursor.tokens_cut hbefore, Cursor.tokens_pipe hbefore, ← hbegins.tokens] at h ⊢
    -- the first piece ends in code before the next pipe
    have hcode : s.final text = .code := by
      rw [Cursor.final_eq_mode_run, Cursor.run_cut hbefore]
      exact hbefore.1
    have hpiece := Cursor.tokens_trim hs hcode fun t ht => h t (List.mem_append_left _ ht)
    have hnext := ih (some p') hbegins text' hlater hkind fun t ht =>
      h t (List.mem_append_right _ ht)
    have hrender := tokens_render pipe (trim text) []
    rw [List.append_nil, List.append_nil] at hrender
    rw [List.map_cons, linkTexts_cons _ _ (List.cons_ne_nil _ _), List.flatMap_cons, hrender,
      hpiece, hnext]

/-- A line with pipes that ends inside a comment has that comment at its end. -/
theorem kind_final_of_trailingComment? {raw : List Char}
    (hnone : (scanLine .code raw).trailingComment? = none)
    (hpipes : (scanLine .code raw).pipes ≠ []) :
    ((Cursor.start .code).final raw).kind ≠ .comment := by
  intro hkind
  have hcode : (Cursor.start .code).final raw ≠ .code := by
    intro hcode
    rw [hcode] at hkind
    cases hkind
  rcases List.eq_nil_or_concat raw with rfl | ⟨cs, c, rfl⟩
  · exact hcode rfl
  · rw [List.concat_eq_append] at *
    obtain ⟨ts, t, hts, htkind, -⟩ := Cursor.last_token (s := .start .code) ⟨rfl, rfl⟩ hcode
    have hsegments : (scanLine .code (cs ++ [c])).segments = ts ++ [t] := hts
    rw [hkind] at htkind
    cases ts with
    | nil =>
      -- a comment alone has no pipes
      apply hpipes
      rw [ScannedLine.pipes, hsegments]
      simp [ScannedLine.pipesInSegments, htkind]
    | cons u ts =>
      simp [ScannedLine.trailingComment?, hsegments, List.getLast?_cons, htkind] at hnone

section Broken

variable {style : Style} {head : Option (List Char)} {column base : Nat} {raw first : List Char}
  {parts : List (Pipe × List Char)} {out : List (List Char)}

/-- Before the chain a line has neither literals nor comments. -/
theorem Broken.tokens_raw (h : Broken style (scanLine .code raw) head column base first parts out) :
    (scanLine .code raw).tokens =
      (Cursor.start .code).tokens
        (chainText first parts ++ (scanLine .code raw).trailingComment?.getD []) := by
  have hraw : raw = head.elim (raw.takeWhile isIndent) (· ++ ['=']) ++
      (chainText first parts ++ (scanLine .code raw).trailingComment?.getD []) := h.raw_eq
  rw [tokens_scanLine]
  refine (congrArg (Cursor.start .code).tokens hraw).trans ?_
  generalize chainText first parts ++ (scanLine .code raw).trailingComment?.getD [] = rest at hraw
  cases hhead : head with
  | none => exact Cursor.tokens_space_append (fun _ hc => isSpace_of_mem_indent hc) rest
  | some text =>
    rw [hhead, Option.elim_some, List.append_assoc, List.singleton_append] at hraw
    obtain ⟨rest', hraw', halong⟩ := idleAlong_head (h.head_eq text hhead)
    obtain rfl := (List.cons.inj (List.append_cancel_left (hraw'.symm.trans hraw))).2
    have hidle := Cursor.idle_run_of_idleAlong halong
    rw [Option.elim_some, List.append_assoc, List.singleton_append, Cursor.tokens_cut hidle,
      tokens_head halong, List.nil_append, Cursor.tokens_equals hidle]

/-- The lines of a broken line hold the literals and comments that the line holds, if no literal
ends with white space that can be trimmed off. -/
theorem Broken.tokens_out (h : Broken style (scanLine .code raw) head column base first parts out)
    (hclosed : ∀ t ∈ (scanLine .code raw).tokens, t.kind = .literal → t.endsBlank = false) :
    (scanFrom .code out).flatMap ScannedLine.tokens = (scanLine .code raw).tokens := by
  have hbegins := h.begins
  have hpipes : (scanLine .code raw).pipes ≠ [] := by
    rw [← h.pipes_eq]
    obtain ⟨⟨p, text⟩, later, hparts⟩ := List.exists_cons_of_ne_nil h.parts_ne_nil
    rw [hparts]
    exact List.cons_ne_nil _ _
  -- the head of a definition is code
  have hhead : (head.elim [] fun text => [style.place (style.columns (scanLine .code raw).raw)
      (trim text ++ " =".toList)]).flatMap (fun m => (scanLine .code m).tokens) = [] := by
    cases hhead : head with
    | none => rfl
    | some text =>
      obtain ⟨rest, -, halong⟩ := idleAlong_head (h.head_eq text hhead)
      have hidle := Cursor.idle_run_of_idleAlong halong
      have hblank :=
        Cursor.tokens_trim_blank Cursor.begins_start hidle (by rw [tokens_head halong]; exact nofun)
      have hbehind : ((Cursor.start .code).run ['='] (trim text ++ [' '])).Idle :=
        Cursor.idle_run_trim_blank Cursor.rests_start Cursor.rests_start hidle (by simp) (by simp)
      have hsplit : trim text ++ " =".toList = (trim text ++ [' ']) ++ ['='] := by simp
      rw [Option.elim_some, List.flatMap_singleton, tokens_place, hsplit,
        Cursor.tokens_cut hbehind, hblank, tokens_head halong, Cursor.tokens_equals hbehind]
      rfl
  have hfirst : (if (trim first).isEmpty then [] else [style.place column (trim first)]).flatMap
      (fun m => (scanLine .code m).tokens) = (Cursor.start .code).tokens (trim first) := by
    split
    · rename_i hempty
      rw [List.isEmpty_iff.mp hempty]
      rfl
    · rw [List.flatMap_singleton, tokens_place]
  have hlinks : (linkLines style base (scanLine .code raw).trailingComment?
      (parts.map fun q => ⟨some q.1, trim q.2⟩)).flatMap (fun m => (scanLine .code m).tokens) =
        (linkTexts (scanLine .code raw).trailingComment?
          (parts.map fun q => ⟨some q.1, trim q.2⟩)).flatMap
          (Cursor.start .code).tokens := by
    rw [linkLines_eq_map, List.flatMap_map]
    simp only [tokens_place]
  have hchain := tokens_linkTexts (fun t ht => h.marks_comment ht) h.comment_opens none parts
    hbegins first h.idleAtCuts
    (fun hnone => by
      have hends : (Cursor.start .code).final raw = _ :=
        (congrArg (Cursor.start .code).final h.raw_eq).trans (Cursor.final_append ..)
      exact fun hkind => kind_final_of_trailingComment? hnone hpipes
        ((congrArg Mode.kind hends).trans hkind))
    (by rwa [hbegins.tokens, ← h.tokens_raw])
  rw [h.tokens_raw, ← hbegins.tokens, ← hchain, h.scanFrom_out, List.flatMap_map, h.out_eq,
    List.flatMap_append, List.flatMap_append, hhead, hfirst, hlinks, List.nil_append]
  have hparts : (parts.map fun q => Link.mk (some q.1) (trim q.2)) ≠ [] := by
    simpa using h.parts_ne_nil
  rw [linkTexts_cons _ _ hparts, List.flatMap_cons]
  rfl

end Broken

/-- If a line is broken, none of its literals ends with white space. -/
def Closed (l : ScannedLine) : Prop :=
  l.isCodeLine = true → 1 < l.pipes.length → ∀ t ∈ l.tokens, t.kind = .literal → t.endsBlank = false

instance (l : ScannedLine) : Decidable (Closed l) :=
  inferInstanceAs (Decidable (_ → _ → ∀ t ∈ l.tokens, _ → _))

/-- The lines that a line is laid out as have its tokens, if no literal is cut at its blanks. -/
theorem Laid.tokens_out {style : Style} {s s' : Chains} {mode : Mode} {raw : List Char}
    {out : List (List Char)} (h : Laid style s (scanLine mode raw) s' out)
    (hclosed : Closed (scanLine mode raw)) :
    (scanFrom mode out).flatMap ScannedLine.tokens = (scanLine mode raw).tokens := by
  have hone : (scanFrom mode [raw]).flatMap ScannedLine.tokens = (scanLine mode raw).tokens :=
    List.flatMap_singleton ScannedLine.tokens (scanLine mode raw)
  cases h with
  | kept => exact hone
  | plain => exact hone
  | @joined base hcode hstart hfew hbase =>
    obtain rfl := mode_of_isCodeLine hcode
    have hindent : ∀ c ∈ raw.takeWhile isIndent, isSpace c = true :=
      fun _ hc => isSpace_of_mem_indent hc
    have hraw := Cursor.tokens_space_append hindent (raw.dropWhile isIndent)
    rw [List.takeWhile_append_dropWhile] at hraw
    rw [scanFrom, scanFrom, List.flatMap_singleton, tokens_place, tokens_scanLine]
    exact hraw.symm
  | continued hcode hstart hmany hbase hbroken =>
    obtain rfl := mode_of_isCodeLine hcode
    exact hbroken.tokens_out (hclosed hcode hmany)
  | broken hcode hstart hmany hcolumn hbase hlinks hbroken =>
    obtain rfl := mode_of_isCodeLine hcode
    exact hbroken.tokens_out (hclosed hcode hmany)

/-- The induction is on the lines: what the rule puts out for one of them is scanned from the mode
in which that line starts. -/
theorem tokens_walk (style : Style) (s : Chains) (mode : Mode) (ls : List (List Char))
    (h : ∀ l ∈ scanFrom mode ls, Closed l) :
    (scanFrom mode (walk (rule style) s (scanFrom mode ls)).lines).flatMap ScannedLine.tokens =
      (scanFrom mode ls).flatMap ScannedLine.tokens := by
  induction ls generalizing s mode with
  | nil => rfl
  | cons raw ls ih =>
    have hlaid := laid_rule style s (raw_scanLine mode raw)
    have hlater :=
      ih (rule style s (scanLine mode raw)).1 (scanLine mode raw).endsIn.carried fun l hl =>
      h l (List.mem_cons_of_mem _ hl)
    rw [(keepsModes style).scanFrom_walk, List.flatMap_append,
      hlaid.tokens_out (h _ List.mem_cons_self), hlater]
    rfl

/-- Breaking the chains of a text keeps its literals and comments, unless a literal on a line that
is broken ends with white space. -/
theorem layOut_keeps_tokens (style : Style) (text : List Char) (h : ∀ l ∈ scan text, Closed l) :
    (scan (layOut style text).text).flatMap ScannedLine.tokens =
      (scan text).flatMap ScannedLine.tokens := by
  have hwalk := tokens_walk style initial .code (lines text) h
  have hscan : (scan (layOut style text).text).flatMap ScannedLine.tokens =
      (scanFrom .code (walk (rule style) initial (scan text)).lines).flatMap
      ScannedLine.tokens := by
    by_cases hne : (walk (rule style) initial (scan text)).lines = []
    · rw [layOut, Output.outcome, hne]
      rfl
    · rw [layOut, Output.outcome, scan_unlines hne (newline_notMem_lines style initial text)]
  rw [hscan]
  exact hwalk

/-- A string that is closed and a comment ride along with their links. -/
theorem layOut_keeps_tokens_comment :
    (∀ l ∈ scan "x = f \"a b \" |> g |> h -- note ".toList, Closed l) ∧
      (scan (layOut .standard "x = f \"a b \" |> g |> h -- note ".toList).text).flatMap
          ScannedLine.tokens =
        (scan "x = f \"a b \" |> g |> h -- note ".toList).flatMap ScannedLine.tokens := by
  have hclosed : ∀ l ∈ scan "x = f \"a b \" |> g |> h -- note ".toList, Closed l := by
    decide +kernel
  exact ⟨hclosed, layOut_keeps_tokens .standard _ hclosed⟩

/-- A string that goes on below the chain loses the blank before the end of the line. -/
theorem layOut_clips_longString :
    (scan (layOut .standard "x = a |> f |> \"\"\"b \nc\"\"\"".toList).text).flatMap
          ScannedLine.tokens =
        [⟨.literal, "\"\"\"b".toList⟩, ⟨.literal, "c\"\"\"".toList⟩] ∧
      (scan "x = a |> f |> \"\"\"b \nc\"\"\"".toList).flatMap ScannedLine.tokens =
        [⟨.literal, "\"\"\"b ".toList⟩, ⟨.literal, "c\"\"\"".toList⟩] := by
  decide +kernel

end Chains

end ScratchFormat
