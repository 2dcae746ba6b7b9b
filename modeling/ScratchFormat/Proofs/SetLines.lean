import ScratchFormat.Proofs.SetMarks

/-! Setting the gaps of a text a second time. -/

namespace ScratchFormat

namespace Gaps

structure Begins (l : ScannedLine) (text : List Char) (later : List Segment) : Prop where
  startsInCode : l.startsInCode = true
  segments_eq : l.segments = ⟨.code, text⟩ :: later

/-- The ways a line is set whose gaps are set at all. -/
theorem line_of_isSet {l : ScannedLine} (h : isSet l = true) :
    (l.segments = [] ∧ line l = l.raw) ∨
      (∃ text later, Begins l text later ∧
        line l = text.takeWhile isIndent ++ codeLine (Role.ofCode l.codeText)
          (text.dropWhile isIndent) later) ∨
      ((∀ text later, ¬ Begins l text later) ∧ line l = (segments [] l.segments).reverse) := by
  rw [isSet, Bool.and_eq_true, Bool.not_eq_true', Bool.not_eq_true'] at h
  obtain ⟨hplain, huse⟩ := h
  unfold line
  rw [if_neg (by rw [hplain]; decide)]
  cases hstart : l.startsInCode with
  | false =>
    refine .inr (.inr ⟨fun text later h => ?_, rfl⟩)
    rw [h.startsInCode] at hstart
    cases hstart
  | true =>
    rw [hstart, Bool.true_and, decide_eq_false_iff_not] at huse
    simp only [Bool.not_true, Bool.false_eq_true, if_false]
    rw [if_neg huse]
    cases hsegments : l.segments with
    | nil => exact .inl ⟨rfl, rfl⟩
    | cons first later =>
      right
      by_cases hkind : first.kind = .code
      · obtain ⟨kind, text⟩ := first
        cases hkind
        exact .inl ⟨text, later, ⟨hstart, hsegments⟩, rfl⟩
      · refine .inr ⟨fun text later' h => ?_, if_neg hkind⟩
        obtain ⟨rfl, -⟩ := List.cons.inj (hsegments.symm.trans h.segments_eq)
        exact hkind rfl

theorem line_cases (l : ScannedLine) :
    line l = l.raw ∨
      (∃ text later, Begins l text later ∧
        line l = text.takeWhile isIndent ++ codeLine (Role.ofCode l.codeText)
          (text.dropWhile isIndent) later) ∨
      ((∀ text later, ¬ Begins l text later) ∧ line l = (segments [] l.segments).reverse) := by
  cases hset : isSet l with
  | false => exact .inl (line_of_not_isSet hset)
  | true => exact (line_of_isSet hset).imp_left And.right

/-- Without a marker the code is set as it stands. -/
theorem codeLine_of_no_marker {role : Role} {head : List Char} (later : List Segment)
    (h : ¬ ((role = .watch ∨ role = .test) ∧ (watchMarker? head).isSome = true)) :
    codeLine role head later =
      (segments (code (!later.isEmpty) (special? role head) 0 [] [] head) later).reverse := by
  have hmarker :
      (if role = .watch ∨ role = .test then (watchMarker? head).getD [] else []) = [] := by
    split
    · rename_i hrole
      have hnone : watchMarker? head = none := by
        rw [← Option.not_isSome_iff_eq_none]
        exact fun hsome => h ⟨hrole, hsome⟩
      rw [hnone]
      rfl
    · rfl
  unfold codeLine
  rw [hmarker]
  rfl

/-- Behind a marker, one blank is put before the code. -/
theorem codeLine_of_marker {role : Role} {marker rest : List Char} (later : List Segment)
    (hrole : role = .watch ∨ role = .test) (hmarker : watchMarker? (marker ++ rest) = some marker) :
    codeLine role (marker ++ rest) later = (segments (code (!later.isEmpty) none 0 []
      (if (trimStart rest).isEmpty && later.isEmpty then marker.reverse else ' ' :: marker.reverse)
      (trimStart rest)) later).reverse := by
  have hne : marker.isEmpty = false := by
    rcases marker_of_watchMarker? hmarker with rfl | rfl <;> rfl
  have hspecial : ∀ head, special? role head = none := by
    rcases hrole with rfl | rfl <;> exact fun _ => rfl
  unfold codeLine
  rw [if_pos hrole, hmarker]
  simp only [Option.getD_some, hne, hspecial, List.drop_left, Bool.false_eq_true, if_false]

def markRank (l : ScannedLine) : Option Nat :=
  (lineSpecial l).map fun k => (solid (l.raw.take k)).length

/-- Whether the mark of a line hides an operator. -/
def hidesOperator (l : ScannedLine) : Bool :=
  l.segments.head?.any fun t => hides (lineSpecial l) t.text

/-- Whether a line that has been set has no mark, or has it where it was. -/
def keepsMark (l : ScannedLine) : Bool :=
  let rank := markRank (scanLine l.startsIn (line l))
  rank.isNone || rank == markRank l

/-- A character is found again by what stands before it. -/
theorem length_eq_of_rank {as bs cs ds : List Char} {a b : Char} (h : as ++ a :: cs = bs ++ b :: ds)
    (ha : isSpace a = false) (hb : isSpace b = false)
    (hrank : (solid as).length = (solid bs).length) : as.length = bs.length := by
  -- if one stood further on, the other would be among the characters before it
  have hless : ∀ {as bs cs ds : List Char} {a b : Char}, as ++ a :: cs = bs ++ b :: ds →
      isSpace a = false → as.length < bs.length → (solid as).length < (solid bs).length := by
    intro as bs cs ds a b h ha hlt
    rcases List.append_eq_append_iff.mp h with ⟨es, hbs, hes⟩ | ⟨es, has, -⟩
    · cases es with
      | nil =>
        rw [hbs, List.append_nil] at hlt
        omega
      | cons e es =>
        obtain ⟨rfl, -⟩ := List.cons.inj hes
        have hsolid : solid (a :: es) = a :: solid es := List.filter_cons_of_pos (by simp [ha])
        rw [hbs, solid_append, hsolid, List.length_append, List.length_cons]
        omega
    · rw [has, List.length_append] at hlt
      omega
  rcases Nat.lt_trichotomy as.length bs.length with hlt | heq | hgt
  · have := hless h ha hlt
    omega
  · exact heq
  · have := hless h.symm hb hgt
    omega

theorem not_isSpace_of_mark {c : Char} (hc : c = ':' ∨ c = '=') : isSpace c = false := by
  rcases hc with rfl | rfl <;> decide

section Code

variable {more : Bool} {head head' : List Char}

theorem code_of_sets {place : Option Nat}
    (h : Sets more (markOf place head) false [] none head head') (hmarked : Marked place head)
    (hmarks : Marks (markOf place head) head) : code more place 0 [] [] head = head'.reverse := by
  have hyields := h.yields hmarks (show [].head? = none from rfl) fun _ h => by cases h
  simp only [Yields, Bool.false_eq_true, if_false, placeOf_markOf hmarked, List.append_nil]
    at hyields
  exact hyields

/-- Code that has been set comes out as it is if its mark is where it was, or has none. -/
theorem code_again {place : Option Nat} (place' : Option Nat)
    (h : Sets more (markOf place head) false [] none head head')
    (hclean : Clean (markOf place head) head) (hmarked : Marked place head)
    (hmarked' : Marked place' head') (hrank : ∀ k' ∈ place', ∃ k ∈ place,
      (solid (head'.take k')).length = (solid (head.take k)).length) :
    code more place' 0 [] [] head' = head'.reverse := by
  obtain ⟨mark', himage, -, hstays⟩ := h.again hclean fun h => by cases h
  have hmark : markOf place' head' = mark' ∨ ∀ k ∈ markOf place' head', head'.length ≤ k := by
    cases hplace' : place' with
    | none => exact .inr fun _ h => by cases h
    | some k' =>
      left
      subst hplace'
      obtain ⟨k, hk, hsolid⟩ := hrank k' rfl
      cases hk
      obtain ⟨c, hc, hmark⟩ := hmarked k rfl
      obtain ⟨c', hc', hmark'⟩ := hmarked' k' rfl
      obtain ⟨hlt, hget⟩ := List.getElem?_eq_some_iff.mp hc
      obtain ⟨hlt', hget'⟩ := List.getElem?_eq_some_iff.mp hc'
      have hhead : head = head.take k ++ c :: head.drop (k + 1) := by
        rw [← hget, List.getElem_cons_drop, List.take_append_drop]
      have hhead' : head' = head'.take k' ++ c' :: head'.drop (k' + 1) := by
        rw [← hget', List.getElem_cons_drop, List.take_append_drop]
      -- the mark of the old code stands in the new where the same characters stand before it
      obtain ⟨pre, post, hpre, hpost, hsame⟩ := himage (head.take k) c (head.drop (k + 1)) hhead (by
        simp only [markOf, Option.map_some, List.length_drop, Option.some.injEq]
        omega)
      have hlen : pre.length = (head'.take k').length := by
        apply length_eq_of_rank (hpre.symm.trans hhead') (not_isSpace_of_mark hmark)
          (not_isSpace_of_mark hmark')
        rw [hsame, hsolid]
      rw [List.length_take, Nat.min_eq_left (Nat.le_of_lt hlt')] at hlen
      have htotal := congrArg List.length hpre
      rw [List.length_append, List.length_cons] at htotal
      rw [hpost]
      simp only [markOf, Option.map_some, Option.some.injEq]
      omega
  have hset : Sets more (markOf place' head') false [] none head' head' :=
    hstays _ false [] hmark (fun h => by cases h) (.inl rfl) fun _ => SameFront.refl []
  apply code_of_sets hset hmarked'
  intro pre c post hcs hpost
  rw [hcs] at hmarked' hpost
  obtain ⟨c', hc', hmark'⟩ := hmarked' pre.length ((markOf_eq_iff hmarked').mp hpost)
  rw [List.getElem?_append_right (Nat.le_refl _), Nat.sub_self] at hc'
  cases hc'
  exact hmark'

end Code

section Begins

variable {more : Bool} {head head' : List Char}

/-- What a line begins with comes out first. -/
theorem Sets.head_eq {mark : Option Nat} (h : Sets more mark false [] none head head')
    (hfirst : ∀ c ∈ head.head?, isIndent c = false) : head'.head? = head.head? := by
  have hnil : ∀ {gap cs : List Char}, (∀ c ∈ (gap ++ cs).head?, isIndent c = false) →
      (∀ b ∈ gap, isIndent b = true) → gap = [] := by
    intro gap cs hfirst hgap
    cases gap with
    | nil => rfl
    | cons b gap =>
      have hb := hgap b List.mem_cons_self
      rw [hfirst b rfl] at hb
      cases hb
  cases h with
  | done => rfl
  | plain hgap => rw [hnil hfirst hgap]; rfl
  | comma hgap => rw [hnil hfirst hgap]; rfl
  | mark hgap => rw [hnil hfirst hgap]; rfl
  | raw hgap => rw [hnil hfirst hgap]; rfl
  | @split _ sign _ gap ys old new _ y ops hgap _ _ _ hsplit =>
    obtain rfl := hnil hfirst hgap
    obtain ⟨zs, hzs⟩ := exists_cons_spread hsplit
    have hlead : leadGap false sign [] none y ops = [] := by
      unfold leadGap
      split <;> rfl
    rw [hlead, hzs]
    rfl

/-- A watch expression that was none before: its marker is the operator that the line began with,
and the gap behind it has been set already. -/
theorem code_new_marker {z : Char} {cs : List Char} (hz : isOperatorChar z = true)
    (h : code more none 0 [] [] ('>' :: ' ' :: z :: cs) = ('>' :: ' ' :: z :: cs).reverse) :
    code more none 0 [] [' ', '>'] (z :: cs) = ('>' :: ' ' :: z :: cs).reverse := by
  have hblank := not_isIndent_of_isOperatorChar hz
  have hcloser := (not_bracket_of_isOperatorChar hz).1
  have hgreater : (⟨['>'], ">-|=<".toList, ">=".toList, false⟩ : Operator) ∈ Operator.table := by
    decide
  have hnext : ∀ c ∈ (' ' :: z :: cs).head?, isOperatorChar c = false := by
    intro c hc
    cases hc
    rfl
  have hsplit : splitRun? [] (' ' :: z :: cs) 0 ['>'] =
      some [⟨['>'], ">-|=<".toList, ">=".toList, false⟩] := by
    apply splitRun?_alone rfl
    have halone :=
      Operator.at?_alone hgreater (show ∀ c ∈ [].head?, isIndent c = true ∨ isOpener c = true from
      fun _ h => by cases h) hnext
    rcases halone with hat | ⟨-, hparen⟩
    · exact hat
    · cases hparen
  have hplace : place more none [] '>' (' ' :: z :: cs) [] = ([' ', '>'], 1) := by
    have hgreaterRun : ∀ c ∈ ['>'], isOperatorChar c = true := by simp [isOperatorChar]
    have hbeyond : ∀ k ∈ (none : Option Nat), k < (' ' :: z :: cs).length ∨
        (['>'] ++ ' ' :: z :: cs).length ≤ k :=
      fun _ hk => by cases hk
    have hstop : ∀ c ∈ (' ' :: z :: cs).head?, isOperatorChar c = true →
        (none : Option Nat) = some (' ' :: z :: cs).tail.length := by
      intro c hc hop
      rw [hnext c hc] at hop
      cases hop
    have hrun := place_run more [] [] hgreaterRun hbeyond hstop
    have hspace : ∀ b ∈ [' '], isIndent b = true := by simp [isIndent]
    have hgap := takeWhile_gap hspace hblank cs
    rw [List.singleton_append] at hgap
    rw [hsplit] at hrun
    simpa [placeOf_none, operators, Operator.isSignAt, binary, before, after, hgap, hcloser]
      using hrun
  rw [code_cons, hplace] at h
  have hfront : SameFront [' ', '>'] [] := SameFront.of_blank fun c hc => by cases hc; rfl
  rw [← hfront.code_eq]
  exact h

/-- What comes out behind a marker and a blank. -/
theorem Sets.behind_marker {body out : List Char}
    (h : Sets more none false [] (some '>') ([' '] ++ body) out)
    (hbody : ∀ c ∈ body.head?, isSpace c = false) :
    body = [] ∧ out = [' '] ∨ (∃ c cs, out = ' ' :: c :: cs ∧ isSpace c = false) ∨ ∃ cs,
      out = ',' :: cs := by
  -- the gap before the first piece is the blank
  have hgapeq : ∀ {gap cs : List Char} {c : Char}, (∀ b ∈ gap, isIndent b = true) →
      isIndent c = false → [' '] ++ body = gap ++ c :: cs → gap = [' '] ∧ isSpace c = false := by
    intro gap cs c hgap hc hcs
    cases gap with
    | nil =>
      rw [← (List.cons.inj hcs).1] at hc
      cases hc
    | cons b gap =>
      obtain ⟨rfl, hrest⟩ := List.cons.inj hcs
      have hrest' : body = gap ++ c :: cs := hrest
      cases gap with
      | nil => exact ⟨rfl, hbody c (by rw [hrest']; rfl)⟩
      | cons d gap =>
        have hd := isSpace_of_isIndent (hgap d (by simp))
        rw [hbody d (by rw [hrest']; rfl)] at hd
        cases hd
  generalize hcs : [' '] ++ body = cs at h
  cases h with
  | done hgap =>
    left
    have hnil : body = [] := by
      cases body with
      | nil => rfl
      | cons c body =>
        have hc := isSpace_of_isIndent (hgap c (by rw [← hcs]; simp))
        rw [hbody c rfl] at hc
        cases hc
    exact ⟨hnil, by rw [← hcs, hnil]; rfl⟩
  | plain hgap hblank =>
    obtain ⟨rfl, hc⟩ := hgapeq hgap hblank hcs
    exact .inr (.inl ⟨_, _, rfl, hc⟩)
  | comma => exact .inr (.inr ⟨_, rfl⟩)
  | mark _ _ hmark => cases hmark
  | raw hgap hrun =>
    obtain ⟨rfl, hc⟩ := hgapeq hgap (not_isIndent_of_isOperatorChar (hrun _ List.mem_cons_self)) hcs
    exact .inr (.inl ⟨_, _, rfl, hc⟩)
  | @split _ sign _ gap ys old new _ y ops hgap hrun _ _ hsplit =>
    obtain ⟨rfl, hc⟩ := hgapeq hgap (not_isIndent_of_isOperatorChar (hrun _ List.mem_cons_self)) hcs
    obtain ⟨zs, hzs⟩ := exists_cons_spread hsplit
    have hlead : leadGap false sign [' '] (some '>') y ops = [' '] := by
      unfold leadGap
      split <;> rfl
    rw [hlead, hzs]
    exact .inr (.inl ⟨_, _, rfl, hc⟩)

/-- A comma takes the blank before it away. -/
theorem code_comma (base cs : List Char) :
    code more none 0 [] (' ' :: base) (',' :: cs) = code more none 0 [] base (',' :: cs) := by
  have hdrop : (' ' :: base).dropWhile isIndent = base.dropWhile isIndent := rfl
  rw [code_cons, code_cons]
  simp only [place, hdrop]
  rfl

/-- Behind a marker, what has been set comes out as it is. -/
theorem code_marker_again {body out base : List Char}
    (h : Sets more none false [] (some '>') ([' '] ++ body) out)
    (hbody : ∀ c ∈ body.head?, isSpace c = false) (hbase : base.head? = some '>') :
    code more none 0 [] (' ' :: base) (trimStart out) = out.reverse ++ base := by
  have hblank : ∀ c ∈ base.head?, isIndent c = false := by
    intro c hc
    rw [hbase] at hc
    cases hc
    rfl
  obtain ⟨_, -, -, hstays⟩ := h.again (clean_none _) fun h => by cases h
  have hsame : Sets more none false [] (some '>') out out :=
    hstays none false [] (.inr fun _ h => by cases h) (fun h => by cases h) (.inl rfl) fun _ =>
      SameFront.refl []
  have hbehind : ∀ cs, out = ' ' :: cs →
      code more none 0 [] (' ' :: base) cs = out.reverse ++ base := by
    intro cs hcs
    rw [hcs] at hsame ⊢
    exact code_behind_gap [' '] hsame (by simp [isIndent]) hbase hblank
  rcases h.behind_marker hbody with ⟨-, rfl⟩ | ⟨c, cs, rfl, hc⟩ | ⟨cs, rfl⟩
  · exact hbehind [] rfl
  · have htrim : trimStart (' ' :: c :: cs) = c :: cs := by
      rw [trimStart, List.dropWhile_cons_of_pos (by decide),
        List.dropWhile_cons_of_neg (by simp [hc])]
    rw [htrim]
    exact hbehind (c :: cs) rfl
  · have htrim : trimStart (',' :: cs) = ',' :: cs := List.dropWhile_cons_of_neg (by decide)
    rw [htrim, code_comma]
    exact code_behind_gap [] hsame (fun _ h => by cases h) hbase hblank

end Begins

section Line

variable {l : ScannedLine} {text : List Char} {later : List Segment}

theorem Begins.codeText_eq (h : Begins l text later) :
    l.codeText = later.foldl ScannedLine.joinCode text := by
  rw [ScannedLine.codeText, h.segments_eq]
  rfl

theorem Begins.lineSpecial_eq (h : Begins l text later) :
    lineSpecial l = (special? (Role.ofCode l.codeText) (text.dropWhile isIndent)).map
      (· + (text.takeWhile isIndent).length) := by
  simp [lineSpecial, h.segments_eq, h.startsInCode]

/-- Whether an operator is hidden is told from the code that a line begins with. -/
theorem Begins.hides_eq (h : Begins l text later) :
    hidesOperator l = hides (special? (Role.ofCode l.codeText) (text.dropWhile isIndent))
      (text.dropWhile isIndent) := by
  have htext : text.takeWhile isIndent ++ text.dropWhile isIndent = text :=
    List.takeWhile_append_dropWhile
  rw [hidesOperator, h.segments_eq, h.lineSpecial_eq]
  generalize special? (Role.ofCode l.codeText) (text.dropWhile isIndent) = place
  generalize text.takeWhile isIndent = indent at *
  generalize text.dropWhile isIndent = head at *
  subst htext
  cases place with
  | none => rfl
  | some k =>
    have hdrop : ∀ n, (indent ++ head).drop (n + indent.length) = head.drop n := by
      intro n
      rw [Nat.add_comm, List.drop_append, List.drop_eq_nil_of_le (by omega),
        Nat.add_sub_cancel_left, List.nil_append]
    have hnext : k + indent.length + 1 = k + 1 + indent.length := by omega
    simp [hides, hnext, hdrop]

/-- The mark is told by the characters before it, indented or not. -/
theorem Begins.markRank_eq (h : Begins l text later) (hraw : l.raw = flat l.segments) :
    markRank l = (special? (Role.ofCode l.codeText) (text.dropWhile isIndent)).map fun k =>
      (solid ((text.dropWhile isIndent).take k)).length := by
  have hmarked := marked_special? (Role.ofCode l.codeText) (text.dropWhile isIndent)
  have htext : text.takeWhile isIndent ++ text.dropWhile isIndent = text :=
    List.takeWhile_append_dropWhile
  have hsolid : solid (text.takeWhile isIndent) = [] := solid_takeWhile_isIndent text
  rw [markRank, hraw, h.segments_eq, h.lineSpecial_eq, flat_cons, Option.map_map]
  generalize special? (Role.ofCode l.codeText) (text.dropWhile isIndent) = place at *
  generalize text.takeWhile isIndent = indent at *
  generalize text.dropWhile isIndent = head at *
  subst htext
  cases place with
  | none => rfl
  | some k =>
    have hk := place_of_marked hmarked k rfl
    have htake : (indent ++ head ++ flat later).take (k + indent.length) = indent ++
        head.take k := by
      rw [List.append_assoc, Nat.add_comm, List.take_length_add_append,
        List.take_append_of_le_length (Nat.le_of_lt hk)]
    simp only [Option.map_some, Function.comp_apply, htake, solid_append, hsolid, List.nil_append]

end Line

section Again

variable {mode : Mode} {raw text : List Char} {later : List Segment}

theorem Begins.next (h : Begins (scanLine mode raw) text later) :
    ∀ t ∈ later.head?, t.kind ≠ .code := by
  have hlexed : Lexed (.start mode) (scanLine mode raw).segments :=
    lexed_ofMarks (Cursor.sound_start mode raw)
  rw [h.segments_eq] at hlexed
  exact hlexed.of_code.2.1

/-- Whatever has been put out, the segments behind the first can be set. -/
theorem Begins.exists_later (h : Begins (scanLine mode raw) text later)
    (hset : isSet (scanLine mode raw) = true) (hfuses : fuses (scanLine mode raw) = false)
    (base : List Char) : ∃ later', SetsEach base later later' := by
  have hlexed : Lexed (.start mode) (scanLine mode raw).segments :=
    lexed_ofMarks (Cursor.sound_start mode raw)
  rw [h.segments_eq] at hlexed
  obtain ⟨hidle, hnext, hlater⟩ := hlexed.of_code
  rw [fuses, hset, Bool.true_and, h.segments_eq, fusesInSegments, if_pos rfl, Bool.or_eq_false_iff]
    at hfuses
  apply exists_setsEach hlater (Cursor.sound_run (Cursor.sound_start mode _)) _ hfuses.2
  · intro u hu hcode
    exact absurd hcode (hnext u hu)
  · intro _
    exact (Cursor.idle_run_of_idleAlong hidle).2

/-- A line that begins with code begins with code again, and with the same segments behind it. -/
theorem Begins.again {text' : List Char} {later' : List Segment}
    (h : Begins (scanLine mode raw) text later) (hfuses : fuses (scanLine mode raw) = false)
    (hline : line (scanLine mode raw) = text' ++ flat later')
    (hkeeps : Keeps ⟨.code, text⟩ ⟨.code, text'⟩) (hlater : List.Forall₂ Keeps later later') :
    Begins (scanLine mode (line (scanLine mode raw))) text' later' := by
  have hflat : line (scanLine mode raw) = flat (⟨.code, text'⟩ :: later') := hline
  have hreads := (readsAs_line_iff mode raw).mpr hfuses
  rw [hflat] at hreads ⊢
  refine ⟨h.startsInCode, segments_of_keeps ?_ hreads⟩
  rw [h.segments_eq]
  exact .cons hkeeps hlater

theorem keeps_code {text text' : List Char} (hsolid : solid text' = solid text)
    (hne : text ≠ [] → text' ≠ []) : Keeps ⟨.code, text⟩ ⟨.code, text'⟩ :=
  ⟨rfl, fun h => absurd rfl h, hsolid, hne⟩

theorem indent_append {indent head : List Char} (hindent : ∀ b ∈ indent, isIndent b = true)
    (hhead : ∀ c ∈ head.head?, isIndent c = false) :
    (indent ++ head).takeWhile isIndent = indent ∧ (indent ++ head).dropWhile isIndent = head := by
  rw [List.takeWhile_append_of_pos hindent, List.dropWhile_append_of_pos hindent]
  cases head with
  | nil => simp
  | cons c head =>
    have hc : ¬ isIndent c = true := by simp [hhead c rfl]
    rw [List.takeWhile_cons_of_neg hc, List.dropWhile_cons_of_neg hc, List.append_nil]
    exact ⟨rfl, rfl⟩

/-- A greater sign that has been set off at the front of a line is taken for a marker, and the rest
comes out behind it as it is. -/
theorem codeLine_new_marker {role : Role} {z : Char} {cs : List Char} (ts : List Segment)
    (hrole : role = .watch ∨ role = .test) (hz : isOperatorChar z = true)
    (hmarker : watchMarker? ('>' :: ' ' :: z :: cs) = some ['>'])
    (hcode : code (!ts.isEmpty) none 0 [] [] ('>' :: ' ' :: z :: cs) =
      ('>' :: ' ' :: z :: cs).reverse) :
    codeLine role ('>' :: ' ' :: z :: cs) ts =
      (segments ('>' :: ' ' :: z :: cs).reverse ts).reverse := by
  have hspace : isSpace z = false := by
    refine Bool.eq_false_iff.mpr fun hspace => ?_
    rw [not_operator_of_isSpace hspace] at hz
    cases hz
  have htrim : trimStart (' ' :: z :: cs) = z :: cs := by
    rw [trimStart, List.dropWhile_cons_of_pos (by decide),
      List.dropWhile_cons_of_neg (by simp [hspace])]
  have hmarker' : watchMarker? (['>'] ++ ' ' :: z :: cs) = some ['>'] := hmarker
  have hline := codeLine_of_marker ts hrole hmarker'
  rw [htrim] at hline
  exact hline.trans (congrArg (fun out => (segments out ts).reverse) (code_new_marker hz hcode))

/-- A line of code without a marker. -/
theorem Begins.line_again_of_no_marker {indent head : List Char}
    (h : Begins (scanLine mode raw) (indent ++ head) later)
    (hindent : ∀ b ∈ indent, isIndent b = true) (hhead : ∀ c ∈ head.head?, isIndent c = false)
    (hset : isSet (scanLine mode raw) = true) (hfuses : fuses (scanLine mode raw) = false)
    (hhides : hidesOperator (scanLine mode raw) = false)
    (hmark : keepsMark (scanLine mode raw) = true)
    (hline : line (scanLine mode raw) = indent ++
      codeLine (Role.ofCode (scanLine mode raw).codeText) head later)
    (hmarker : ¬ ((Role.ofCode (scanLine mode raw).codeText = .watch ∨
        Role.ofCode (scanLine mode raw).codeText = .test) ∧ (watchMarker? head).isSome = true)) :
    line (scanLine mode (line (scanLine mode raw))) = line (scanLine mode raw) := by
  obtain ⟨htake, hdrop⟩ := indent_append hindent hhead
  rw [h.hides_eq, hdrop] at hhides
  have hclean := clean_special hhides
  have hmarked := marked_special? (Role.ofCode (scanLine mode raw).codeText) head
  rw [codeLine_of_no_marker later hmarker] at hline
  have hrank := h.markRank_eq (raw_scanLine mode raw)
  rw [hdrop] at hrank
  generalize special? (Role.ofCode (scanLine mode raw).codeText) head = place at *
  -- the code and what it is set as, and then the segments behind it
  obtain ⟨head', hsets⟩ := exists_sets (!later.isEmpty) hclean.marks false [] none
  obtain ⟨later', hlater⟩ := h.exists_later hset hfuses head'.reverse
  rw [code_of_sets hsets hmarked hclean.marks, hlater.segments_eq, ← List.reverse_append,
    List.reverse_reverse] at hline
  have hhead' := hsets.head_eq hhead
  have hblank' : ∀ c ∈ head'.head?, isIndent c = false := by rwa [hhead']
  obtain ⟨htake', hdrop'⟩ := indent_append hindent hblank'
  have hkeeps : Keeps ⟨.code, indent ++ head⟩ ⟨.code, indent ++ head'⟩ := by
    apply keeps_code
    · rw [solid_append, solid_append, hsets.solid_eq]
    · intro hne hnil
      rw [List.append_eq_nil_iff] at hnil
      rw [hnil.2] at hhead'
      rw [hnil.1, List.head?_eq_none_iff.mp hhead'.symm] at hne
      exact hne rfl
  have hagain := h.again hfuses (by rw [hline, List.append_assoc]) hkeeps hlater.keeps
  have hout : line (scanLine mode raw) = indent ++ (segments head'.reverse later').reverse := by
    rw [hline, hlater.again.segments_eq, ← List.reverse_append, List.reverse_reverse]
  rcases line_cases (scanLine mode (line (scanLine mode raw)))
    with hraw | ⟨text', later'', hbegins, hline'⟩ | ⟨hnot, -⟩
  · exact hraw
  · obtain ⟨htext, rfl⟩ := List.cons.inj (hbegins.segments_eq.symm.trans hagain.segments_eq)
    obtain rfl : text' = indent ++ head' := congrArg Segment.text htext
    rw [htake', hdrop'] at hline'
    refine hline'.trans (Eq.trans (congrArg (indent ++ ·) ?_) hout.symm)
    by_cases hmarker' : (Role.ofCode (scanLine mode (line (scanLine mode raw))).codeText = .watch ∨
        Role.ofCode (scanLine mode (line (scanLine mode raw))).codeText = .test) ∧
        (watchMarker? head').isSome = true
    · -- the marker is new, so the line began with an operator
      obtain ⟨hrole', hsome⟩ := hmarker'
      obtain ⟨marker, hfound⟩ := Option.isSome_iff_exists.mp hsome
      rcases marker_of_sets hsets hclean hhead hfound with hold | ⟨rfl, z, r, rfl, hz⟩
      · obtain ⟨rest, rfl⟩ := eq_append_of_watchMarker? hold
        have hrole := role_of_marker hindent hold h.next
        rw [← h.codeText_eq] at hrole
        exact absurd ⟨hrole, by rw [hold]; rfl⟩ hmarker
      · have hsame :=
          code_again none hsets hclean hmarked (fun _ h => by cases h) fun _ h => by cases h
        rw [← hlater.isEmpty_eq] at hsame
        exact codeLine_new_marker later'' hrole' hz hfound hsame
    · rw [codeLine_of_no_marker later'' hmarker', hlater.isEmpty_eq]
      have hrank' := hagain.markRank_eq (raw_scanLine mode _)
      have hmarked' :=
        marked_special? (Role.ofCode (scanLine mode (line (scanLine mode raw))).codeText) head'
      rw [hdrop'] at hrank'
      rw [code_again _ hsets hclean hmarked hmarked']
      intro k' hk'
      rw [hk', Option.map_some] at hrank'
      have hsame : markRank (scanLine mode (line (scanLine mode raw))) =
          markRank (scanLine mode raw) := by
        simpa [keepsMark, show (scanLine mode raw).startsIn = mode from rfl, hrank'] using hmark
      rw [hrank', hrank] at hsame
      obtain ⟨k, hk, hsolid⟩ := Option.map_eq_some_iff.mp hsame.symm
      exact ⟨k, hk, hsolid.symm⟩
  · exact absurd hagain (hnot _ _)

/-- What comes out behind a marker, and comes out again. -/
theorem exists_behind_marker {marker rest : List Char} (ts : List Segment)
    (hmarker : watchMarker? (marker ++ rest) = some marker) :
    ∃ out, code (!ts.isEmpty) none 0 []
          (if (trimStart rest).isEmpty && ts.isEmpty then marker.reverse else ' ' :: marker.reverse)
          (trimStart rest) =
        out.reverse ++ marker.reverse ∧
      code (!ts.isEmpty) none 0 []
          (if (trimStart out).isEmpty && ts.isEmpty then marker.reverse else ' ' :: marker.reverse)
          (trimStart out) =
        out.reverse ++ marker.reverse ∧
      solid out = solid rest ∧ ∀ c ∈ out.head?, isOperatorChar c = false := by
  have hlast : marker.reverse.head? = some '>' := by
    rcases marker_of_watchMarker? hmarker with rfl | rfl <;> rfl
  have hblank : ∀ c ∈ marker.reverse.head?, isIndent c = false := by
    intro c hc
    rw [hlast] at hc
    cases hc
    rfl
  have hbody : ∀ c ∈ (trimStart rest).head?, isSpace c = false :=
    head?_dropWhile_eq_false isSpace rest
  have hsolid : solid (trimStart rest) = solid rest := solid_trimStart rest
  generalize trimStart rest = body at *
  by_cases hempty : (body.isEmpty && ts.isEmpty) = true
  · -- nothing follows the marker
    obtain ⟨hnil, hnone⟩ := Bool.and_eq_true_iff.mp hempty
    refine ⟨[], ?_, ?_, ?_, fun _ h => by cases h⟩
    · rw [if_pos hempty, List.isEmpty_iff.mp hnil]
      rfl
    · rw [if_pos (by rw [hnone]; rfl)]
      rfl
    · rw [← hsolid, List.isEmpty_iff.mp hnil]
  · obtain ⟨out, hout⟩ :=
      exists_sets (!ts.isEmpty) (clean_none ([' '] ++ body)).marks false [] (some '>')
    have hcases := hout.behind_marker hbody
    have hmore : ((trimStart out).isEmpty && ts.isEmpty) = false := by
      rcases hcases with ⟨hnil, -⟩ | ⟨c, cs, rfl, hc⟩ | ⟨cs, rfl⟩
      · rw [hnil, List.isEmpty_nil, Bool.true_and] at hempty
        rw [Bool.eq_false_iff.mpr hempty, Bool.and_false]
      · rw [trimStart, List.dropWhile_cons_of_pos (by decide),
          List.dropWhile_cons_of_neg (by simp [hc])]
        rfl
      · rw [trimStart, List.dropWhile_cons_of_neg (by decide)]
        rfl
    refine ⟨out, ?_, ?_, ?_, ?_⟩
    · rw [if_neg hempty]
      exact code_behind_gap [' '] hout (by simp [isIndent]) hlast hblank
    · rw [hmore]
      exact code_marker_again hout hbody hlast
    · rw [hout.solid_eq, solid_append, hsolid]
      rfl
    · intro c hc
      rcases hcases with ⟨-, rfl⟩ | ⟨d, cs, rfl, -⟩ | ⟨cs, rfl⟩ <;> cases hc <;> rfl

/-- A watch or a test expression. -/
theorem Begins.line_again_of_marker {indent marker rest : List Char}
    (h : Begins (scanLine mode raw) (indent ++ (marker ++ rest)) later)
    (hindent : ∀ b ∈ indent, isIndent b = true) (hset : isSet (scanLine mode raw) = true)
    (hfuses : fuses (scanLine mode raw) = false)
    (hrole : Role.ofCode (scanLine mode raw).codeText = .watch ∨
      Role.ofCode (scanLine mode raw).codeText = .test)
    (hmarker : watchMarker? (marker ++ rest) = some marker)
    (hline : line (scanLine mode raw) =
      indent ++ codeLine (Role.ofCode (scanLine mode raw).codeText) (marker ++ rest) later) :
    line (scanLine mode (line (scanLine mode raw))) = line (scanLine mode raw) := by
  obtain ⟨out, hcode, hcode', hsolid, hhead⟩ := exists_behind_marker later hmarker
  obtain ⟨later', hlater⟩ := h.exists_later hset hfuses (out.reverse ++ marker.reverse)
  have hfound : watchMarker? (marker ++ out) = some marker :=
    watchMarker?_of_head hmarker fun c hc => .inr (hhead c hc)
  rw [codeLine_of_marker later hrole hmarker, hcode, hlater.segments_eq] at hline
  have hne : marker ≠ [] := by
    rcases marker_of_watchMarker? hmarker with rfl | rfl
    · decide
    · decide
  have hkeeps : Keeps ⟨.code, indent ++ (marker ++ rest)⟩ ⟨.code, indent ++ (marker ++ out)⟩ := by
    apply keeps_code
    · simp only [solid_append, hsolid]
    · intro _ hnil
      exact hne (List.append_eq_nil_iff.mp (List.append_eq_nil_iff.mp hnil).2).1
  have hagain := h.again hfuses (by rw [hline]; simp) hkeeps hlater.keeps
  have hfirst : ∀ c ∈ (marker ++ out).head?, isIndent c = false := by
    intro c hc
    rcases marker_of_watchMarker? hmarker with rfl | rfl <;> cases hc <;> rfl
  obtain ⟨htake, hdrop⟩ := indent_append hindent hfirst
  rcases line_cases (scanLine mode (line (scanLine mode raw)))
    with hraw | ⟨text', later'', hbegins, hline'⟩ | ⟨hnot, -⟩
  · exact hraw
  · obtain ⟨htext, rfl⟩ := List.cons.inj (hbegins.segments_eq.symm.trans hagain.segments_eq)
    obtain rfl : text' = indent ++ (marker ++ out) := congrArg Segment.text htext
    have hrole' := role_of_marker hindent hfound hbegins.next
    rw [← hbegins.codeText_eq] at hrole'
    rw [htake, hdrop, codeLine_of_marker later'' hrole' hfound, hlater.isEmpty_eq, hcode',
      hlater.again.segments_eq] at hline'
    exact hline'.trans hline.symm
  · exact absurd hagain (hnot _ _)

/-- A line that begins with a literal or a comment, or inside one. -/
theorem line_again_of_segments (hset : isSet (scanLine mode raw) = true)
    (hfuses : fuses (scanLine mode raw) = false)
    (hnot : ∀ text later, ¬ Begins (scanLine mode raw) text later)
    (hline : line (scanLine mode raw) = (segments [] (scanLine mode raw).segments).reverse) :
    line (scanLine mode (line (scanLine mode raw))) = line (scanLine mode raw) := by
  have hlexed : Lexed (.start mode) (scanLine mode raw).segments :=
    lexed_ofMarks (Cursor.sound_start mode raw)
  have hspecial : lineSpecial (scanLine mode raw) = none := by
    unfold lineSpecial
    split
    · rfl
    · rename_i t ts hts
      apply if_neg
      intro hcode
      obtain ⟨kind, text⟩ := t
      obtain ⟨hstart, hkind⟩ := hcode
      cases hkind
      exact hnot text ts ⟨hstart, hts⟩
  have hreads := (readsAs_line_iff mode raw).mpr hfuses
  rw [fuses, hset, Bool.true_and, hspecial] at hfuses
  obtain ⟨us, hus⟩ : ∃ us, SetsEach [] (scanLine mode raw).segments us :=
    exists_setsEach hlexed (Cursor.sound_start mode _) (fun _ => rfl) hfuses fun _ _ _ => .inl rfl
  rw [hus.segments_eq, List.append_nil, List.reverse_reverse] at hline
  have hsegments : (scanLine mode (line (scanLine mode raw))).segments = us := by
    rw [hline] at hreads ⊢
    exact segments_of_keeps hus.keeps hreads
  rcases line_cases (scanLine mode (line (scanLine mode raw)))
    with hraw | ⟨text', later', hbegins, -⟩ | ⟨-, hline'⟩
  · exact hraw
  · -- the first segment would have been code before
    have hkeeps := hus.keeps
    rw [← hsegments, hbegins.segments_eq] at hkeeps
    obtain ⟨t, ts, hkeep, -, hts⟩ := List.forall₂_cons_right_iff.mp hkeeps
    obtain ⟨kind, text⟩ := t
    obtain ⟨hkind, -⟩ := hkeep
    cases hkind
    exact absurd ⟨hbegins.startsInCode, hts⟩ (hnot text ts)
  · rw [hsegments, hus.again.segments_eq, List.append_nil, List.reverse_reverse] at hline'
    exact hline'.trans hline.symm

/-- A line that has been set stays as it is, as long as nothing in it fuses and its mark stays what
it is. -/
theorem line_again (hfuses : fuses (scanLine mode raw) = false)
    (hhides : hidesOperator (scanLine mode raw) = false)
    (hmark : keepsMark (scanLine mode raw) = true) :
    line (scanLine mode (line (scanLine mode raw))) = line (scanLine mode raw) := by
  cases hset : isSet (scanLine mode raw) with
  | false =>
    have hline : line (scanLine mode raw) = raw := line_of_not_isSet hset
    rw [hline, hline]
  | true =>
    rcases line_cases (scanLine mode raw) with hraw | ⟨text, later, hbegins, hline⟩ | ⟨hnot, hline⟩
    · have hsame : line (scanLine mode raw) = raw := hraw
      rw [hsame, hsame]
    · have htext : text.takeWhile isIndent ++ text.dropWhile isIndent = text :=
        List.takeWhile_append_dropWhile
      have hindent : ∀ b ∈ text.takeWhile isIndent, isIndent b = true :=
        List.all_eq_true.mp List.all_takeWhile
      have hhead := head?_dropWhile_eq_false isIndent text
      generalize text.takeWhile isIndent = indent at *
      generalize text.dropWhile isIndent = head at *
      subst htext
      by_cases hmarker : (Role.ofCode (scanLine mode raw).codeText = .watch ∨
          Role.ofCode (scanLine mode raw).codeText = .test) ∧ (watchMarker? head).isSome = true
      · obtain ⟨marker, hfound⟩ := Option.isSome_iff_exists.mp hmarker.2
        obtain ⟨rest, rfl⟩ := eq_append_of_watchMarker? hfound
        exact hbegins.line_again_of_marker hindent hset hfuses hmarker.1 hfound hline
      · exact hbegins.line_again_of_no_marker hindent hhead hset hfuses hhides hmark hline hmarker
    · exact line_again_of_segments hset hfuses hnot hline

end Again

/-- What each line leaves open is what it left open before, so all lines stay as they are. -/
theorem lines_again (mode : Mode) (ls : List (List Char))
    (h : ∀ l ∈ scanFrom mode ls, fuses l = false ∧ hidesOperator l = false ∧ keepsMark l = true) :
    (scanFrom mode ((scanFrom mode ls).map line)).map line = (scanFrom mode ls).map line := by
  induction ls generalizing mode with
  | nil => rfl
  | cons raw ls ih =>
    obtain ⟨hfuses, hhides, hmark⟩ := h _ List.mem_cons_self
    simp only [scanFrom, List.map_cons]
    rw [line_again hfuses hhides hmark, ((readsAs_line_iff mode raw).mpr hfuses).endsIn]
    congr 1
    apply ih
    intro l hl
    exact h l (List.mem_cons_of_mem _ hl)

end Gaps

/-- Setting the gaps of a text again changes nothing if no line fuses, no mark hides an operator and
no line comes to have its mark at another place. -/
theorem set_set {text : List Char}
    (h : ∀ l ∈ scan text, Gaps.fuses l = false ∧ Gaps.hidesOperator l = false ∧
      Gaps.keepsMark l = true) :
    Gaps.set (Gaps.set text) = Gaps.set text := by
  have hlines : scan (Gaps.set text) = scanFrom .code ((scan text).map Gaps.line) := by
    rw [scan, Gaps.lines_set]
  unfold Gaps.set at hlines ⊢
  rw [hlines, scan, Gaps.lines_again .code (lines text) h]

theorem set_set_program :
    (∀ l ∈ scan "f:Nat->Nat\nf x=g(x,-1)\n>f 2+\"a\"".toList,
        Gaps.fuses l = false ∧ Gaps.hidesOperator l = false ∧ Gaps.keepsMark l = true) ∧
      Gaps.set (Gaps.set "f:Nat->Nat\nf x=g(x,-1)\n>f 2+\"a\"".toList) =
        Gaps.set "f:Nat->Nat\nf x=g(x,-1)\n>f 2+\"a\"".toList :=
  ⟨by decide +kernel, set_set (by decide +kernel)⟩

/-- An equals sign right before `<` hides it. Set off by the first run, it is an operator in the
second. -/
theorem set_set_less :
    Gaps.set "x=<1".toList = "x = <1".toList ∧
      Gaps.set (Gaps.set "x=<1".toList) = "x = < 1".toList := by
  decide +kernel

end ScratchFormat
