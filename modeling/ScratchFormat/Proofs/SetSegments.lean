import ScratchFormat.Proofs.Rescan
import ScratchFormat.Proofs.SetAgain

/-! Segments whose gaps have been set. As long as nothing fuses, the scanner finds them again as
they are, and setting their gaps once more changes nothing. -/

namespace ScratchFormat

namespace Gaps

/-- Segments that can follow one another where the scanner is idle. Two stretches of code never do,
and no literal or comment opens with white space. -/
inductive Cut : List Segment → Prop
  | nil : Cut []
  | code {text : List Char} {ts : List Segment} (hne : text ≠ [])
    (hnext : ∀ t ∈ ts.head?, t.kind ≠ .code) (h : Cut ts) : Cut (⟨.code, text⟩ :: ts)
  | token {kind : Kind} {c : Char} {text : List Char} {ts : List Segment} (hkind : kind ≠ .code)
    (hfirst : isSpace c = false) (h : Cut ts) : Cut (⟨kind, c :: text⟩ :: ts)

/-- What follows a stretch of code does not begin with white space. -/
theorem Cut.head_flat {ts : List Segment} (h : Cut ts) (hnext : ∀ t ∈ ts.head?, t.kind ≠ .code) :
    (∀ c ∈ (flat ts).head?, isSpace c = false) ∧
      ∀ p ∈ (ts.flatMap Segment.kinds).head?, p.2 ≠ .code := by
  cases h with
  | nil => exact ⟨fun _ h => (by cases h), fun _ h => (by cases h)⟩
  | code => exact absurd rfl (hnext _ rfl)
  | @token kind c text ts hkind hfirst h =>
    constructor
    · intro d hd
      cases hd
      exact hfirst
    · intro p hp
      rw [List.flatMap_cons, Segment.kinds, if_neg hkind] at hp
      cases hp
      exact hkind

/-- A stretch of code ends where its last character that is not white space has been seen and the
next literal or comment begins. -/
theorem eq_of_solid_eq {text text' rest rest' : List Char} (h : text ++ rest = text' ++ rest')
    (hsolid : solid text = solid text') (hrest : ∀ c ∈ rest.head?, isSpace c = false)
    (hrest' : ∀ c ∈ rest'.head?, isSpace c = false) : text = text' := by
  -- what one stretch has more than the other is white space, and the other goes on with something else
  have hmore : ∀ {as bs cs ds es : List Char}, bs = as ++ cs → ds = cs ++ es → solid as = solid bs →
      (∀ c ∈ ds.head?, isSpace c = false) → cs = [] := by
    intro as bs cs ds es hbs hds hsolid hhead
    have hwhite : solid cs = [] := by
      rw [hbs, solid_append] at hsolid
      exact List.self_eq_append_right.mp hsolid
    cases cs with
    | nil => rfl
    | cons c cs =>
      have hc := hhead c (by rw [hds]; rfl)
      rw [solid, List.filter_cons_of_pos (by simp [hc])] at hwhite
      cases hwhite
  rcases List.append_eq_append_iff.mp h with ⟨cs, htext, hrest₁⟩ | ⟨cs, htext, hrest₁⟩
  · rw [htext, hmore htext hrest₁ hsolid hrest, List.append_nil]
  · rw [htext, hmore htext hrest₁ hsolid.symm hrest', List.append_nil]

/-- Two texts of the same solid characters and kinds have the same code in front. -/
theorem solid_eq_of_kinds {text text' : List Char} {ps ps' : List (Char × Kind)}
    (h : (solid text).map (·, Kind.code) ++ ps = (solid text').map (·, Kind.code) ++ ps')
    (hps : ∀ p ∈ ps.head?, p.2 ≠ .code) (hps' : ∀ p ∈ ps'.head?, p.2 ≠ .code) :
    solid text = solid text' ∧ ps = ps' := by
  have hcode : ∀ (cs : List Char) (qs : List (Char × Kind)), (∀ p ∈ qs.head?, p.2 ≠ .code) →
      (cs.map (·, Kind.code) ++ qs).takeWhile (fun p => p.2 = .code) = cs.map (·, Kind.code) := by
    intro cs qs hqs
    rw [List.takeWhile_append_of_pos (by simp)]
    cases qs with
    | nil => simp
    | cons q qs => rw [List.takeWhile_cons_of_neg (by simpa using hqs q rfl), List.append_nil]
  have hmap : (solid text).map (·, Kind.code) = (solid text').map (·, Kind.code) := by
    calc (solid text).map (·, Kind.code)
        = ((solid text).map (·, Kind.code) ++ ps).takeWhile (fun p => p.2 = .code) :=
          (hcode _ ps hps).symm
      _ = ((solid text').map (·, Kind.code) ++ ps').takeWhile (fun p => p.2 = .code) := by rw [h]
      _ = (solid text').map (·, Kind.code) := hcode _ ps' hps'
  constructor
  · simpa [Function.comp_def] using congrArg (List.map Prod.fst) hmap
  · rw [hmap] at h
    exact List.append_cancel_left h

theorem kinds_code (text : List Char) :
    Segment.kinds ⟨.code, text⟩ = (solid text).map (·, Kind.code) := rfl

/-- A stretch of code and a literal or a comment do not begin the same text. -/
theorem not_code_of_token {kind : Kind} {c : Char} {text text' : List Char} {ts us : List Segment}
    (hkind : kind ≠ .code) (hfirst : isSpace c = false) (hne : text ≠ [])
    (htext : flat (⟨.code, text⟩ :: ts) = flat (⟨kind, c :: text'⟩ :: us))
    (hkinds : (⟨.code, text⟩ :: ts).flatMap Segment.kinds =
      (⟨kind, c :: text'⟩ :: us).flatMap Segment.kinds) : False := by
  obtain ⟨d, ds, rfl⟩ := List.exists_cons_of_ne_nil hne
  have hd : d = c := (List.cons.inj htext).1
  rw [List.flatMap_cons, List.flatMap_cons, kinds_code, solid, hd,
    List.filter_cons_of_pos (by simp [hfirst]), Segment.kinds, if_neg hkind] at hkinds
  exact hkind (congrArg Prod.snd (List.cons.inj hkinds).1).symm

/-- A text is cut in one way only, if its literals and comments and the characters of its code are
given. -/
theorem Cut.unique {ts us : List Segment} (h : Cut ts) (h' : Cut us) (htext : flat ts = flat us)
    (htokens : ts.filter (·.kind != .code) = us.filter (·.kind != .code))
    (hkinds : ts.flatMap Segment.kinds = us.flatMap Segment.kinds) : ts = us := by
  induction h generalizing us with
  | nil =>
    cases h' with
    | nil => rfl
    | code hne => exact absurd (List.append_eq_nil_iff.mp htext.symm).1 hne
    | token => cases htext
  | @code text ts hne hnext h ih =>
    cases h' with
    | nil => exact absurd (List.append_eq_nil_iff.mp htext).1 hne
    | token hkind hfirst h' => exact (not_code_of_token hkind hfirst hne htext hkinds).elim
    | @code text' us hne' hnext' h' =>
      obtain ⟨hhead, hkinds₁⟩ := h.head_flat hnext
      obtain ⟨hhead', hkinds₂⟩ := h'.head_flat hnext'
      obtain ⟨hsolid, hrest⟩ := solid_eq_of_kinds hkinds hkinds₁ hkinds₂
      have hsame : text = text' := eq_of_solid_eq htext hsolid hhead hhead'
      subst hsame
      rw [ih h' (List.append_cancel_left htext) htokens hrest]
  | @token kind c text ts hkind hfirst h ih =>
    cases h' with
    | nil => cases htext
    | code hne => exact (not_code_of_token hkind hfirst hne htext.symm hkinds.symm).elim
    | @token kind' c' text' us hkind' hfirst' h' =>
      rw [List.filter_cons_of_pos (by simpa using hkind),
        List.filter_cons_of_pos (by simpa using hkind')] at htokens
      obtain ⟨hsame, htokens⟩ := List.cons.inj htokens
      rw [hsame] at htext hkinds ⊢
      rw [ih h' (List.append_cancel_left htext) htokens (List.append_cancel_left hkinds)]

/-- The scanner cuts a line so, from where it is idle on. -/
theorem cut_of_lexed {s : Cursor} {ts : List Segment} (h : Lexed s ts) (hs : ts ≠ [] → s.Idle)
    (hne : ∀ t ∈ ts, t.text ≠ []) : Cut ts := by
  induction h with
  | nil => exact .nil
  | @code s text ts hidle hnext h ih =>
    refine .code (hne _ List.mem_cons_self) hnext ?_
    apply ih fun _ => Cursor.idle_run_of_idleAlong hidle
    intro t ht
    exact hne t (List.mem_cons_of_mem _ ht)
  | @token s kind c text ts hkind hmark hbusy hidle h ih =>
    obtain ⟨hopens, -⟩ := Cursor.opener_of_mark (hs (List.cons_ne_nil _ _)) (hmark ▸ hkind)
    have hfirst : isSpace c = false := by
      rcases hopens with rfl | rfl | rfl | rfl | rfl <;> decide
    refine .token hkind hfirst ?_
    apply ih hidle
    intro t ht
    exact hne t (List.mem_cons_of_mem _ ht)

/-- A segment with other gaps: a literal or a comment stays, and code keeps its characters. -/
def Keeps (t u : Segment) : Prop :=
  u.kind = t.kind ∧ (t.kind ≠ .code → u = t) ∧ solid u.text = solid t.text ∧
    (t.text ≠ [] → u.text ≠ [])

theorem Keeps.kinds_eq {t u : Segment} (h : Keeps t u) : u.kinds = t.kinds := by
  by_cases hcode : t.kind = .code
  · rw [Segment.kinds, Segment.kinds, if_pos hcode, if_pos (h.1.trans hcode), h.2.2.1, h.1]
  · rw [h.2.1 hcode]

section Keeps

variable {ts us : List Segment}

theorem kinds_of_keeps (h : List.Forall₂ Keeps ts us) :
    us.flatMap Segment.kinds = ts.flatMap Segment.kinds := by
  induction h with
  | nil => rfl
  | cons htu _ ih => rw [List.flatMap_cons, List.flatMap_cons, htu.kinds_eq, ih]

theorem tokens_of_keeps (h : List.Forall₂ Keeps ts us) :
    us.filter (·.kind != .code) = ts.filter (·.kind != .code) := by
  induction h with
  | nil => rfl
  | @cons t u ts us htu _ ih =>
    by_cases hcode : t.kind = .code
    · rw [List.filter_cons_of_neg (by simp [htu.1, hcode]),
        List.filter_cons_of_neg (by simp [hcode]), ih]
    · rw [htu.2.1 hcode, List.filter_cons_of_pos (by simpa using hcode),
        List.filter_cons_of_pos (by simpa using hcode), ih]

/-- Segments with other gaps follow one another as before. -/
theorem cut_of_keeps (h : List.Forall₂ Keeps ts us) (hcut : Cut ts) : Cut us := by
  induction h with
  | nil => exact .nil
  | @cons t u ts us htu hrest ih =>
    cases hcut with
    | @code text ts hne hnext hcut =>
      obtain ⟨kind, new⟩ := u
      obtain ⟨hkind, -, -, hnew⟩ := htu
      cases hkind
      refine .code (hnew hne) ?_ (ih hcut)
      -- what follows is of the same kind as before
      intro v hv
      cases hrest with
      | nil => cases hv
      | @cons t' u' _ _ htu' _ =>
        cases hv
        rw [htu'.1]
        exact hnext t' rfl
    | token hkind hfirst hcut =>
      rw [htu.2.1 hkind]
      exact .token hkind hfirst (ih hcut)

end Keeps

/-- A line that is read as before consists of the segments it has been set to. -/
theorem segments_of_keeps {mode : Mode} {raw : List Char} {us : List Segment}
    (hkeeps : List.Forall₂ Keeps (scanLine mode raw).segments us)
    (hreads : (scanLine mode raw).ReadsAs (scanLine mode (flat us))) :
    (scanLine mode (flat us)).segments = us := by
  have hlexed : ∀ cs, Lexed (.start mode) (scanLine mode cs).segments :=
    fun cs => lexed_ofMarks (Cursor.sound_start mode cs)
  have hne : ∀ cs, ∀ t ∈ (scanLine mode cs).segments, t.text ≠ [] := fun cs => ne_nil_of_mem_ofMarks
  have hflat : flat (scanLine mode (flat us)).segments = flat us :=
    segments_flatMap_text mode (flat us)
  have htokens : (scanLine mode (flat us)).segments.filter (·.kind != .code) =
      us.filter (·.kind != .code) :=
    hreads.tokens.trans (tokens_of_keeps hkeeps).symm
  have hkinds : (scanLine mode (flat us)).segments.flatMap Segment.kinds =
      us.flatMap Segment.kinds :=
    hreads.kinds.trans (kinds_of_keeps hkeeps).symm
  by_cases hmode : mode = .code
  · have hidle : (Cursor.start mode).Idle := ⟨hmode, rfl⟩
    exact (cut_of_lexed (hlexed _) (fun _ => hidle) (hne _)).unique
      (cut_of_keeps hkeeps (cut_of_lexed (hlexed raw) (fun _ => hidle) (hne raw))) hflat
        htokens hkinds
  · -- the line goes on inside what the line above left open, and that is the first segment of both
    have hbusy : ¬ (Cursor.start mode).Idle := fun h => hmode h.1
    have hfirst : ∀ cs, (scanLine mode cs).segments = [] ∨ ∃ t ts,
        (scanLine mode cs).segments = t :: ts ∧ t.kind ≠ .code ∧ Cut ts := by
      intro cs
      have hlexed' := hlexed cs
      have hne' := hne cs
      generalize (scanLine mode cs).segments = ts at hlexed' hne'
      cases hlexed' with
      | nil => exact .inl rfl
      | code hidle => exact absurd (Cursor.idle_of_idleAlong hidle) hbusy
      | token hkind _ _ hidle h =>
        exact .inr
          ⟨_, _, rfl, hkind, cut_of_lexed h hidle fun t ht => hne' t (List.mem_cons_of_mem _ ht)⟩
    rcases hfirst raw with hnil | ⟨t, ts, hts, hkind, hcut⟩
    · rw [hnil] at hkeeps
      cases hkeeps
      rfl
    · rw [hts] at hkeeps
      obtain ⟨u, us, htu, hlater, rfl⟩ := List.forall₂_cons_left_iff.mp hkeeps
      rw [htu.2.1 hkind] at hflat htokens hkinds ⊢
      rcases hfirst (flat (t :: us)) with hnil | ⟨t', ts', hts', hkind', hcut'⟩
      · rw [hnil, List.filter_cons_of_pos (by simpa using hkind)] at htokens
        cases htokens
      · rw [hts'] at hflat htokens hkinds ⊢
        rw [List.filter_cons_of_pos (by simpa using hkind'),
          List.filter_cons_of_pos (by simpa using hkind)] at htokens
        obtain ⟨rfl, hrest⟩ := List.cons.inj htokens
        rw [hcut'.unique (cut_of_keeps hlater hcut) (List.append_cancel_left hflat) hrest
          (List.append_cancel_left hkinds)]

section Sets

variable {more due : Bool} {mark : Option Nat} {front old new : List Char} {x : Option Char}

/-- Code keeps its solid characters when it is set. -/
theorem Sets.solid_eq (h : Sets more mark due front x old new) : solid new = solid old := by
  -- every gap, before and after, is made of blanks
  have hrest : ∀ {due : Bool} {gap : List Char} {c : Char}, (∀ b ∈ gap, isIndent b = true) →
      solid (restGap due gap c) = [] :=
    fun hgap => solid_of_blanks (isIndent_of_mem_restGap hgap)
  induction h with
  | @done due front gap x hgap =>
    rw [solid_of_blanks hgap, endGap]
    split
    · split <;> rfl
    · exact solid_of_blanks hgap
  | @plain due front gap old new x c hgap hblank hop hcomma hmark h ih =>
    rw [solid_append, solid_append, hrest hgap, solid_of_blanks hgap, solid_cons,
      solid_cons c old, ih]
  | @comma due front gap old new x hgap hmark h ih =>
    rw [solid_append, solid_of_blanks hgap, solid_cons, solid_cons ',' old, ih, List.nil_append]
  | @mark due front gap old new x c hgap hc hmark h ih =>
    rw [solid_append, solid_append, solid_of_blanks isIndent_of_mem_offGap,
      solid_of_blanks hgap, solid_cons, solid_cons c old, ih]
  | @raw due front gap ys old new x y hgap hrun hmark hstop hsplit h ih =>
    simp only [solid_append, hrest hgap, solid_of_blanks hgap, ih]
  | @split due sign front gap ys old new x y ops hgap hrun hmark hstop hsplit hsign h ih =>
    obtain ⟨-, hflat, -⟩ := splitRun?_flatMap_text hsplit
    have hlead : solid (leadGap due sign gap x y ops) = [] :=
      solid_of_blanks (isIndent_of_mem_leadGap hgap)
    simp only [solid_append, hlead, solid_of_blanks hgap, solid_spread, hflat, List.drop_zero, ih]

/-- Only blanks are set as blanks, and they stay unless a gap is due. -/
theorem Sets.eq_of_blanks (h : Sets more mark false front x old new)
    (hnew : ∀ b ∈ new, isIndent b = true) : new = old := by
  -- any other piece puts out a character that is no blank
  have hno : ∀ (as : List Char) {bs : List Char} {c : Char}, new = as ++ c :: bs →
      isIndent c = false → False := by
    intro as bs c hcs hc
    have hblank := hnew c (by rw [hcs]; simp)
    rw [hc] at hblank
    cases hblank
  cases h with
  | done => rfl
  | plain _ hblank => exact (hno _ rfl hblank).elim
  | comma => exact (hno [] rfl (by decide)).elim
  | mark _ hc => exact (hno _ rfl (by rcases hc with rfl | rfl <;> decide)).elim
  | raw _ hrun =>
    exact (hno _ rfl (not_isIndent_of_isOperatorChar (hrun _ List.mem_cons_self))).elim
  | split _ hrun _ _ hsplit =>
    obtain ⟨zs, hzs⟩ := exists_cons_spread hsplit
    exact (hno _ (by rw [hzs]; rfl)
      (not_isIndent_of_isOperatorChar (hrun _ List.mem_cons_self))).elim

end Sets

def SetsBehind (more : Bool) (base text new : List Char) : Prop :=
  Sets more none false [] (base.dropWhile isIndent).head?
    ((base.takeWhile isIndent).reverse ++ text)
    ((base.takeWhile isIndent).reverse ++ new)

section SetsBehind

variable {more : Bool} {base text new : List Char}

theorem isIndent_of_mem_gap (base : List Char) :
    ∀ b ∈ (base.takeWhile isIndent).reverse, isIndent b = true := by
  intro b hb
  exact List.all_eq_true.mp List.all_takeWhile b (List.mem_reverse.mp hb)

theorem clean_none (cs : List Char) : Clean none cs := fun _ _ _ _ h => by cases h

/-- Code is set in the same way whether the blanks before it are put out already or not. -/
theorem code_behind_gap (gap : List Char) {out : List Char} {x : Option Char}
    (h : Sets more none false [] x (gap ++ text) out) (hgap : ∀ b ∈ gap, isIndent b = true)
    (hx : base.head? = x) (hbase : ∀ c ∈ base.head?, isIndent c = false) :
    code more none 0 [] (gap.reverse ++ base) text = out.reverse ++ base := by
  have hyields := h.yields (clean_none _).marks hx hbase
  have hblanks := code_blanks more [] base text hgap (clean_none _).marks
  rw [placeOf_none, placeOf_none, List.append_nil] at hblanks
  -- blanks in front of an operator are like nothing
  rw [(SameFront.of_blanks hgap).code_eq] at hblanks
  simp only [Yields, Bool.false_eq_true, if_false, placeOf_none, hblanks] at hyields
  exact hyields

theorem SetsBehind.code_eq (h : SetsBehind more base text new) :
    code more none 0 [] base text = new.reverse ++ base := by
  have hbase := head?_dropWhile_eq_false isIndent base
  have hparts : base.takeWhile isIndent ++ base.dropWhile isIndent = base :=
    List.takeWhile_append_dropWhile
  have hcode := code_behind_gap _ h (isIndent_of_mem_gap base) rfl hbase
  rw [List.reverse_reverse, hparts, List.reverse_append, List.reverse_reverse, List.append_assoc,
    hparts] at hcode
  exact hcode

theorem SetsBehind.again (h : SetsBehind more base text new) : SetsBehind more base new new := by
  obtain ⟨_, -, -, hstays⟩ := Sets.again h (clean_none _) fun h => by cases h
  exact hstays none false [] (.inr fun _ h => by cases h) (fun h => by cases h) (.inl rfl) fun _ =>
    SameFront.refl []

/-- Code that is set behind other output keeps its characters. -/
theorem SetsBehind.keeps (h : SetsBehind more base text new) :
    Keeps ⟨.code, text⟩ ⟨.code, new⟩ := by
  refine ⟨rfl, fun h => absurd rfl h, ?_, ?_⟩
  · have hsolid := Sets.solid_eq h
    rw [solid_append, solid_append] at hsolid
    exact List.append_cancel_left hsolid
  · intro hne hnil
    simp only at hne hnil
    rw [hnil] at h
    have hsame := Sets.eq_of_blanks h (by simpa using isIndent_of_mem_gap base)
    exact hne (List.append_cancel_left hsame).symm

theorem exists_setsBehind_of_clear (more : Bool) (text : List Char)
    (hbase : base.takeWhile isIndent = []) : ∃ new, SetsBehind more base text new := by
  unfold SetsBehind
  rw [hbase]
  exact exists_sets more (clean_none text).marks false [] _

/-- An operator that is not a sign is set off behind a blank. -/
theorem setsOff_of_split {gap ys old : List Char} {y : Char} {ops : List Operator}
    (hgap : ∀ b ∈ gap, isIndent b = true) (hrun : ∀ c ∈ y :: ys, isOperatorChar c = true)
    (hstop : ∀ c ∈ old.head?, isOperatorChar c = false)
    (hsplit : splitRun? (gap.reverse ++ []) old 0 (y :: ys) = some ops)
    (hsign : (endsInSign true old.head? ops && ops.tail.isEmpty) = false) :
    setsOff none y (ys ++ old) = true := by
  obtain ⟨-, hflat, htable⟩ := splitRun?_flatMap_text hsplit
  rw [List.drop_zero] at hflat
  obtain ⟨op, ops, rfl⟩ :=
    List.exists_cons_of_ne_nil (splitRun?_ne_nil (List.cons_ne_nil y ys) hsplit)
  have hafter : runAfter none (ys ++ old) = ys := by
    have hend : old.takeWhile isOperatorChar = [] := by
      cases old with
      | nil => rfl
      | cons c old => exact List.takeWhile_cons_of_neg (by simp [hstop c rfl])
    rw [runAfter, Option.elim_none, List.takeWhile_append_of_pos fun c hc =>
      hrun c (List.mem_cons_of_mem y hc), hend, List.append_nil]
  have hsplit' : splitRun? [] old 0 (y :: ys) = some (op :: ops) := by
    rw [← hsplit]
    apply ((SameFront.of_blank _).splitRun?_eq old 0 (y :: ys)).symm
    intro c hc
    rw [List.append_nil] at hc
    exact hgap c (List.mem_reverse.mp (List.mem_of_head? hc))
  -- what stands behind the first operator
  obtain ⟨htext, -⟩ := Operator.isOperatorChar_of_mem_table (htable op List.mem_cons_self)
  obtain ⟨z, zs, hz⟩ := List.exists_cons_of_ne_nil htext
  have hbehind : (ys ++ old).drop (op.text.length - 1) = ops.flatMap Operator.text ++ old := by
    rw [List.flatMap_cons, hz] at hflat
    have hys : ys = zs ++ ops.flatMap Operator.text := (List.cons.inj hflat).2.symm
    rw [hys, hz, List.length_cons, Nat.add_sub_cancel, List.append_assoc, List.drop_left]
  have hnext : (op.sign && (ops.flatMap Operator.text ++ old).head?.any isAsciiDigit) = false := by
    cases ops with
    | nil => simpa [endsInSign] using hsign
    | cons op' ops =>
      obtain ⟨htext', hchars'⟩ := Operator.isOperatorChar_of_mem_table (htable op' (by simp))
      obtain ⟨w, ws, hw⟩ := List.exists_cons_of_ne_nil htext'
      have hdigit :=
        (not_bracket_of_isOperatorChar (hchars' w (by rw [hw]; exact List.mem_cons_self))).2.2
      simp [hw, hdigit]
  rw [setsOff, hafter, List.drop_left, hsplit', hrun y List.mem_cons_self]
  simp only [hbehind, hnext]
  rfl

/-- Behind an escaped blank, which stays unless the literal breaks. -/
theorem exists_setsBehind_of_blank (more : Bool) {b : Char} (hb : isIndent b = true)
    (hbase : base.head? = some '\\') (hbreaks : breaks b text = false) :
    ∃ new, SetsBehind more (b :: base) text new := by
  have htake : base.takeWhile isIndent = [] ∧ base.dropWhile isIndent = base := by
    obtain ⟨base, rfl⟩ := List.head?_eq_some_iff.mp hbase
    exact ⟨rfl, rfl⟩
  have hparts : (b :: base).takeWhile isIndent = [b] ∧ (b :: base).dropWhile isIndent = base := by
    rw [List.takeWhile_cons_of_pos hb, List.dropWhile_cons_of_pos hb, htake.1, htake.2]
    exact ⟨rfl, rfl⟩
  unfold SetsBehind
  rw [hparts.1, hparts.2, hbase]
  obtain ⟨out, hout⟩ := exists_sets more (clean_none ([b] ++ text)).marks false [] (some '\\')
  suffices hkept : ∃ new, out = [b] ++ new by
    obtain ⟨new, rfl⟩ := hkept
    exact ⟨new, hout⟩
  generalize hcs : [b] ++ text = cs at hout
  -- the gap before the first piece begins with the blank
  have hfirst : ∀ {gap rest : List Char} {c : Char}, (∀ d ∈ gap, isIndent d = true) →
      isIndent c = false → [b] ++ text = gap ++ c :: rest → ∃ gap₁,
      gap = b :: gap₁ ∧ text = gap₁ ++ c :: rest ∧
        breaks b text = (c == ',' || (b == '\t' && setsOff none c rest)) := by
    intro gap rest c hgap hc hcs
    cases gap with
    | nil =>
      obtain ⟨rfl, -⟩ := List.cons.inj hcs
      rw [hb] at hc
      cases hc
    | cons d gap =>
      obtain ⟨rfl, htext⟩ := List.cons.inj hcs
      have hblanks : ∀ e ∈ gap, isIndent e = true := fun e he => hgap e (List.mem_cons_of_mem b he)
      refine ⟨gap, rfl, htext, ?_⟩
      have hdrop : text.dropWhile isIndent = c :: rest :=
        (congrArg (List.dropWhile isIndent) htext).trans (takeWhile_gap hblanks hc rest).2
      rw [breaks, hdrop, hb, Bool.true_and]
  cases hout with
  | done => exact ⟨text, hcs.symm⟩
  | plain hgap hblank =>
    obtain ⟨gap₁, rfl, -⟩ := hfirst hgap hblank hcs
    exact ⟨_, rfl⟩
  | comma hgap =>
    obtain ⟨gap₁, -, -, hbreaks'⟩ := hfirst hgap (by decide) hcs
    rw [hbreaks'] at hbreaks
    simp at hbreaks
  | mark _ _ hmark => cases hmark
  | raw hgap hrun =>
    obtain ⟨gap₁, rfl, -⟩ :=
      hfirst hgap (not_isIndent_of_isOperatorChar (hrun _ List.mem_cons_self)) hcs
    exact ⟨_, rfl⟩
  | @split _ sign _ gap ys old new _ y ops hgap hrun _ hstop hsplit hsign h =>
    obtain ⟨gap₁, rfl, -, hbreaks'⟩ :=
      hfirst hgap (not_isIndent_of_isOperatorChar (hrun _ List.mem_cons_self)) hcs
    rw [leadGap]
    split
    · exact ⟨_, rfl⟩
    · rename_i hnot
      -- a tab would be lost, and a space is set again
      have hoff : setsOff none y (ys ++ old) = true := by
        apply setsOff_of_split hgap hrun _ hsplit
        · rw [← hsign] at hnot
          simpa using hnot
        · intro c hc
          refine Bool.eq_false_iff.mpr fun hop => ?_
          cases hstop c hc hop
      rw [hbreaks', List.append_eq, hoff] at hbreaks
      simp only [isIndent, Bool.or_eq_true, beq_iff_eq] at hb
      rcases hb with rfl | rfl
      · exact ⟨_, rfl⟩
      · simp at hbreaks

end SetsBehind

inductive SetsEach : List Char → List Segment → List Segment → Prop
  | nil (base : List Char) : SetsEach base [] []
  | code {base text new : List Char} {ts us : List Segment}
    (hset : SetsBehind (!ts.isEmpty) base text new)
    (h : SetsEach (new.reverse ++ base) ts us) :
      SetsEach base (⟨.code, text⟩ :: ts) (⟨.code, new⟩ :: us)
  | token {base : List Char} {t : Segment} {ts us : List Segment} (hkind : t.kind ≠ .code)
    (h : SetsEach (t.text.reverse ++ base) ts us) : SetsEach base (t :: ts) (t :: us)

section SetsEach

variable {base : List Char} {ts us : List Segment}

theorem SetsEach.segments_eq (h : SetsEach base ts us) :
    segments base ts = (flat us).reverse ++ base := by
  induction h with
  | nil => rfl
  | code hset h ih =>
    rw [segments, if_pos rfl, hset.code_eq, ih, flat_cons, List.reverse_append, List.append_assoc]
  | token hkind h ih =>
    rw [segments, if_neg hkind, ih, flat_cons, List.reverse_append, List.append_assoc]

theorem SetsEach.keeps (h : SetsEach base ts us) : List.Forall₂ Keeps ts us := by
  induction h with
  | nil => exact .nil
  | code hset h ih => exact .cons hset.keeps ih
  | token hkind h ih => exact .cons ⟨rfl, fun _ => rfl, rfl, id⟩ ih

theorem SetsEach.isEmpty_eq (h : SetsEach base ts us) : us.isEmpty = ts.isEmpty := by
  cases h <;> rfl

/-- What segments have been set as is what they are set as again. -/
theorem SetsEach.again (h : SetsEach base ts us) : SetsEach base us us := by
  induction h with
  | nil => exact .nil _
  | code hset h ih =>
    apply SetsEach.code _ ih
    rw [h.isEmpty_eq]
    exact hset.again
  | token hkind h ih => exact .token hkind ih

/-- As long as nothing fuses, all segments can be set one after another. -/
theorem exists_setsEach {s : Cursor} {prev : Option Char} (hlexed : Lexed s ts)
    (hsound : s.Sound (flat ts)) (howed : ts ≠ [] → s.owed = 0)
    (hfuses : fusesInSegments none prev ts = false)
    (hbase : ∀ u ∈ ts.head?, u.kind = .code → base.takeWhile isIndent = [] ∨
      ∃ b base', base = b :: base' ∧ isIndent b = true ∧ base'.head? = some '\\' ∧
        breaks b u.text = false) :
    ∃ us, SetsEach base ts us := by
  induction hlexed generalizing base prev with
  | nil => exact ⟨[], .nil base⟩
  | @code s text ts hidle hnext h ih =>
    rw [fusesInSegments, Bool.or_eq_false_iff] at hfuses
    obtain ⟨new, hnew⟩ : ∃ new, SetsBehind (!ts.isEmpty) base text new := by
      rcases hbase _ rfl rfl with hclear | ⟨b, base', rfl, hb, hhead, hbreaks⟩
      · exact exists_setsBehind_of_clear _ text hclear
      · exact exists_setsBehind_of_blank _ hb hhead hbreaks
    obtain ⟨us, hus⟩ :=
      ih (Cursor.sound_run hsound) (fun _ => (Cursor.idle_run_of_idleAlong hidle).2) hfuses.2
      fun u hu hcode => absurd hcode (hnext u hu)
    exact ⟨_, .code hnew hus⟩
  | @token s kind c text ts hkind hmark hbusy hidle h ih =>
    rw [fusesInSegments_token hkind, Bool.or_eq_false_iff] at hfuses
    -- what stands before the next stretch of code, if one follows
    have hnext : ∀ u ∈ ts.head?, u.kind = .code →
        ((c :: text).reverse ++ base).takeWhile isIndent = [] ∨ ∃ b base',
        (c :: text).reverse ++ base = b :: base' ∧ isIndent b = true ∧ base'.head? = some '\\' ∧
          breaks b u.text = false := by
      intro u hu hcode
      have hne : ts ≠ [] := by
        intro hnil
        rw [hnil] at hu
        cases hu
      have hbreaks : (c :: text).getLast?.any (breaks · u.text) = false := by
        have hany := hfuses.1
        rw [hu] at hany
        simpa [hcode] using hany
      have hhead : ((c :: text).reverse ++ base).head? = (c :: text).getLast? :=
        head?_reverse_append [] c text base
      rcases token_last hsound (howed (List.cons_ne_nil _ _)) (hmark ▸ hkind) hbusy (hidle hne) with
        hlast | ⟨front, b, rfl, hb, -, -, -, hp, -⟩
      · left
        rw [← hhead] at hlast
        cases hcs : (c :: text).reverse ++ base with
        | nil => rfl
        | cons d cs => exact List.takeWhile_cons_of_neg (by simp [hlast d (by rw [hcs]; rfl)])
      · right
        refine ⟨b, (c :: front).reverse ++ base, by simp, hb, ?_, ?_⟩
        · rw [← hp, Cursor.prev_run]
          exact head?_reverse_append [] c front base
        · rw [← List.cons_append, List.getLast?_concat] at hbreaks
          exact hbreaks
    obtain ⟨us, hus⟩ := ih (Cursor.sound_run hsound) (fun hne => (hidle hne).2) hfuses.2 hnext
    exact ⟨_, .token hkind hus⟩

end SetsEach

end Gaps

end ScratchFormat
