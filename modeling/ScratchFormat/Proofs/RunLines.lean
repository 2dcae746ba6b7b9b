import ScratchFormat.Proofs.Runs
import ScratchFormat.Proofs.Solid

/-! Runs of operator characters in the lines of a text. A line is cut behind its marker and around
its colon or equals sign; apart from that each run of operator characters in its code comes out
together. -/

namespace ScratchFormat

namespace Gaps

/-- What has been put out stays up to its last character that is no blank. -/
theorem exists_segments_eq (out : List Char) {kept : List Char}
    (hkept : ∀ c ∈ kept.head?, isIndent c = false) (ss : List Segment) :
    ∃ later, segments (out ++ kept) ss = later ++ kept := by
  -- a segment of code takes away blanks at the end of the output, so none that stands before `kept`
  induction ss generalizing out with
  | nil => exact ⟨out, rfl⟩
  | cons s ss ih =>
    rw [segments]
    split
    · obtain ⟨new, -, hcode⟩ := exists_code_sets (!ss.isEmpty) (out ++ kept) s.text
      rw [hcode, dropWhile_append_of_head out hkept, ← List.append_assoc]
      exact ih _
    · rw [← List.append_assoc]
      exact ih _

/-- Later segments leave what stands there as it is, if it does not end with a blank. -/
theorem Shows.segments {image pre out : List Char} (h : Shows image pre out.reverse)
    (hne : image ≠ []) (hlast : ∀ c ∈ image.getLast?, isIndent c = false) (ss : List Segment) :
    Shows image pre (Gaps.segments out ss).reverse := by
  obtain ⟨before, after, hout, hsolid⟩ := h
  have hkept : ∀ c ∈ (before ++ image).reverse.head?, isIndent c = false := by
    intro c hc
    rw [List.head?_reverse, List.getLast?_append_of_ne_nil before hne] at hc
    exact hlast c hc
  obtain ⟨later, hlater⟩ := exists_segments_eq after.reverse hkept ss
  rw [← List.reverse_append, List.append_assoc, ← hout, List.reverse_reverse] at hlater
  refine ⟨before, later.reverse, ?_, hsolid⟩
  rw [hlater, List.reverse_append, List.reverse_reverse, List.append_assoc]

/-- The image of a run is seen in the line that its segments are set as. -/
theorem RunAt.shows_segments {mark : Option Nat} {pre run post front out : List Char}
    (hat : RunAt mark pre run post) (h : Shows (imageOf pre.reverse run post) front out.reverse)
    (ss : List Segment) : Shows (imageOf pre.reverse run post) front (segments out ss).reverse := by
  have hlast := getLast?_imageOf pre.reverse run post
  apply h.segments
  · intro hnil
    rw [hnil] at hlast
    exact hat.ne_nil (List.getLast?_eq_none_iff.mp hlast.symm)
  · intro c hc
    rw [hlast] at hc
    exact not_isIndent_of_isOperatorChar (hat.operators c (List.mem_of_getLast? hc))

/-- The segments before one are put out first. -/
theorem exists_segments_append (base : List Char) (earlier ss : List Segment) :
    ∃ base', segments base (earlier ++ ss) = segments base' ss ∧
      solid base'.reverse = solid (base.reverse ++ flat earlier) := by
  induction earlier generalizing base with
  | nil => exact ⟨base, rfl, by simp [flat]⟩
  | cons t earlier ih =>
    rw [List.cons_append, segments]
    split
    · obtain ⟨base', hsegments, hsolid⟩ :=
        ih (code (!(earlier ++ ss).isEmpty) none 0 [] base t.text)
      refine ⟨base', hsegments, ?_⟩
      rw [hsolid, solid_append, solid_reverse, solid_code, List.reverse_append, solid_reverse,
        List.reverse_reverse, flat_cons, solid_append, solid_append, solid_reverse,
        List.append_assoc]
    · obtain ⟨base', hsegments, hsolid⟩ := ih (t.text.reverse ++ base)
      refine ⟨base', hsegments, ?_⟩
      rw [hsolid, List.reverse_append, List.reverse_reverse, flat_cons, List.append_assoc]

/-- Segments that are set hold the image of each run in their code. -/
theorem shows_segments_run (base : List Char) (earlier later : List Segment)
    {pre run post : List Char} (hat : RunAt none pre run post) :
    Shows (imageOf pre.reverse run post) (base.reverse ++ (flat earlier ++ pre))
      (segments base (earlier ++ ⟨.code, pre ++ (run ++ post)⟩ :: later)).reverse := by
  obtain ⟨base', hsegments, hsolid⟩ :=
    exists_segments_append base earlier (⟨.code, pre ++ (run ++ post)⟩ :: later)
  rw [hsegments, segments, if_pos rfl]
  apply hat.shows_segments
  apply (shows_code_run (!later.isEmpty) base' hat).congr
  rw [solid_append, hsolid, ← solid_append, List.append_assoc]

def lineMarker (l : ScannedLine) : Option Nat :=
  match l.segments with
  | [] => none
  | t :: _ =>
    if l.startsInCode = true ∧ t.kind = .code ∧
      (Role.ofCode l.codeText = .watch ∨ Role.ofCode l.codeText = .test) then
      (watchMarker? (t.text.dropWhile isIndent)).map fun marker =>
        (t.text.takeWhile isIndent).length + marker.length
    else none

/-- Where the first segment of a line is cut: behind its marker, and on both sides of its colon or
equals sign. -/
def cuts (l : ScannedLine) : List Nat :=
  (lineMarker l).toList ++ (lineSpecial l).toList.flatMap fun k => [k, k + 1]

/-- A whole run of operator characters between `pre` and `post`, in code that is cut at some
places. -/
structure IsRun (cuts : List Nat) (pre run post : List Char) : Prop where
  ne_nil : run ≠ []
  operators : ∀ c ∈ run, isOperatorChar c = true
  starts : pre.length ∈ cuts ∨ ∀ c ∈ pre.getLast?, isOperatorChar c = false
  stops : (pre ++ run).length ∈ cuts ∨ ∀ c ∈ post.head?, isOperatorChar c = false
  whole : ∀ n ∈ cuts, n ≤ pre.length ∨ (pre ++ run).length ≤ n

instance (cuts : List Nat) (pre run post : List Char) : Decidable (IsRun cuts pre run post) :=
  decidable_of_iff
    ((run ≠ [] ∧ run.all isOperatorChar = true) ∧
      (pre.length ∈ cuts ∨ pre.getLast?.any isOperatorChar = false) ∧
      ((pre ++ run).length ∈ cuts ∨ post.head?.any isOperatorChar = false) ∧
      (cuts.all fun n => n ≤ pre.length || (pre ++ run).length ≤ n) = true) (by
    simp only [List.all_eq_true, Option.any_eq_false, Bool.or_eq_true, decide_eq_true_eq]
    exact ⟨fun ⟨⟨hne, hops⟩, hstarts, hstops, hwhole⟩ => ⟨hne, hops, hstarts, hstops, hwhole⟩,
      fun ⟨hne, hops, hstarts, hstops, hwhole⟩ => ⟨⟨hne, hops⟩, hstarts, hstops, hwhole⟩⟩)

/-- A run in code that is not cut. -/
theorem IsRun.at_none {pre run post : List Char} (h : IsRun [] pre run post) :
    RunAt none pre run post := by
  apply RunAt.of_apart h.ne_nil h.operators
  · exact h.starts.resolve_left List.not_mem_nil
  · exact h.stops.resolve_left List.not_mem_nil

/-- A run behind the only cut. -/
theorem IsRun.at_behind {front pre run post : List Char}
    (h : IsRun [front.length] (front ++ pre) run post) : RunAt none pre run post := by
  have hpos := List.length_pos_iff.mpr h.ne_nil
  apply RunAt.of_apart h.ne_nil h.operators
  · intro c hc
    have hpre := List.length_pos_of_mem (List.mem_of_getLast? hc)
    apply h.starts.resolve_left _ c (mem_getLast?_append front hc)
    simp only [List.mem_singleton, List.length_append]
    omega
  · apply h.stops.resolve_left
    simp only [List.mem_singleton, List.length_append]
    omega

/-- A run in code that is cut on both sides of its mark. -/
theorem IsRun.at_mark {indent pre run post : List Char} {place : Option Nat}
    (hmarked : Marked place (pre ++ (run ++ post)))
    (h : IsRun ((place.map (· + indent.length)).toList.flatMap fun k => [k, k + 1])
      (indent ++ pre) run post) :
    RunAt (markOf place (pre ++ (run ++ post))) pre run post := by
  cases place with
  | none => exact h.at_none.behind
  | some k =>
    have hk := place_of_marked hmarked k rfl
    have hpos := List.length_pos_iff.mpr h.ne_nil
    have hcuts : ((some k).map (· + indent.length)).toList.flatMap (fun n => [n, n + 1]) =
      [k + indent.length, k + indent.length + 1] := rfl
    have hmark : markOf (some k) (pre ++ (run ++ post)) =
        some ((pre ++ (run ++ post)).length - 1 - k) := rfl
    -- the cuts count from the start of the line and the mark from its end; what is left is arithmetic
    obtain ⟨hne, hops, hstarts, hstops, hwhole⟩ := h
    rw [hcuts] at hstarts hstops hwhole
    rw [hmark]
    simp only [List.mem_cons, List.not_mem_nil, or_false, List.length_append, forall_eq_or_imp,
      forall_eq] at hk hstarts hstops hwhole ⊢
    refine ⟨hne, hops, fun c hc hop => ?_, fun c hc hop => ?_, fun m hm => ?_⟩
    · have hcut := hstarts.resolve_right fun hplain => by
        rw [hplain c (mem_getLast?_append indent hc)] at hop
        cases hop
      simp only [Option.some.injEq, List.length_append, List.length_tail]
      omega
    · have hcut := hstops.resolve_right fun hplain => by
        rw [hplain c hc] at hop
        cases hop
      have hpost := List.length_pos_of_mem (List.mem_of_head? hc)
      simp only [Option.some.injEq, List.length_tail]
      omega
    · cases hm
      simp only [List.length_append]
      omega

section Line

variable {l : ScannedLine} {role : Role} {indent pre run post : List Char}
    {earlier later : List Segment}

/-- Behind a marker the code is put out as a segment of its own, after a blank or none. -/
theorem exists_marker_gap {marker rest : List Char} (later : List Segment)
    (hrole : role = .watch ∨ role = .test) (hmarker : watchMarker? (marker ++ rest) = some marker) :
    ∃ gap, (∀ b ∈ gap, isIndent b = true) ∧ codeLine role (marker ++ rest) later =
      (segments (gap ++ marker.reverse) (⟨.code, trimStart rest⟩ :: later)).reverse := by
  rw [codeLine_of_marker later hrole hmarker]
  split
  · exact ⟨[], by simp, rfl⟩
  · exact ⟨[' '], by simp [isIndent], rfl⟩

/-- What the segments behind the first are put out after. -/
theorem exists_codeLine_eq (role : Role) (head : List Char) (later : List Segment) :
    ∃ base, codeLine role head later = (segments base later).reverse ∧
      solid base.reverse = solid head := by
  by_cases hmarker : (role = .watch ∨ role = .test) ∧ (watchMarker? head).isSome = true
  · obtain ⟨marker, hsome⟩ := Option.isSome_iff_exists.mp hmarker.2
    obtain ⟨rest, rfl⟩ := eq_append_of_watchMarker? hsome
    obtain ⟨gap, hgap, hline⟩ := exists_marker_gap later hmarker.1 hsome
    refine ⟨_, hline, ?_⟩
    rw [solid_reverse, solid_code, solid_append, solid_of_blanks hgap, solid_append]
    simp [solid_reverse]
  · refine ⟨_, codeLine_of_no_marker later hmarker, ?_⟩
    rw [solid_reverse, solid_code, solid_reverse]
    simp

/-- A run of a line that starts without a marker. -/
theorem shows_codeLine_run (hindent : ∀ b ∈ indent, isIndent b = true)
    (hmarker :
      ¬ ((role = .watch ∨ role = .test) ∧ (watchMarker? (pre ++ (run ++ post))).isSome = true))
    (hrun : IsRun (((special? role (pre ++ (run ++ post))).map (· + indent.length)).toList.flatMap
      fun k => [k, k + 1])
      (indent ++ pre) run post) :
    Shows (imageOf (indent ++ pre).reverse run post) (indent ++ pre)
      (indent ++ codeLine role (pre ++ (run ++ post)) later) := by
  have hmarked := marked_special? role (pre ++ (run ++ post))
  have hat := hrun.at_mark hmarked
  rw [imageOf_behind_blanks hindent, codeLine_of_no_marker later hmarker]
  exact (hat.shows_segments (shows_head_run _ hmarked hat) later).behind rfl

theorem head_of_watchMarker? {marker rest : List Char}
    (h : watchMarker? (marker ++ rest) = some marker) : ∀ c ∈ rest.head?, c ≠ '>' ∧ c ≠ '=' := by
  rintro c hc
  rcases marker_of_watchMarker? h with rfl | rfl
  · rw [watchMarker?_test, Option.mem_def.mp hc] at h
    split at h
    · cases h
    · rename_i hnot
      simpa using hnot
  · rw [List.singleton_append, watchMarker?_greater, Option.mem_def.mp hc] at h
    split at h
    · cases h
    · rename_i hnot
      simp at hnot
      exact ⟨hnot.1.1, hnot.1.2⟩

theorem exists_word_of_watchMarker? {cs marker : List Char} (h : watchMarker? cs = some marker) :
    ∃ word, marker = word ++ ['>'] ∧ ∀ c ∈ word, isOperatorChar c = false := by
  rcases marker_of_watchMarker? h with rfl | rfl
  · have hall : ("test".toList.all fun c => !isOperatorChar c) = true := by decide
    exact ⟨"test".toList, rfl, by simpa using List.all_eq_true.mp hall⟩
  · exact ⟨[], rfl, by simp⟩

/-- The image of a run behind a marker is told by the code behind the marker. -/
theorem imageOf_behind_marker {front marker : List Char}
    (hmarker : watchMarker? (marker ++ (pre ++ (run ++ post))) = some marker) :
    imageOf (front ++ marker ++ pre).reverse run post =
      imageOf (pre.dropWhile isSpace).reverse run post := by
  have hpre : pre.takeWhile isSpace ++ pre.dropWhile isSpace = pre :=
    List.takeWhile_append_dropWhile
  have hspace : ∀ c ∈ pre.takeWhile isSpace, isSpace c = true :=
    List.all_eq_true.mp List.all_takeWhile
  have hrest := head_of_watchMarker? hmarker
  obtain ⟨word, rfl, -⟩ := exists_word_of_watchMarker? hmarker
  generalize pre.takeWhile isSpace = space at *
  generalize pre.dropWhile isSpace = body at *
  subst hpre
  rw [← List.append_assoc, List.reverse_append]
  -- what stands before the code is the sign of the marker, or white space behind it
  rcases List.eq_nil_or_concat space with rfl | ⟨space, d, rfl⟩
  · have hfront : (front ++ (word ++ ['>']) ++ []).reverse = '>' ::
        (front ++ word).reverse := by simp
    rw [hfront]
    apply imageOf_behind rfl
    rintro rfl
    exact Operator.at?_behind_greater _ hrest
  · have hd := hspace d (by simp)
    have hfront : (front ++ (word ++ ['>']) ++ space.concat d).reverse = d ::
        (front ++ (word ++ ['>']) ++ space).reverse := by
      simp
    rw [hfront]
    apply imageOf_behind
    · exact not_digit_of_isSpace hd
    · exact fun _ => Operator.at?_behind_space hd _ _

/-- A run behind a marker. -/
theorem shows_run_behind_marker {marker : List Char} (hrole : role = .watch ∨ role = .test)
    (hmarker : watchMarker? (marker ++ (pre ++ (run ++ post))) = some marker)
    (hrun : IsRun [(indent ++ marker).length] (indent ++ marker ++ pre) run post) :
    Shows (imageOf (indent ++ marker ++ pre).reverse run post) (indent ++ marker ++ pre)
      (indent ++ codeLine role (marker ++ (pre ++ (run ++ post))) later) := by
  obtain ⟨gap, hgap, hline⟩ := exists_marker_gap later hrole hmarker
  have hbody : trimStart (pre ++ (run ++ post)) = pre.dropWhile isSpace ++ (run ++ post) := by
    apply dropWhile_append_of_head
    intro c hc
    rw [List.head?_append_of_ne_nil run hrun.ne_nil] at hc
    refine Bool.eq_false_iff.mpr fun hspace => ?_
    have hop := hrun.operators c (List.mem_of_head? hc)
    rw [not_operator_of_isSpace hspace] at hop
    cases hop
  have hat : RunAt none (pre.takeWhile isSpace ++ pre.dropWhile isSpace) run post := by
    rw [List.takeWhile_append_dropWhile]
    exact hrun.at_behind
  have hshows := shows_segments_run (gap ++ marker.reverse) [] later hat.behind
  rw [imageOf_behind_marker hmarker, hline, hbody, List.append_assoc]
  apply Shows.behind _ rfl
  apply hshows.congr
  simp [flat, solid_reverse, solid_of_blanks hgap, solid_dropWhile]

/-- A run of a line that starts with a marker. -/
theorem shows_marker_run {marker rest : List Char} (hindent : ∀ b ∈ indent, isIndent b = true)
    (hrole : role = .watch ∨ role = .test) (hmarker : watchMarker? (marker ++ rest) = some marker)
    (heq : indent ++ marker ++ rest = pre ++ (run ++ post))
    (hrun : IsRun [(indent ++ marker).length] pre run post) :
    Shows (imageOf pre.reverse run post) pre (indent ++ codeLine role (marker ++ rest) later) := by
  rcases hrun.whole _ List.mem_cons_self with hlen | hlen
  · obtain ⟨pre', rfl⟩ :=
      List.prefix_of_prefix_length_le ⟨rest, heq⟩ (List.prefix_append pre (run ++ post)) hlen
    rw [List.append_assoc (indent ++ marker), List.append_cancel_left_eq] at heq
    subst heq
    exact shows_run_behind_marker hrole hmarker hrun
  · -- the sign that the marker ends with is a run of its own
    obtain ⟨word, rfl, hword⟩ := exists_word_of_watchMarker? hmarker
    rw [← List.append_assoc pre] at heq
    obtain ⟨more, hmore⟩ := List.prefix_of_prefix_length_le (List.prefix_append (pre ++ run) post)
      ⟨rest, heq⟩ hlen
    have hplain : ∀ c ∈ indent ++ word, isOperatorChar c = false := by
      intro c hc
      rcases List.mem_append.mp hc with hc | hc
      · exact not_operator_of_isIndent (hindent c hc)
      · exact hword c hc
    rw [List.append_assoc, ← List.append_assoc indent] at hmore
    obtain ⟨rfl, rfl⟩ := run_eq_last hplain hrun.ne_nil hrun.operators hmore.symm
    obtain ⟨gap, hgap, hline⟩ := exists_marker_gap later hrole hmarker
    have hkept : ∀ c ∈ (word ++ ['>']).reverse.head?, isIndent c = false := by
      intro c hc
      rw [List.reverse_concat] at hc
      cases hc
      rfl
    obtain ⟨out, hout⟩ := exists_segments_eq gap hkept (⟨.code, trimStart rest⟩ :: later)
    rw [imageOf_singleton, hline, hout]
    exact ⟨indent ++ word, out.reverse, by simp, rfl⟩

/-- A line that does not begin with code is not cut. -/
theorem cuts_of_not_begins (h : ∀ text later, ¬ Begins l text later) : cuts l = [] := by
  cases hsegments : l.segments with
  | nil => simp [cuts, lineMarker, lineSpecial, hsegments]
  | cons t ts =>
    have hnot : l.startsInCode = true → t.kind ≠ .code := by
      intro hstart hkind
      obtain ⟨kind, text⟩ := t
      cases hkind
      exact h text ts ⟨hstart, hsegments⟩
    simp only [cuts, lineMarker, lineSpecial, hsegments]
    rw [if_neg fun hcode => hnot hcode.1 hcode.2.1, if_neg fun hcode => hnot hcode.1 hcode.2]
    rfl

theorem Begins.lineMarker_eq {text : List Char} (h : Begins l text later) :
    lineMarker l = if Role.ofCode l.codeText = .watch ∨ Role.ofCode l.codeText = .test then
      (watchMarker? (text.dropWhile isIndent)).map fun marker =>
        (text.takeWhile isIndent).length + marker.length
    else none := by
  simp [lineMarker, h.segments_eq, h.startsInCode]

/-- A run in the first segment of a line that begins with code. -/
theorem Begins.shows_run (h : Begins l (pre ++ (run ++ post)) later)
    (hrun : IsRun (cuts l) pre run post) :
    Shows (imageOf pre.reverse run post) pre ((pre ++ (run ++ post)).takeWhile isIndent ++
      codeLine (Role.ofCode l.codeText) ((pre ++ (run ++ post)).dropWhile isIndent) later) := by
  have hcuts : cuts l = (lineMarker l).toList ++ (lineSpecial l).toList.flatMap fun k =>
      [k, k + 1] := rfl
  have htext : (pre ++ (run ++ post)).takeWhile isIndent ++
      (pre ++ (run ++ post)).dropWhile isIndent = pre ++ (run ++ post) :=
    List.takeWhile_append_dropWhile
  have hindent : ∀ b ∈ (pre ++ (run ++ post)).takeWhile isIndent, isIndent b = true :=
    List.all_eq_true.mp List.all_takeWhile
  rw [h.lineMarker_eq, h.lineSpecial_eq] at hcuts
  generalize (pre ++ (run ++ post)).takeWhile isIndent = indent at *
  generalize (pre ++ (run ++ post)).dropWhile isIndent = head at *
  generalize Role.ofCode l.codeText = role at *
  by_cases hmarker : (role = .watch ∨ role = .test) ∧ (watchMarker? head).isSome = true
  · -- such a line has a marker and no mark
    obtain ⟨marker, hsome⟩ := Option.isSome_iff_exists.mp hmarker.2
    obtain ⟨rest, rfl⟩ := eq_append_of_watchMarker? hsome
    have hspecial : special? role (marker ++ rest) = none := by
      rcases hmarker.1 with rfl | rfl <;> rfl
    rw [hcuts, if_pos hmarker.1, hsome, hspecial] at hrun
    apply shows_marker_run hindent hmarker.1 hsome (by rw [List.append_assoc, htext])
    rw [List.length_append]
    exact hrun
  · obtain ⟨pre, rfl, rfl⟩ := exists_behind (fun b hb => not_operator_of_isIndent (hindent b hb))
      hrun.ne_nil hrun.operators htext
    apply shows_codeLine_run hindent hmarker
    have hnone : (if role = .watch ∨ role = .test then
        (watchMarker? (pre ++ (run ++ post))).map fun marker =>
        indent.length + marker.length else none) = none := by
      split
      · rename_i hrole
        rw [Option.map_eq_none_iff, ← Option.not_isSome_iff_eq_none]
        exact fun hsome => hmarker ⟨hrole, hsome⟩
      · rfl
    rw [hcuts, hnone] at hrun
    exact hrun

/-- A line that is set holds the image of each run in its code. -/
theorem shows_line_run (hset : isSet l = true)
    (hsegments : l.segments = earlier ++ ⟨.code, pre ++ (run ++ post)⟩ :: later)
    (hrun : IsRun (if earlier.isEmpty then cuts l else []) pre run post) :
    Shows (imageOf pre.reverse run post) (flat earlier ++ pre) (line l) := by
  rcases line_of_isSet hset with ⟨hnil, -⟩ | ⟨text, ts, hbegins, hline⟩ | ⟨hnot, hline⟩
  · simp [hsegments] at hnil
  · have hparts := hbegins.segments_eq.symm.trans hsegments
    rw [hline]
    cases earlier with
    | nil =>
      obtain ⟨htext, rfl⟩ := List.cons.inj hparts
      obtain rfl := congrArg Segment.text htext
      exact hbegins.shows_run hrun
    | cons t earlier =>
      -- the first segment is part of what the run comes behind
      rw [List.cons_append] at hparts
      obtain ⟨rfl, rfl⟩ := List.cons.inj hparts
      obtain ⟨base, hcode, hsolid⟩ :=
        exists_codeLine_eq (Role.ofCode l.codeText) (text.dropWhile isIndent)
        (earlier ++ ⟨.code, pre ++ (run ++ post)⟩ :: later)
      have hshows := (shows_segments_run base earlier later hrun.at_none).behind
        (show solid (text.takeWhile isIndent) = solid [] from solid_takeWhile_isIndent text)
      rw [hcode]
      apply hshows.congr
      simp only [List.nil_append, solid_append, hsolid, solid_dropWhile_isIndent, flat_cons,
        List.append_assoc]
  · rw [cuts_of_not_begins hnot, ite_self] at hrun
    rw [hline, hsegments]
    exact shows_segments_run [] earlier later hrun.at_none

end Line

/-- Setting the gaps of a text keeps its runs of operator characters together. Whatever else moves,
the image of each run stands between the same characters as the run did, white space apart. -/
theorem set_keeps_runs {text : List Char} {i : Nat} {l : ScannedLine}
    (hl : (scan text)[i]? = some l) (hset : isSet l = true) {earlier later : List Segment}
    {pre run post : List Char}
    (hsegments : l.segments = earlier ++ ⟨.code, pre ++ (run ++ post)⟩ :: later)
    (hrun : IsRun (if earlier.isEmpty then cuts l else []) pre run post) :
    ∃ before image after, (lines (set text))[i]? = some (before ++ (image ++ after)) ∧
      solid before = solid (flat earlier ++ pre) ∧ solid after = solid (post ++ flat later) ∧
      IsImage pre run post image := by
  obtain ⟨before, after, hline, hbefore⟩ := shows_line_run hset hsegments hrun
  have hraw : l.raw = flat l.segments := raw_eq_flatMap_text (List.mem_of_getElem? hl)
  have hflat : flat l.segments = flat earlier ++ pre ++ (run ++ (post ++ flat later)) := by
    rw [hsegments, flat, List.flatMap_append]
    simp [flat]
  -- a line keeps its characters, so what is left behind the image is what was left behind the run
  have hsolid : solid before ++ (solid run ++ solid after) =
      solid (flat earlier ++ pre) ++ (solid run ++ solid (post ++ flat later)) := calc
    _ = solid (line l) := by rw [hline, solid_append, solid_append _ after, solid_imageOf]
    _ = solid l.raw := solid_line hraw
    _ = _ := by rw [hraw, hflat, solid_append, solid_append run]
  rw [hbefore] at hsolid
  refine ⟨before, _, after, ?_, hbefore, ?_, isImage_imageOf pre run post⟩
  · rw [lines_set, List.getElem?_map, hl, Option.map_some, hline]
  · exact List.append_cancel_left (List.append_cancel_left hsolid)

/-- In a definition, a plus sign and the sign of the number behind it. -/
theorem set_keeps_runs_signs :
    IsRun (cuts (scanLine .code "x=a+-1".toList)) "x=a".toList "+-".toList "1".toList ∧
      ∃ before image after, (lines (set "x=a+-1".toList))[0]? = some (before ++ (image ++ after)) ∧
        solid before = "x=a".toList ∧ solid after = "1".toList ∧
          IsImage "x=a".toList "+-".toList "1".toList image := by
  have hl : (scan "x=a+-1".toList)[0]? = some (scanLine .code "x=a+-1".toList) := by decide +kernel
  have hsegments : (scanLine .code "x=a+-1".toList).segments =
      [] ++ ⟨.code, "x=a".toList ++ ("+-".toList ++ "1".toList)⟩ :: [] := by decide +kernel
  have hrun : IsRun (cuts (scanLine .code "x=a+-1".toList)) "x=a".toList "+-".toList
      "1".toList := by decide +kernel
  exact ⟨hrun, set_keeps_runs hl (by decide +kernel) hsegments hrun⟩

end Gaps

end ScratchFormat
