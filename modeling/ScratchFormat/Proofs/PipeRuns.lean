import ScratchFormat.Proofs.PipeMarks
import ScratchFormat.Proofs.RunLines
import ScratchFormat.Proofs.Bytewise.Line

/-! The pipes of a line are exactly the whole runs of operator characters in its code that are
pipes, as far as the brackets in the code before them are closed. They are found by trying each
character, so that a run is whole is told from the one character on either side of it. -/

namespace ScratchFormat

open Gaps (IsRun flat flat_cons)

/-- A pipe is found behind `front` exactly if it is a whole run there. -/
theorem Pipe.at?_iff_isRun {front post : List Char} {p : Pipe} :
    at? front.getLast? (p.text ++ post) = some p ↔ IsRun [] front p.text post := by
  have htake : (p.text ++ post).takeWhile isOperatorChar = p.text ++
      post.takeWhile isOperatorChar :=
    List.takeWhile_append_of_pos fun c hc => isOperatorChar_of_mem_text hc
  rw [at?_eq_some_iff, htake, List.append_right_eq_self, Option.any_eq_false]
  constructor
  · rintro ⟨hstarts, hstops⟩
    refine ⟨p.text_ne_nil, fun c hc => isOperatorChar_of_mem_text hc, .inr fun c hc => ?_,
      .inr fun c hc => ?_, nofun⟩
    · simpa using hstarts c hc
    · obtain ⟨later, rfl⟩ := List.head?_eq_some_iff.mp hc
      refine Bool.eq_false_iff.mpr fun hop => ?_
      rw [List.takeWhile_cons_of_pos hop] at hstops
      cases hstops
  · intro hrun
    refine ⟨fun c hc => ?_, ?_⟩
    · simpa using hrun.starts.resolve_left List.not_mem_nil c hc
    · exact takeWhile_append_of_head [] (hrun.stops.resolve_left List.not_mem_nil)

namespace PipesAlong

/-- Pipes along a text stand in the order of their offsets. -/
theorem pairwise {start : Nat} {cs : List Char} {ps : List (Nat × Pipe)}
    (h : PipesAlong start cs ps) : ps.Pairwise fun p q => p.1 < q.1 := by
  induction h with
  | done => exact .nil
  | @next start p ps gap rest later ih =>
    refine .cons (fun q hq => ?_) ih
    have hpos := List.length_pos_iff.mpr p.text_ne_nil
    have hle := later.start_le q hq
    simp only
    omega

end PipesAlong

namespace ScannedLine

def codeAmong (ts : List Segment) : List Char :=
  (ts.filter fun t => t.kind = .code).flatMap Segment.text

theorem codeAmong_cons (t : Segment) (ts : List Segment) :
    codeAmong (t :: ts) = codeAmong [t] ++ codeAmong ts := by
  rw [codeAmong, codeAmong, codeAmong, ← List.flatMap_append, ← List.filter_append,
    List.singleton_append]

theorem codeAmong_code {t : Segment} (ht : t.kind = .code) : codeAmong [t] = t.text := by
  rw [codeAmong, List.filter_cons_of_pos (by simp [ht]), List.filter_nil, List.flatMap_singleton]

theorem codeAmong_token {t : Segment} (ht : t.kind ≠ .code) : codeAmong [t] = [] := by
  rw [codeAmong, List.filter_cons_of_neg (by simp [ht]), List.filter_nil, List.flatMap_nil]

/-- A pipe in a stretch of code that has been read up to `front`. -/
theorem mem_pipesInCode_iff {offset depth place : Nat} {front cs : List Char} {p : Pipe} :
    (place, p) ∈ pipesInCode offset depth front.getLast? cs ↔
      ∃ pre post, cs = pre ++ (p.text ++ post) ∧ IsRun [] (front ++ pre) p.text post ∧
        place = offset + byteLength pre ∧ pre.foldl depthAfter depth = 0 := by
  induction cs generalizing offset depth front with
  | nil =>
    refine iff_of_false List.not_mem_nil ?_
    rintro ⟨pre, post, hcs, -⟩
    exact p.text_ne_nil (List.append_eq_nil_iff.mp (List.append_eq_nil_iff.mp hcs.symm).2).1
  | cons c cs ih =>
    have hlater := @ih (offset + c.utf8Size) (depthAfter depth c) (front ++ [c])
    rw [List.getLast?_concat] at hlater
    rw [pipesInCode_cons, List.mem_append, hlater]
    constructor
    · rintro (hhere | ⟨pre, post, rfl, hrun, rfl, hdepth⟩)
      · obtain ⟨found, hfound, heq⟩ := List.mem_map.mp hhere
        obtain ⟨rfl, rfl⟩ := Prod.mk.inj heq
        rw [Option.mem_toList] at hfound
        split at hfound
        · rename_i hzero
          obtain ⟨⟨post, hpost⟩, -⟩ := Pipe.eq_append_of_at? hfound
          rw [hpost, Pipe.at?_iff_isRun] at hfound
          exact ⟨[], post, hpost, by simpa using hfound, rfl, hzero⟩
        · cases hfound
      · refine ⟨c :: pre, post, rfl, by simpa using hrun, ?_, hdepth⟩
        rw [byteLength_cons, Nat.add_assoc]
    · rintro ⟨pre, post, hcs, hrun, rfl, hdepth⟩
      cases pre with
      | nil =>
        -- the run begins here
        left
        rw [List.append_nil] at hrun
        rw [List.nil_append] at hcs
        have hzero : depth = 0 := hdepth
        rw [if_pos hzero, hcs, Pipe.at?_iff_isRun.mpr hrun]
        exact List.mem_singleton_self _
      | cons d pre =>
        right
        obtain ⟨rfl, rfl⟩ := List.cons.inj hcs
        refine ⟨pre, post, rfl, by simpa using hrun, ?_, hdepth⟩
        rw [byteLength_cons, Nat.add_assoc]

/-- A pipe stands at a place among segments that begin at the byte `offset` and at the bracket depth
`depth`: it is a whole run of operator characters in one stretch of code, and the code before it
closes its brackets. -/
def StandsAt (offset depth : Nat) (ts : List Segment) (place : Nat) (p : Pipe) : Prop :=
  ∃ earlier pre post later, ts = earlier ++ ⟨.code, pre ++ (p.text ++ post)⟩ :: later ∧
    IsRun [] pre p.text post ∧ place = offset + byteLength (flat earlier ++ pre) ∧
    (codeAmong earlier ++ pre).foldl depthAfter depth = 0

theorem not_standsAt_nil {offset depth place : Nat} {p : Pipe} :
    ¬ StandsAt offset depth [] place p := by
  rintro ⟨earlier, pre, post, later, hts, -⟩
  exact List.append_ne_nil_of_right_ne_nil earlier (List.cons_ne_nil _ later) hts.symm

/-- A pipe stands in the first segment or behind it. -/
theorem standsAt_cons {offset depth : Nat} {t : Segment} {ts : List Segment}
    {place : Nat} {p : Pipe} :
    StandsAt offset depth (t :: ts) place p ↔
      (t.kind = .code ∧ ∃ pre post, t.text = pre ++ (p.text ++ post) ∧ IsRun [] pre p.text post ∧
          place = offset + byteLength pre ∧ pre.foldl depthAfter depth = 0) ∨
        StandsAt (offset + byteLength t.text)
          ((codeAmong [t]).foldl depthAfter depth) ts place p := by
  have hplace : ∀ earlier pre, offset + byteLength (flat (t :: earlier) ++ pre) =
      offset + byteLength t.text + byteLength (flat earlier ++ pre) := by
    intro earlier pre
    rw [flat_cons, List.append_assoc, byteLength_append, Nat.add_assoc]
  have hdepth : ∀ earlier pre, (codeAmong (t :: earlier) ++ pre).foldl depthAfter depth =
      (codeAmong earlier ++ pre).foldl depthAfter ((codeAmong [t]).foldl depthAfter depth) := by
    intro earlier pre
    rw [codeAmong_cons, List.append_assoc, List.foldl_append]
  constructor
  · rintro ⟨earlier, pre, post, later, hts, hrun, rfl, hzero⟩
    cases earlier with
    | nil =>
      obtain ⟨rfl, -⟩ := List.cons.inj hts
      exact .inl ⟨rfl, pre, post, rfl, hrun, rfl, hzero⟩
    | cons u earlier =>
      obtain ⟨rfl, rfl⟩ := List.cons.inj hts
      rw [hdepth] at hzero
      exact .inr ⟨earlier, pre, post, later, rfl, hrun, hplace earlier pre, hzero⟩
  · rintro (⟨hcode, pre, post, htext, hrun, rfl, hzero⟩ | ⟨earlier, pre, post, later, rfl,
      hrun, rfl, hzero⟩)
    · obtain ⟨kind, text⟩ := t
      obtain rfl : kind = .code := hcode
      obtain rfl : text = pre ++ (p.text ++ post) := htext
      exact ⟨[], pre, post, ts, rfl, hrun, rfl, hzero⟩
    · rw [← hdepth] at hzero
      exact ⟨t :: earlier, pre, post, later, rfl, hrun, (hplace earlier pre).symm, hzero⟩

/-- The pipes of some segments are those that stand among them. -/
theorem mem_pipesInSegments_iff {offset depth place : Nat} {ts : List Segment} {p : Pipe} :
    (place, p) ∈ pipesInSegments offset depth ts ↔ StandsAt offset depth ts place p := by
  induction ts generalizing offset depth with
  | nil => exact iff_of_false List.not_mem_nil not_standsAt_nil
  | cons t ts ih =>
    rw [standsAt_cons, pipesInSegments]
    by_cases ht : t.kind = .code
    · have hhere : (place, p) ∈ pipesInCode offset depth ([] : List Char).getLast? t.text ↔ _ :=
        mem_pipesInCode_iff
      rw [List.getLast?_nil] at hhere
      rw [if_pos ht, List.mem_append, hhere, ih, codeAmong_code ht]
      simp only [ht, true_and, List.nil_append]
    · rw [if_neg ht, ih, codeAmong_token ht]
      simp only [ht, false_and, false_or, List.foldl_nil]

end ScannedLine

/-- In whatever mode a line begins, its pipes come in the order of their offsets, and they are
exactly the whole runs of operator characters in its code that are pipes and stand outside the
brackets of the code before them. A reader that walks from byte to byte and cuts out what is on
either side finds the same, as long as the line fits in memory. -/
theorem pipes_exact (mode : Mode) (raw : List Char) :
    (scanLine mode raw).pipes.Pairwise (fun p q => p.1 < q.1) ∧
      (∀ place p, (place, p) ∈ (scanLine mode raw).pipes ↔
        ScannedLine.StandsAt 0 0 (scanLine mode raw).segments place p) ∧
      (byteLength raw + 1 < wordSize →
        Bytewise.pipes? (scanLine mode raw) = some (scanLine mode raw).pipes) := by
  refine ⟨?_, ?_, ?_⟩
  · exact (ScannedLine.pipesAlong_pipesInSegments 0 0 (scanLine mode raw).segments).pairwise
  · exact fun place p => ScannedLine.mem_pipesInSegments_iff
  · exact Bytewise.pipes?_eq (raw_scanLine mode raw)

/-- A run in brackets, one in a literal, a longer one and one in a comment are left out. -/
theorem pipes_exact_mixed :
    byteLength "a |> f (b <| c) \"|>\" <||> g <|> h -- |>".toList + 1 < wordSize ∧
      Bytewise.pipes? (scanLine .code "a |> f (b <| c) \"|>\" <||> g <|> h -- |>".toList) =
        some [(2, .forward), (28, .alternative)] := by
  have hfits : byteLength "a |> f (b <| c) \"|>\" <||> g <|> h -- |>".toList + 1 < wordSize := by
    decide +kernel
  have hpipes : (scanLine .code "a |> f (b <| c) \"|>\" <||> g <|> h -- |>".toList).pipes =
      [(2, .forward), (28, .alternative)] := by decide +kernel
  obtain ⟨-, -, hbytes⟩ := pipes_exact .code "a |> f (b <| c) \"|>\" <||> g <|> h -- |>".toList
  exact ⟨hfits, (hbytes hfits).trans (congrArg some hpipes)⟩

end ScratchFormat
