import ScratchFormat.Proofs.Pipes
import ScratchFormat.Proofs.Role
import ScratchFormat.Layout.Chains

/-! The links of a line with pipes: every cut at a pipe succeeds, and the links are what stands
between the pipes. -/

namespace ScratchFormat

theorem takeWhile_prefix_of_false {p : Char → Bool} {c : Char} (hc : p c = false)
    (front rest : List Char) : (front ++ c :: rest).takeWhile p <+: front := by
  induction front with
  | nil => simp [hc]
  | cons d front ih =>
    rw [List.cons_append, List.takeWhile_cons]
    split
    · exact (List.cons_prefix_cons).mpr ⟨rfl, ih⟩
    · exact List.nil_prefix

namespace Chains

def chainText (first : List Char) (parts : List (Pipe × List Char)) : List Char :=
  first ++ parts.flatMap fun q => q.1.text ++ q.2

def chainPipes (start : Nat) (first : List Char) : List (Pipe × List Char) → List (Nat × Pipe)
  | [] => []
  | (p, text) :: parts =>
    (start + byteLength first, p) :: chainPipes
      (start + byteLength first + p.text.length) text parts

theorem parts_ne_nil {l : ScannedLine} {start : Nat} {first : List Char}
    {parts : List (Pipe × List Char)} (hparts : chainPipes start first parts = l.pipes)
    (hpipes : l.pipes ≠ []) : parts ≠ [] := by
  rintro rfl
  exact hpipes hparts.symm

def linksOf (pipe : Option Pipe) (first : List Char) (parts : List (Pipe × List Char)) :
    List Link :=
  (if pipe.isSome || parts.isEmpty || !(trim first).isEmpty then [⟨pipe, trim first⟩] else []) ++
    parts.map fun q => ⟨some q.1, trim q.2⟩

/-- Links are cut out of a line wherever pipes stand along it. -/
theorem linksFrom?_eq {start : Nat} {body : List Char} {pipes : List (Nat × Pipe)}
    (h : PipesAlong start body pipes) (pipe : Option Pipe) (front post : List Char)
    (hstart : start = byteLength front) :
    ∃ first parts, body = chainText first parts ∧ chainPipes start first parts = pipes ∧
      linksFrom? (front ++ (body ++ post)) pipe start (start + byteLength body) pipes =
        some (linksOf pipe first parts) := by
  induction h generalizing pipe front with
  | done start body =>
    refine ⟨body, [], by simp [chainText], rfl, ?_⟩
    rw [linksFrom?, hstart, slice?_append]
    simp [linksOf]
  | @next start p ps gap rest later ih =>
    have hfront : start + byteLength gap + p.text.length =
        byteLength (front ++ (gap ++ p.text)) := by
      rw [byteLength_append, byteLength_append, Pipe.byteLength_text, hstart]
      omega
    obtain ⟨first, parts, hrest, hpipes, hlinks⟩ := ih (some p) (front ++ (gap ++ p.text)) hfront
    refine ⟨gap, (p, first) :: parts, ?_, ?_, ?_⟩
    · rw [hrest, chainText, chainText, List.flatMap_cons]
      simp
    · rw [chainPipes, hpipes]
    · have hslice : slice? (front ++ (gap ++ (p.text ++ rest) ++ post)) start
          (start + byteLength gap) = some gap := by
        rw [hstart, List.append_assoc gap]
        exact slice?_append front gap _
      have hstop : start + byteLength (gap ++ (p.text ++ rest)) =
          start + byteLength gap + p.text.length + byteLength rest := by
        rw [byteLength_append, byteLength_append, Pipe.byteLength_text]
        omega
      have hraw : front ++ (gap ++ (p.text ++ rest) ++ post) =
          front ++ (gap ++ p.text) ++ (rest ++ post) := by simp
      rw [linksFrom?, hslice, hstop, hraw, hlinks]
      by_cases hgap : pipe.isSome = true ∨ trim gap ≠ [] <;> simp [linksOf, hgap]

/-- A line with pipes is cut into links from any place on that comes before them. -/
theorem split?_eq {l : ScannedLine} (hl : l.raw = l.segments.flatMap Segment.text)
    (hpipes : l.pipes ≠ []) {front rest : List Char} (hraw : l.raw = front ++ rest)
    (hfront : ∀ p ∈ l.pipes.head?, byteLength front ≤ p.1) :
    ∃ first parts, rest = chainText first parts ++ l.trailingComment?.getD [] ∧
      chainPipes (byteLength front) first parts = l.pipes ∧
      split? l (byteLength front) = some (linksOf none first parts) := by
  obtain ⟨body, hbody, halong⟩ := ScannedLine.pipesAlong_body hl
  have hpre : front <+: body := by
    obtain ⟨p, ps, hps⟩ := List.exists_cons_of_ne_nil hpipes
    have hp : p ∈ l.pipes.head? := by rw [hps]; rfl
    have hlast := halong.stop_le p (List.mem_of_mem_head? hp)
    exact prefix_of_byteLength_le (hraw ▸ List.prefix_append front rest)
      (hbody ▸ List.prefix_append body _) (Nat.le_trans (hfront p hp) (by omega))
  obtain ⟨body, rfl⟩ := hpre
  have hrest : rest = body ++ l.trailingComment?.getD [] := by
    rw [hraw, List.append_assoc] at hbody
    exact List.append_cancel_left hbody
  have halong' : PipesAlong (byteLength front) body l.pipes := by
    have hdrop := halong.drop (by simpa using hfront)
    rwa [Nat.zero_add] at hdrop
  obtain ⟨first, parts, hchain, hmap, hlinks⟩ :=
    linksFrom?_eq halong' none front (l.trailingComment?.getD []) rfl
  refine ⟨first, parts, by rw [hrest, hchain], hmap, ?_⟩
  have hfilter : (l.pipes.filter fun p => byteLength front ≤ p.1) = l.pipes := by
    rw [List.filter_eq_self]
    intro p hp
    simpa using halong'.start_le p hp
  have hstop : byteLength l.raw - byteLength (l.trailingComment?.getD []) =
      byteLength front + byteLength body := by
    rw [hraw, hrest, byteLength_append, byteLength_append]
    omega
  have hline : l.raw = front ++ (body ++ l.trailingComment?.getD []) := by rw [hraw, hrest]
  rw [split?, hfilter, hstop, hline, hlinks]

/-- The indentation of a line ends before its first pipe. -/
theorem byteLength_indent_le_pipe {l : ScannedLine}
    (hl : l.raw = l.segments.flatMap Segment.text) :
    ∀ p ∈ l.pipes.head?, byteLength (l.raw.takeWhile isIndent) ≤ p.1 := by
  intro p hp
  obtain ⟨body, hbody, halong⟩ := ScannedLine.pipesAlong_body hl
  generalize hps : l.pipes = ps at halong hp
  cases halong with
  | done => cases hp
  | @next _ q ps gap rest later =>
    cases hp
    obtain ⟨c, cs, hc⟩ := List.exists_cons_of_ne_nil q.text_ne_nil
    have hindent : isIndent c = false := by
      cases q <;> cases hc <;> rfl
    have hpre : l.raw.takeWhile isIndent <+: gap := by
      rw [hbody, List.append_assoc, hc]
      exact takeWhile_prefix_of_false hindent gap _
    obtain ⟨tail, rfl⟩ := hpre
    simp

/-- The head of a definition is followed by an equals sign, and all pipes come after that. -/
theorem eq_append_of_definition? {l : ScannedLine} {head : List Char}
    (hl : l.raw = l.segments.flatMap Segment.text) (h : definition? l = some head) :
    (∃ rest, l.raw = head ++ '=' :: rest) ∧ ∀ p ∈ l.pipes.head?, byteLength head < p.1 := by
  unfold definition? at h
  split at h
  · split at h
    · cases h
    · rename_i first later hsegs
      split at h
      · obtain ⟨hhead, hpipe⟩ := Option.filter_eq_some_iff.mp h
        obtain ⟨rest, hrest⟩ := eq_append_of_definitionHead? hhead
        refine ⟨⟨rest ++ later.flatMap Segment.text, ?_⟩, ?_⟩
        · rw [hl, hsegs, List.flatMap_cons, hrest]
          simp
        · intro p hp
          rw [hp] at hpipe
          simpa using hpipe
      · cases h
  · cases h

def chainFront (l : ScannedLine) : List Char :=
  (definition? l).elim (l.raw.takeWhile isIndent) (· ++ ['='])

/-- A line with several pipes is broken into its links. -/
theorem brokenLinks?_eq {l : ScannedLine} (hl : l.raw = l.segments.flatMap Segment.text)
    (hpipes : l.pipes ≠ []) :
    ∃ first parts, l.raw = chainFront l ++ (chainText first parts ++ l.trailingComment?.getD []) ∧
      chainPipes (byteLength (chainFront l)) first parts = l.pipes ∧
      brokenLinks? l (definition? l) = some (linksOf none first parts) := by
  cases hdef : definition? l with
  | none =>
    obtain ⟨first, parts, hrest, hparts, hsplit⟩ := split?_eq hl hpipes
      (List.takeWhile_append_dropWhile (p := isIndent) (l := l.raw)).symm
      (byteLength_indent_le_pipe hl)
    have hfront : chainFront l = l.raw.takeWhile isIndent := by
      rw [chainFront, hdef, Option.elim_none]
    rw [hfront]
    exact ⟨first, parts, by rw [← hrest, List.takeWhile_append_dropWhile], hparts, hsplit⟩
  | some head =>
    obtain ⟨⟨rest, hraw⟩, hlt⟩ := eq_append_of_definition? hl hdef
    have hbytes : byteLength (head ++ ['=']) = byteLength head + 1 := by
      rw [byteLength_append]
      rfl
    have hraw' : l.raw = (head ++ ['=']) ++ rest := by rw [hraw]; simp
    obtain ⟨first, parts, hrest, hparts, hsplit⟩ := split?_eq hl hpipes hraw'
      (fun p hp => by rw [hbytes]; exact hlt p hp)
    have hfront : chainFront l = head ++ ['='] := by rw [chainFront, hdef, Option.elim_some]
    rw [hbytes] at hsplit
    rw [hfront]
    exact ⟨first, parts, by rw [← hrest, hraw'], hparts, hsplit⟩

end Chains

end ScratchFormat
