import ScratchFormat.Proofs.Bytewise.Text
import ScratchFormat.Proofs.Links

/-! What is read off a scanned line at byte offsets: its pipes, and the role of its code. -/

namespace ScratchFormat

namespace Bytewise

def nested? (depth : Nat) (c : Char) : Option Nat :=
  if isOpener c then add? depth 1 else some (depthAfter depth c)

theorem nested?_eq {depth : Nat} (h : depth + 1 < wordSize) (c : Char) :
    nested? depth c = some (depthAfter depth c) := by
  unfold nested?
  split
  · rename_i hopen
    have hopen' : c = '(' ∨ c = '[' ∨ c = '\x7b' := by simpa [isOpener, or_assoc] using hopen
    rw [add?_eq h, depthAfter, if_pos hopen']
  · rfl

theorem depthAfter_le (depth : Nat) (c : Char) : depthAfter depth c ≤ depth + c.utf8Size := by
  have hpos := c.utf8Size_pos
  unfold depthAfter
  split
  · omega
  · split <;> omega

theorem foldl_depthAfter_le (depth : Nat) (cs : List Char) :
    cs.foldl depthAfter depth ≤ depth + byteLength cs := by
  induction cs generalizing depth with
  | nil => simp
  | cons c cs ih =>
    have hc := depthAfter_le depth c
    have hcs := ih (depthAfter depth c)
    rw [List.foldl_cons, byteLength_cons]
    omega

theorem foldl_depthAfter_pipe (p : Pipe) (depth : Nat) : p.text.foldl depthAfter depth = depth := by
  cases p <;> rfl

theorem text_ne_nil_of_mem_ofMarks {ms : List Mark} {s : Segment} (h : s ∈ Segment.ofMarks ms) :
    s.text ≠ [] := by
  induction ms generalizing s with
  | nil => cases h
  | cons m ms ih =>
    cases ms with
    | nil =>
      rw [ofMarks_singleton, List.mem_singleton] at h
      rw [h]
      simp
    | cons n ms =>
      obtain ⟨t, ts, hts, hall⟩ := ofMarks_cons_cons m n ms
      rw [hts] at ih
      rw [hall] at h
      split at h
      · rcases List.mem_cons.mp h with rfl | h
        · simp
        · exact ih h
      · rcases List.mem_cons.mp h with rfl | h
        · simp
        · exact ih (List.mem_cons_of_mem t h)

theorem length_le_flatMap_text (ss : List Segment) (h : ∀ s ∈ ss, s.text ≠ []) :
    ss.length ≤ (ss.flatMap Segment.text).length := by
  induction ss with
  | nil => simp
  | cons s ss ih =>
    have hs := List.length_pos_iff.mpr (h s List.mem_cons_self)
    have hss := ih fun t ht => h t (List.mem_cons_of_mem s ht)
    rw [List.flatMap_cons, List.length_append, List.length_cons]
    omega

/-- A segment adds at most twice its bytes to the code of a line. -/
theorem byteLength_joinCode_le {s : Segment} (h : s.text ≠ []) (sofar : List Char) :
    byteLength (ScannedLine.joinCode sofar s) ≤ byteLength sofar + 2 * byteLength s.text := by
  have hlen := length_le_byteLength s.text
  have hpos := List.length_pos_iff.mpr h
  unfold ScannedLine.joinCode
  split
  · rw [byteLength_append]
    omega
  · rw [byteLength_append, show byteLength ['"', '"'] = 2 by rfl]
    omega
  · split
    · omega
    · rw [byteLength_append, show byteLength [' '] = 1 by rfl]
      omega

/-- The code of a line is at most twice as long as the line: a quote at its end stands for two. -/
theorem byteLength_codeText_le (mode : Mode) (raw : List Char) :
    byteLength (scanLine mode raw).codeText ≤ 2 * byteLength raw := by
  have hfold : ∀ (ss : List Segment) (sofar : List Char), (∀ s ∈ ss, s.text ≠ []) →
      byteLength (ss.foldl ScannedLine.joinCode sofar) ≤
        byteLength sofar + 2 * byteLength (ss.flatMap Segment.text) := by
    intro ss
    induction ss with
    | nil =>
      intro sofar _
      simp
    | cons s ss ih =>
      intro sofar h
      have hs := byteLength_joinCode_le (h s List.mem_cons_self) sofar
      have hss := ih (ScannedLine.joinCode sofar s) fun t ht => h t (List.mem_cons_of_mem s ht)
      rw [List.foldl_cons, List.flatMap_cons, byteLength_append]
      omega
  have h := hfold (scanLine mode raw).segments [] fun s hs => text_ne_nil_of_mem_ofMarks hs
  rw [segments_flatMap_text, byteLength_nil, Nat.zero_add] at h
  exact h

def pipeAt? (text rest : List Char) (place depth : Nat) : Option (Option Pipe) :=
  match if depth = 0 then Pipe.atStart? rest else none with
  | none => some none
  | some p => do
    let before ← slice? text 0 place
    let after ← sliceFrom? rest p.text.length
    return if !before.getLast?.any isOperatorChar &&
      !after.head?.any isOperatorChar then some p else none

def pipesInCode? (text : List Char) (offset : Nat) :
    Nat → Nat → Nat → Option (List (Nat × Pipe) × Nat)
  | 0, place, depth => if place < byteLength text then none else some ([], depth)
  | fuel + 1, place, depth =>
    if place < byteLength text then do
      let rest ← sliceFrom? text place
      match ← pipeAt? text rest place depth with
      | some p =>
        let found ← add? offset place
        let later ← pipesInCode? text offset fuel (← add? place p.text.length) depth
        return ((found, p) :: later.1, later.2)
      | none =>
        match rest with
        | [] => return ([], depth)
        | c :: _ => pipesInCode? text offset fuel (← add? place c.utf8Size) (← nested? depth c)
    else some ([], depth)

def pipesInSegments? (offset depth : Nat) : List Segment → Option (List (Nat × Pipe))
  | [] => some []
  | s :: ss => do
    let found ←
      if s.kind = .code then pipesInCode? s.text offset (byteLength s.text) 0 depth
      else some ([], depth)
    let later ← pipesInSegments? (← add? offset (byteLength s.text)) found.2 ss
    return found.1 ++ later

/-- The pipes of a line. -/
def pipes? (l : ScannedLine) : Option (List (Nat × Pipe)) := pipesInSegments? 0 0 l.segments

def startsWithPipe? (l : ScannedLine) : Option Bool :=
  match l.segments with
  | [] => some false
  | s :: _ =>
    if s.kind = .code then do
      let start ← sub? (byteLength s.text) (byteLength (trimStart s.text))
      let found ← pipes? l
      return found.head?.any fun p => p.1 = start
    else some false

/-- A pipe is told from the bytes on both sides as it is from the characters. -/
theorem pipeAt?_eq (front rest : List Char) (depth : Nat) :
    pipeAt? (front ++ rest) rest (byteLength front) depth =
      some (if depth = 0 then Pipe.at? front.getLast? rest else none) := by
  unfold pipeAt? Pipe.at?
  split
  · rename_i h
    split
    · rename_i hzero
      rw [if_pos hzero] at h
      rw [h]
      rfl
    · rfl
  · rename_i p h
    split at h
    · rename_i hzero
      have hpre := List.find?_some h
      rw [List.isPrefixOf_iff_prefix] at hpre
      obtain ⟨later, rfl⟩ := hpre
      rw [if_pos hzero, h, slice?_front, ← Pipe.byteLength_text, sliceFrom?_append]
      simp only [Option.bind_eq_bind, Option.bind_some, List.drop_left, Option.filter]
      rfl
    · cases h

/-- The pipes of a stretch of code are found byte by byte where they are found as characters. -/
theorem pipesInCode?_eq {text : List Char} (offset fuel : Nat)
    (front rest : List Char) (depth : Nat) (htext : text = front ++ rest)
    (hfuel : byteLength rest ≤ fuel) (hroom : offset + byteLength text + 1 < wordSize)
    (hdepth : depth + byteLength rest + 1 < wordSize) :
    pipesInCode? text offset fuel (byteLength front) depth =
      some (ScannedLine.pipesInCode (offset + byteLength front) depth front.getLast? rest,
        rest.foldl depthAfter depth) := by
  induction fuel generalizing front rest depth with
  | zero =>
    obtain rfl := eq_nil_of_byteLength_eq_zero (Nat.le_zero.mp hfuel)
    rw [List.append_nil] at htext
    rw [pipesInCode?, htext, if_neg (Nat.lt_irrefl _)]
    rfl
  | succ fuel ih =>
    cases rest with
    | nil =>
      rw [List.append_nil] at htext
      rw [pipesInCode?, htext, if_neg (Nat.lt_irrefl _)]
      rfl
    | cons c cs =>
      have hlen : byteLength text = byteLength front + (c.utf8Size + byteLength cs) := by
        rw [htext, byteLength_append, byteLength_cons]
      have hpos := c.utf8Size_pos
      rw [byteLength_cons] at hfuel hdepth
      have hslice : sliceFrom? text (byteLength front) = some (c :: cs) := by
        rw [htext]
        exact sliceFrom?_append front (c :: cs)
      have hpipe : pipeAt? text (c :: cs) (byteLength front) depth =
          some (if depth = 0 then Pipe.at? front.getLast? (c :: cs) else none) := by
        rw [htext]
        exact pipeAt?_eq front (c :: cs) depth
      rw [pipesInCode?, if_pos (by omega), hslice]
      simp only [Option.bind_eq_bind, Option.bind_some, hpipe]
      clear hpipe
      cases hat : if depth = 0 then Pipe.at? front.getLast? (c :: cs) else none with
      | some p =>
        obtain ⟨rfl, hat⟩ : depth = 0 ∧ Pipe.at? front.getLast? (c :: cs) = some p := by
          split at hat
          · rename_i hzero
            exact ⟨hzero, hat⟩
          · cases hat
        obtain ⟨⟨later, hlater⟩, -⟩ := Pipe.eq_append_of_at? hat
        have hsize : c.utf8Size + byteLength cs = p.text.length + byteLength later := by
          rw [← byteLength_cons, hlater, byteLength_append, Pipe.byteLength_text]
        have hsome := List.length_pos_iff.mpr p.text_ne_nil
        have hlast : (front ++ p.text).getLast? = p.text.getLast? := by
          rw [List.getLast?_append, Option.or_of_isSome (by simp [p.text_ne_nil])]
        have hnext : pipesInCode? text offset fuel (byteLength front + p.text.length) 0 =
            some (ScannedLine.pipesInCode (offset + byteLength front + p.text.length) 0
              p.text.getLast? later, later.foldl depthAfter 0) := by
          have h := ih (front ++ p.text) later 0
            (by rw [htext, hlater, List.append_assoc]) (by omega) (by omega)
          rwa [hlast, byteLength_append, Pipe.byteLength_text, ← Nat.add_assoc] at h
        simp only [add?_eq (show offset + byteLength front < wordSize by omega),
          add?_eq (show byteLength front + p.text.length < wordSize by omega),
          Option.bind_some, hnext]
        rw [hlater] at hat ⊢
        rw [ScannedLine.pipesInCode_at hat, List.foldl_append, foldl_depthAfter_pipe]
        rfl
      | none =>
        have hstep := depthAfter_le depth c
        have hnext :
            pipesInCode? text offset fuel (byteLength front + c.utf8Size) (depthAfter depth c) =
            some (ScannedLine.pipesInCode (offset + byteLength front + c.utf8Size)
              (depthAfter depth c) (some c) cs, cs.foldl depthAfter (depthAfter depth c)) := by
          have h := ih (front ++ [c]) cs (depthAfter depth c)
            (by rw [htext, List.append_assoc, List.singleton_append]) (by omega) (by omega)
          rwa [List.getLast?_concat, byteLength_append, byteLength_cons,
            byteLength_nil, Nat.add_zero, ← Nat.add_assoc] at h
        simp only [add?_eq (show byteLength front + c.utf8Size < wordSize by omega),
          nested?_eq (show depth + 1 < wordSize by omega), Option.bind_some, hnext]
        rw [ScannedLine.pipesInCode, hat, List.foldl_cons]

/-- The pipes of all segments are found byte by byte where they are found as characters. -/
theorem pipesInSegments?_eq {offset depth : Nat} {ss : List Segment} (hdepth : depth ≤ offset)
    (hroom : offset + byteLength (ss.flatMap Segment.text) + 1 < wordSize) :
    pipesInSegments? offset depth ss = some (ScannedLine.pipesInSegments offset depth ss) := by
  induction ss generalizing offset depth with
  | nil => rfl
  | cons s ss ih =>
    rw [List.flatMap_cons, byteLength_append] at hroom
    have hadd := add?_eq (show offset + byteLength s.text < wordSize by omega)
    rw [pipesInSegments?, ScannedLine.pipesInSegments]
    split
    · have hcode : pipesInCode? s.text offset (byteLength s.text) 0 depth =
          some (ScannedLine.pipesInCode offset depth none s.text, s.text.foldl depthAfter depth) :=
        pipesInCode?_eq offset (byteLength s.text) [] s.text depth rfl (Nat.le_refl _)
          (by omega) (by omega)
      have hfold := foldl_depthAfter_le depth s.text
      simp only [hcode, hadd, Option.bind_eq_bind, Option.bind_some,
        ih (show s.text.foldl depthAfter depth ≤ offset + byteLength s.text by omega) (by omega)]
      rfl
    · simp only [hadd, Option.bind_eq_bind, Option.bind_some,
        ih (show depth ≤ offset + byteLength s.text by omega) (by omega)]
      rfl

theorem pipes?_eq {l : ScannedLine} (hl : l.raw = l.segments.flatMap Segment.text)
    (hroom : byteLength l.raw + 1 < wordSize) : pipes? l = some l.pipes := by
  rw [hl] at hroom
  exact pipesInSegments?_eq (Nat.le_refl 0) (by omega)

/-- Whether a line starts with a pipe is told from its bytes. -/
theorem startsWithPipe?_eq {l : ScannedLine} (hl : l.raw = l.segments.flatMap Segment.text)
    (hroom : byteLength l.raw + 1 < wordSize) : startsWithPipe? l = some l.startsWithPipe := by
  unfold startsWithPipe? ScannedLine.startsWithPipe
  cases hss : l.segments with
  | nil => rfl
  | cons s ss =>
    have hblanks : byteLength (s.text.takeWhile isSpace) + byteLength (trimStart s.text) =
        byteLength s.text :=
      byteLength_takeWhile_add isSpace s.text
    simp only [sub?_eq (show byteLength (trimStart s.text) ≤ byteLength s.text by omega),
      pipes?_eq hl hroom]
    by_cases hkind : s.kind = .code
    · have hstart : byteLength s.text - byteLength (trimStart s.text) =
          byteLength (s.text.takeWhile isSpace) := by
        omega
      rw [if_pos hkind, hstart]
      cases l.pipes <;> simp [hkind]
    · rw [if_neg hkind]
      cases l.pipes <;> simp [hkind]

def equalsFrom? (code : List Char) (depth : Nat) (prev : Option Char) (place : Nat) :
    List Char → Option (Option Nat)
  | [] => some none
  | c :: cs =>
    if c = '"' then some none
    else if c = '=' ∧ depth = 0 ∧ !prev.any isOperatorChar ∧
        !cs.head?.any (fun d => d == '=' || d == '>') then do
      let head ← slice? code 0 place
      return if isDefinitionHead (trim head) then some place else none
    else do equalsFrom? code (← nested? depth c) (some c) (place + c.utf8Size) cs

def equals? (code : List Char) : Option (Option Nat) := equalsFrom? code 0 none 0 code

def binding? (code : List Char) : Option (Option (List Char)) := do
  match ← equals? code with
  | none => return none
  | some place =>
    let head := trim (← slice? code 0 place)
    return if isBindingHead head then some head else none

def roleOf? (code : List Char) : Option Role :=
  let code := trim code
  match watchMarker? code with
  | some marker => some (if marker = testMarker then .test else .watch)
  | none =>
    if isUseClause code then some .useClause
    else if isTypeDeclaration code then some .typeDeclaration
    else
      match signature? code with
      | some (name, _) => some (.signature name)
      | none => do
        match ← equals? code with
        | some place => return .definition (leadingName? (trim (← slice? code 0 place)))
        | none => return .other

def arrowFrom? (depth : Nat) (prev : Char) : List Char → Option Bool
  | [] => some false
  | c :: cs =>
    if c == '>' && depth == 0 && prev == '-' then some true
    else do arrowFrom? (← nested? depth c) c cs

def arm? (code : List Char) : Option Bool := arrowFrom? 0 ' ' code

/-- The equals sign of a definition is found at its byte. -/
theorem equalsFrom?_eq {code : List Char} (front rest : List Char) (depth : Nat)
    (prev : Option Char) (hcode : code = front ++ rest)
    (hdepth : depth + byteLength rest < wordSize) :
    equalsFrom? code depth prev (byteLength front) rest =
      some (((beforeEquals? depth prev rest).filter fun head =>
        isDefinitionHead (trim (front ++ head))).map
        fun head => byteLength (front ++ head)) := by
  induction rest generalizing front depth prev with
  | nil => rfl
  | cons c cs ih =>
    have hpos := c.utf8Size_pos
    rw [byteLength_cons] at hdepth
    rw [equalsFrom?, beforeEquals?]
    split
    · rfl
    split
    · rw [hcode, slice?_front]
      simp only [Option.bind_eq_bind, Option.bind_some, Option.filter, List.append_nil]
      split <;> simp
    · have hstep := depthAfter_le depth c
      have hlater := ih (front ++ [c]) (depthAfter depth c) (some c)
        (by rw [hcode, List.append_assoc, List.singleton_append]) (by omega)
      rw [byteLength_append, byteLength_cons, byteLength_nil, Nat.add_zero] at hlater
      rw [nested?_eq (by omega), Option.bind_eq_bind, Option.bind_some, hlater]
      cases beforeEquals? (depthAfter depth c) (some c) cs with
      | none => rfl
      | some head => simp [Option.filter]

theorem equals?_eq {code : List Char} (hroom : byteLength code < wordSize) :
    equals? code = some ((definitionHead? code).map byteLength) :=
  equalsFrom?_eq [] code 0 none rfl (by omega)

/-- What stands before the equals sign of a definition is cut off at its place. -/
theorem slice?_definitionHead? {code head : List Char} (h : definitionHead? code = some head) :
    slice? code 0 (byteLength head) = some head := by
  obtain ⟨rest, rfl⟩ := eq_append_of_definitionHead? h
  exact slice?_front head _

theorem binding?_eq {code : List Char} (hroom : byteLength code < wordSize) :
    binding? code = some (bindingHead? code) := by
  rw [binding?, bindingHead?, equals?_eq hroom, Option.bind_eq_bind, Option.bind_some]
  cases h : definitionHead? code with
  | none => rfl
  | some head =>
    simp only [Option.map_some, slice?_definitionHead? h, Option.filter]
    rfl

theorem byteLength_trim_le (cs : List Char) : byteLength (trim cs) ≤ byteLength cs := by
  have hstart : byteLength (cs.takeWhile isSpace) + byteLength (trimStart cs) = byteLength cs :=
    byteLength_takeWhile_add isSpace cs
  obtain ⟨tail, htail, -⟩ := dropEndWhile_append isSpace (trimStart cs)
  have hend : byteLength (trimStart cs) = byteLength (trim cs) + byteLength tail := by
    rw [← byteLength_append, trim, htail]
  omega

/-- The role of a line of code is told from its bytes. -/
theorem roleOf?_eq {code : List Char} (hroom : byteLength code < wordSize) :
    roleOf? code = some (Role.ofCode code) := by
  have hroom' : byteLength (trim code) < wordSize :=
    Nat.lt_of_le_of_lt (byteLength_trim_le code) hroom
  unfold roleOf? Role.ofCode
  simp only [equals?_eq hroom', Option.bind_eq_bind, Option.bind_some]
  cases watchMarker? (trim code) with
  | some marker => rfl
  | none =>
    simp only
    split
    · rfl
    split
    · rfl
    cases signature? (trim code) with
    | some found => rfl
    | none =>
      cases h : definitionHead? (trim code) with
      | none => rfl
      | some head =>
        simp only [Option.map_some, slice?_definitionHead? h]
        rfl

/-- An arrow outside brackets is found in bytes. -/
theorem arrowFrom?_eq {cs : List Char} {depth : Nat} (prev : Char)
    (hdepth : depth + byteLength cs < wordSize) :
    arrowFrom? depth prev cs = some (hasArrow depth prev cs) := by
  induction cs generalizing depth prev with
  | nil => rfl
  | cons c cs ih =>
    have hpos := c.utf8Size_pos
    have hstep := depthAfter_le depth c
    rw [byteLength_cons] at hdepth
    rw [arrowFrom?, hasArrow]
    split
    · rename_i h
      rw [h, Bool.true_or]
    · rename_i h
      rw [nested?_eq (by omega), Option.bind_eq_bind, Option.bind_some, ih c (by omega),
        Bool.eq_false_iff.mpr h, Bool.false_or]

theorem arm?_eq {code : List Char} (hroom : byteLength code < wordSize) :
    arm? code = some (isArm code) :=
  arrowFrom?_eq ' ' (by omega)

end Bytewise

end ScratchFormat
