import ScratchFormat.Proofs.Bytewise.Line
import ScratchFormat.Proofs.Lexing
import ScratchFormat.Proofs.Spacing

/-! Setting the gaps of a line by index. The characters of a stretch of code are numbered, the
loops go from number to number, and a colon or an equals sign that is set off is known by its
byte offset. -/

namespace ScratchFormat

namespace Bytewise

def between? (cs : List Char) (start stop : Nat) : Option (List Char) :=
  if start ≤ stop ∧ stop ≤ cs.length then some ((cs.take stop).drop start) else none

theorem between?_append (as bs cs : List Char) :
    between? (as ++ (bs ++ cs)) as.length (as.length + bs.length) = some bs := by
  rw [between?, if_pos (by simp), ← List.append_assoc, ← List.length_append, List.take_left,
    List.drop_left]

namespace Gaps

open ScratchFormat.Gaps
  (shift shift_shift splitRun? runAfter after before binary operators place code segments)

def standsAt? (cs : List Char) (place : Nat) : List Char → Option Bool
  | [] => some true
  | c :: text => if cs[place]? = some c then do standsAt? cs (← add? place 1) text else some false

def inExponent? (cs : List Char) (place : Nat) : Option Bool :=
  if place < 2 then some false
  else do
    let e ← cs[← sub? place 1]?
    let d ← cs[← sub? place 2]?
    return (e == 'e' || e == 'E') && isAsciiDigit d && cs[← add? place 1]?.any isAsciiDigit

def operatorOf? (cs : List Char) (place : Nat) (prev : Option Char) :
    List Operator → Option (Option Operator)
  | [] => some none
  | op :: ops => do
    if ← standsAt? cs place op.text then
      let next := cs[← add? place op.text.length]?
      if prev.any op.notAfter.contains || next.any op.notBefore.contains then
        operatorOf? cs place prev ops
      -- a section such as `(+)`
      else if prev = some '(' ∧ next = some ')' then return none
      else if op.sign then
        return if ← inExponent? cs place then none else some op
      else return some op
    else operatorOf? cs place prev ops

def charBefore? (cs : List Char) (place : Nat) : Option (Option Char) :=
  if place = 0 then some none else (cs[place - 1]?).map some

def operatorAt? (cs : List Char) (place : Nat) : Option (Option Operator) := do
  let prev ← charBefore? cs place
  if prev = some '.' then return none else operatorOf? cs place prev Operator.table

def piecesFrom? (cs : List Char) (stop : Nat) : Nat → Nat → Option (Option (List (Nat × Operator)))
  | 0, place => if place < stop then none else some (some [])
  | fuel + 1, place =>
    if place < stop then do
      match ← operatorAt? cs place with
      | none => return none
      | some op =>
        let next ← add? place op.text.length
        if stop < next then return none
        else return (← piecesFrom? cs stop fuel next).map ((place, op) :: ·)
    else some (some [])

def runEnd? (cs : List Char) (special : Option Nat) (start : Nat) : Nat → Nat → Option Nat
  | 0, place => if place < cs.length then none else some place
  | fuel + 1, place =>
    if place < cs.length then do
      let c ← cs[place]?
      if isOperatorChar c && (place = start || special ≠ some (byteLength (cs.take place))) then
        runEnd? cs special start fuel (← add? place 1)
      else return place
    else some place

def skipBlanks? (cs : List Char) : Nat → Nat → Option Nat
  | 0, place => if place < cs.length then none else some place
  | fuel + 1, place =>
    if place < cs.length then do
      let c ← cs[place]?
      if isIndent c then skipBlanks? cs fuel (← add? place 1) else return place
    else some place

def cutBlanks? (out : List Char) : Option (List Char) :=
  (slice? out.reverse 0 (byteLength (dropEndWhile isIndent out.reverse))).map List.reverse

def before? (out : List Char) : Option (List Char) := do
  match ← cutBlanks? out with
  | [] => return []
  | c :: cs => return if isOpener c then c :: cs else ' ' :: c :: cs

def binary? (cs : List Char) (more : Bool) (place size : Nat) (out : List Char) :
    Option (Nat × List Char) := do
  let out ← before? out
  let stop ← add? place size
  let text ← between? cs place stop
  let next ← skipBlanks? cs cs.length stop
  return (next, after more (cs.drop next) (text.reverse ++ out))

def pieces? (cs : List Char) (more : Bool) (last : Nat) (number place : Nat) (out : List Char) :
    List (Nat × Operator) → Option (Nat × List Char)
  | [] => some (place, out)
  | (start, op) :: later => do
    let next ← add? start op.text.length
    if op.isSignAt out.head? cs[next]? then
      pieces? cs more last (number + 1) next (op.text.reverse ++ out) later
    else if number < last then
      pieces? cs more last (number + 1) next (' ' :: (op.text.reverse ++ (← before? out))) later
    else
      let r ← binary? cs more start op.text.length out
      pieces? cs more last (number + 1) r.1 r.2 later

/-- Sets what stands at a place and goes on behind it. -/
def place? (cs : List Char) (special : Option Nat) (more : Bool) (place : Nat) (out : List Char) :
    Option (Nat × List Char) := do
  let c ← cs[place]?
  if special = some (byteLength (cs.take place)) then binary? cs more place 1 out
  else if c = ',' then
    let out ← cutBlanks? out
    let next ← skipBlanks? cs cs.length (← add? place 1)
    return (next, after more (cs.drop next) (',' :: out))
  else if isOperatorChar c then
    let stop ← runEnd? cs special place cs.length place
    match ← piecesFrom? cs stop cs.length place with
    | none => return (stop, (← between? cs place stop).reverse ++ out)
    | some found => pieces? cs more (← sub? found.length 1) 0 place out found
  else return (← add? place 1, c :: out)

def codeFrom? (cs : List Char) (special : Option Nat) (more : Bool) :
    Nat → Nat → List Char → Option (List Char)
  | 0, place, out => if place < cs.length then none else some out
  | fuel + 1, place, out =>
    if place < cs.length then do
      let r ← place? cs special more place out
      codeFrom? cs special more fuel r.1 r.2
    else some out

def code? (more : Bool) (special : Option Nat) (out cs : List Char) : Option (List Char) :=
  codeFrom? cs special more cs.length 0 out

def segments? (count number : Nat) (out : List Char) : List Segment → Option (List Char)
  | [] => some out
  | s :: ss => do
    if s.kind = .code then
      let next ← add? number 1
      segments? count (number + 1) (← code? (next < count) none out s.text) ss
    else segments? count (number + 1) (s.text.reverse ++ out) ss

def special? (role : Role) (head : List Char) : Option (Option Nat) :=
  match role with
  | .signature _ => some ((signature? head).map fun (name, gap) => byteLength (name ++ gap))
  | .definition _ | .typeDeclaration => equals? head
  | _ => some none

def marker? (role : Role) (head : List Char) (later : List Segment) :
    Option (List Char × List Char) :=
  match if role = .watch ∨ role = .test then (watchMarker? head).map byteLength else none with
  | none => some ([], head)
  | some size => do
    let marker ← slice? head 0 size
    let body := trimStart (← sliceFrom? head size)
    return (if body.isEmpty && later.isEmpty then marker.reverse else ' ' :: marker.reverse, body)

def line? (l : ScannedLine) : Option (List Char) :=
  if l.isBlank || l.isCommentOnly then some l.raw
  else if !l.startsInCode then (segments? l.segments.length 0 [] l.segments).map List.reverse
  else do
    let size ← sub? (byteLength l.raw) (byteLength (l.raw.dropWhile isIndent))
    let indent ← slice? l.raw 0 size
    let role ← roleOf? l.codeText
    if role = .useClause then return l.raw
    else
      match l.segments with
      | [] => return l.raw
      | first :: later =>
        if first.kind = .code then
          let head ← sliceFrom? first.text (min size (byteLength first.text))
          let (out, body) ← marker? role head later
          let out ← code? (!later.isEmpty) (← special? role body) out body
          return indent ++ (← segments? l.segments.length 1 out later).reverse
        else
          -- there is no head to look at
          let (out, body) ← marker? role [] later
          let _ ← special? role body
          return indent ++ (← segments? l.segments.length 0 out l.segments).reverse

theorem getElem?_front (as bs : List Char) : (as ++ bs)[as.length]? = bs.head? := by
  rw [List.getElem?_append_right (Nat.le_refl _), Nat.sub_self, List.head?_eq_getElem?]

/-- A text is found at an index where the rest begins with it. -/
theorem standsAt?_eq (front rest text : List Char) (hroom : (front ++ rest).length < wordSize) :
    standsAt? (front ++ rest) front.length text = some (text.isPrefixOf rest) := by
  induction text generalizing front rest with
  | nil => rfl
  | cons c text ih =>
    rw [standsAt?, getElem?_front]
    cases rest with
    | nil => rfl
    | cons d rest =>
      rw [List.head?_cons, List.isPrefixOf]
      by_cases hcd : d = c
      · subst hcd
        have hsplit : front ++ d :: rest = (front ++ [d]) ++ rest := by simp
        have hlater := ih (front ++ [d]) rest (by rwa [← hsplit])
        rw [List.length_append, List.length_singleton, ← hsplit] at hlater
        rw [if_pos rfl, add?_eq (by simp at hroom; omega), Option.bind_eq_bind,
          Option.bind_some, hlater]
        simp
      · have hne : (c == d) = false := beq_eq_false_iff_ne.mpr fun h => hcd h.symm
        rw [if_neg (by simpa using hcd), hne]
        rfl

/-- An exponent is told from the characters before an index. -/
theorem inExponent?_eq (front rest : List Char) (hroom : (front ++ rest).length + 1 < wordSize) :
    inExponent? (front ++ rest) front.length = some (Operator.inExponent front.reverse rest) := by
  rcases List.eq_nil_or_concat front with rfl | ⟨front, e, rfl⟩
  · rfl
  rcases List.eq_nil_or_concat front with rfl | ⟨front, d, rfl⟩
  · rfl
  simp only [List.concat_eq_append, List.append_assoc, List.cons_append, List.nil_append] at hroom ⊢
  have hlen : (front ++ [d, e]).length = front.length + 2 := by simp
  have he : (front ++ d :: e :: rest)[front.length + 1]? = some e := by
    rw [List.getElem?_append_right (by omega), Nat.add_sub_cancel_left]
    rfl
  have hd : (front ++ d :: e :: rest)[front.length]? = some d := getElem?_front front _
  have hnext : (front ++ d :: e :: rest)[front.length + 2 + 1]? = rest[1]? := by
    rw [List.getElem?_append_right (by omega),
      show front.length + 2 + 1 - front.length = 3 by omega]
    rfl
  have hrest : (front ++ d :: e :: rest).length = front.length + 2 + rest.length := by
    simp
    omega
  rw [inExponent?, hlen, if_neg (by omega), sub?_eq (by omega), sub?_eq (by omega),
    add?_eq (by omega)]
  simp only [Option.bind_eq_bind, Option.bind_some,
    show front.length + 2 - 1 = front.length + 1 by omega,
    show front.length + 2 - 2 = front.length by omega, he, hd, hnext]
  rw [List.reverse_append]
  -- the sign itself and what follows it
  rcases rest with - | ⟨sign, - | ⟨next, rest⟩⟩
  · simp [Operator.inExponent]
  · simp [Operator.inExponent]
  · rfl

/-- The operator at an index is the one that the rest begins with. -/
theorem operatorOf?_eq (front rest : List Char) (prev : Option Char) (ops : List Operator)
    (hroom : (front ++ rest).length + 1 < wordSize) :
    operatorOf? (front ++ rest) front.length prev ops = some
      (match ops.find? (·.admits prev rest) with
      | none => none
      | some op =>
        if prev = some '(' ∧ (rest.drop op.text.length).head? = some ')' then none
        else if op.sign ∧ Operator.inExponent front.reverse rest then none
        else some op) := by
  induction ops with
  | nil => rfl
  | cons op ops ih =>
    rw [operatorOf?, standsAt?_eq front rest op.text (by omega), Option.bind_eq_bind,
      Option.bind_some]
    by_cases hpre : op.text.isPrefixOf rest = true
    · obtain ⟨later, rfl⟩ := List.isPrefixOf_iff_prefix.mp hpre
      have hnext : (front ++ (op.text ++ later))[front.length + op.text.length]? = later.head? := by
        rw [← List.append_assoc, ← List.length_append]
        exact getElem?_front _ _
      have hadd : add? front.length op.text.length = some (front.length + op.text.length) := by
        apply add?_eq
        simp at hroom
        omega
      have hdrop : (op.text ++ later).drop op.text.length = later := List.drop_left
      rw [if_pos hpre, hadd]
      simp only [Option.bind_eq_bind, Option.bind_some, hnext]
      have hadmits : op.admits prev (op.text ++ later) =
          !(prev.any op.notAfter.contains || later.head?.any op.notBefore.contains) := by
        rw [Operator.admits, hpre, hdrop, Bool.true_and, Bool.not_or]
      cases hneighbours : prev.any op.notAfter.contains ||
        later.head?.any op.notBefore.contains with
      | false =>
        rw [List.find?_cons, hadmits, hneighbours, inExponent?_eq _ _ hroom]
        simp only [Bool.false_eq_true, if_false, Option.bind_some, Bool.not_false, hdrop]
        split
        · rfl
        · cases op.sign <;> simp
      | true =>
        rw [List.find?_cons, hadmits, hneighbours, if_pos rfl]
        exact ih
    · have hadmits : op.admits prev rest = false := by
        simp [Operator.admits, hpre]
      rw [List.find?_cons, hadmits, if_neg hpre]
      exact ih

theorem charBefore?_eq (front rest : List Char) :
    charBefore? (front ++ rest) front.length = some front.getLast? := by
  rcases List.eq_nil_or_concat front with rfl | ⟨front, c, rfl⟩
  · rfl
  · rw [charBefore?, List.concat_eq_append, List.length_append, List.length_singleton,
      if_neg (by omega), Nat.add_sub_cancel, List.append_assoc, List.singleton_append,
      getElem?_front, List.getLast?_concat]
    rfl

theorem operatorAt?_eq (front rest : List Char) (hroom : (front ++ rest).length + 1 < wordSize) :
    operatorAt? (front ++ rest) front.length = some (Operator.at? front.reverse rest) := by
  rw [operatorAt?, charBefore?_eq, Operator.at?, List.head?_reverse, Option.bind_eq_bind,
    Option.bind_some]
  split
  · rfl
  · exact operatorOf?_eq front rest front.getLast? Operator.table hroom

def placed (start : Nat) : List Operator → List (Nat × Operator)
  | [] => []
  | op :: ops => (start, op) :: placed (start + op.text.length) ops

@[simp] theorem length_placed (start : Nat) (ops : List Operator) :
    (placed start ops).length = ops.length := by
  induction ops generalizing start with
  | nil => rfl
  | cons op ops ih => rw [placed, List.length_cons, ih, List.length_cons]

/-- A run is split at indices as it is split character by character. -/
theorem piecesFrom?_eq (fuel : Nat) (front run tail : List Char) (hfuel : run.length ≤ fuel)
    (hroom : (front ++ (run ++ tail)).length + 4 < wordSize) :
    piecesFrom? (front ++ (run ++ tail)) (front.length + run.length) fuel front.length =
      some ((splitRun? front.reverse tail 0 run).map (placed front.length)) := by
  induction fuel generalizing front run with
  | zero =>
    rw [List.eq_nil_of_length_eq_zero (Nat.le_zero.mp hfuel), piecesFrom?, if_neg (by simp)]
    rfl
  | succ fuel ih =>
    cases run with
    | nil =>
      rw [piecesFrom?, if_neg (by simp)]
      rfl
    | cons c run =>
      rw [piecesFrom?, if_pos (by simp), operatorAt?_eq _ _ (by omega), splitRun?]
      simp only [Option.bind_eq_bind, Option.bind_some]
      cases hat : Operator.at? front.reverse (c :: run ++ tail) with
      | none => rfl
      | some op =>
        obtain ⟨htable, rest, hrest⟩ := Operator.mem_table_of_at? hat
        have hsize : op.text.length ≤ 3 ∧ 0 < op.text.length := by
          have hall : ∀ op ∈ Operator.table, op.text.length ≤ 3 ∧ 0 < op.text.length := by decide
          exact hall op htable
        have hlen : (front ++ (c :: run ++ tail)).length = front.length +
            (run.length + 1 + tail.length) := by
          simp [Nat.add_right_comm]
        obtain ⟨n, hn⟩ : ∃ n, op.text.length = n + 1 := Nat.exists_eq_succ_of_ne_zero (by omega)
        rw [List.length_cons] at hfuel
        have hadd := add?_eq (show front.length + (n + 1) < wordSize by omega)
        simp only [hn, hadd, Option.bind_some, List.length_cons, Nat.add_sub_cancel]
        rw [ScratchFormat.Gaps.splitRun?_owed]
        by_cases hfits : n ≤ run.length
        · -- the operator ends within the run
          have htext : op.text = c :: run.take n := by
            have hpre := congrArg (List.take op.text.length) hrest
            rw [List.take_left, hn, List.cons_append, List.take_succ_cons,
              List.take_append_of_le_length hfits] at hpre
            exact hpre.symm
          have hall : front ++ op.text ++ (run.drop n ++ tail) = front ++ (c :: run ++ tail) := by
            rw [htext, List.append_assoc, List.cons_append, ← List.append_assoc (run.take n),
              List.take_append_drop]
            rfl
          have hstop : front.length + (n + 1) + (run.drop n).length = front.length +
              (run.length + 1) := by
            rw [List.length_drop]
            omega
          have hlater := ih (front ++ op.text) (run.drop n) (by rw [List.length_drop]; omega)
            (by rw [hall]; exact hroom)
          rw [hall, List.length_append, hn, hstop, List.reverse_append, htext, List.reverse_cons,
            List.append_assoc, List.singleton_append] at hlater
          rw [if_neg (by omega), if_pos hfits, hlater]
          cases splitRun? ((run.take n).reverse ++ c :: front.reverse) tail 0 (run.drop n) with
          | none => rfl
          | some ops => simp [placed, hn]
        · rw [if_pos (by omega), if_neg hfits]
          rfl

/-- Blanks are passed up to the first character that is none. -/
theorem skipBlanks?_eq (fuel : Nat) (front rest : List Char) (hfuel : rest.length ≤ fuel)
    (hroom : (front ++ rest).length + 4 < wordSize) :
    skipBlanks? (front ++ rest) fuel front.length =
      some (front.length + (rest.takeWhile isIndent).length) := by
  induction fuel generalizing front rest with
  | zero =>
    rw [List.eq_nil_of_length_eq_zero (Nat.le_zero.mp hfuel), skipBlanks?, if_neg (by simp)]
    rfl
  | succ fuel ih =>
    cases rest with
    | nil =>
      rw [skipBlanks?, if_neg (by simp)]
      rfl
    | cons c rest =>
      rw [skipBlanks?, if_pos (by simp), getElem?_front, List.head?_cons, Option.bind_eq_bind,
        Option.bind_some]
      split
      · rename_i hblank
        have hsplit : front ++ c :: rest = front ++ [c] ++ rest := by simp
        have hlater := ih (front ++ [c]) rest (by simpa using hfuel) (by rwa [← hsplit])
        rw [← hsplit, List.length_append, List.length_singleton] at hlater
        rw [add?_eq (by simp at hroom; omega), Option.bind_eq_bind, Option.bind_some, hlater,
          List.takeWhile_cons_of_pos hblank,
          List.length_cons, Nat.add_assoc, Nat.add_comm 1]
      · rename_i hblank
        rw [List.takeWhile_cons_of_neg hblank]
        rfl

/-- Two beginnings of a text with as many bytes are the same. -/
theorem byteLength_take_inj {cs : List Char} {m n : Nat} (hm : m ≤ cs.length) (hn : n ≤ cs.length)
    (h : byteLength (cs.take m) = byteLength (cs.take n)) : m = n := by
  have hlt : ∀ m n, m < n → n ≤ cs.length → byteLength (cs.take m) < byteLength (cs.take n) := by
    intro m n hmn hn
    have hsplit : cs.take n = cs.take m ++ (cs.drop m).take (n - m) := by
      rw [← List.take_add, Nat.add_sub_cancel' (Nat.le_of_lt hmn)]
    have hpos := length_le_byteLength ((cs.drop m).take (n - m))
    rw [List.length_take, List.length_drop] at hpos
    rw [hsplit, byteLength_append]
    omega
  rcases Nat.lt_trichotomy m n with hmn | hmn | hmn
  · have := hlt m n hmn hn
    omega
  · exact hmn
  · have := hlt n m hmn hm
    omega

def bytePlace (cs : List Char) (special : Option Nat) : Option Nat :=
  special.map fun n => byteLength (cs.take n)

/-- The place of the mark in bytes is that of the characters before it. -/
theorem bytePlace_eq_some {cs : List Char} {special : Option Nat}
    (hspecial : ∀ n ∈ special, n ≤ cs.length) {m : Nat} (hm : m ≤ cs.length) :
    bytePlace cs special = some (byteLength (cs.take m)) ↔ special = some m := by
  cases special with
  | none => simp [bytePlace]
  | some n =>
    simp only [bytePlace, Option.map_some, Option.some.injEq]
    constructor
    · exact byteLength_take_inj (hspecial n rfl) hm
    · rintro rfl
      rfl

theorem shift_eq_zero (special : Option Nat) (m : Nat) :
    shift special m = some 0 ↔ special = some m := by
  cases special with
  | none => simp [shift]
  | some n =>
    simp only [shift, Option.bind_some, Option.some.injEq]
    split
    · simp
      omega
    · simp
      omega

/-- A run of operator characters, which a colon or an equals sign that is set on its own ends. -/
def run (special : Option Nat) (cs : List Char) : List Char :=
  special.elim (cs.takeWhile isOperatorChar) (cs.takeWhile isOperatorChar).take

theorem run_cons {special : Option Nat} (hs : special ≠ some 0) {c : Char}
    (hc : isOperatorChar c = true) (cs : List Char) :
    run special (c :: cs) = c :: run (shift special 1) cs := by
  cases special with
  | none => simp [run, shift, hc]
  | some n =>
    obtain ⟨m, rfl⟩ : ∃ m, n = m + 1 := Nat.exists_eq_succ_of_ne_zero fun h => hs (by rw [h])
    simp [run, shift, hc]

theorem run_eq_runAfter {special : Option Nat} (hs : special ≠ some 0) {c : Char}
    (hc : isOperatorChar c = true) (cs : List Char) :
    run special (c :: cs) = c :: runAfter special cs := by
  cases special with
  | none => simp [run, runAfter, hc]
  | some n =>
    obtain ⟨m, rfl⟩ : ∃ m, n = m + 1 := Nat.exists_eq_succ_of_ne_zero fun h => hs (by rw [h])
    simp [run, runAfter, hc]

/-- A run ends at the first character that is no operator character, or at the mark. -/
theorem runEnd?_eq {cs : List Char} {special : Option Nat} (hspecial : ∀ n ∈ special, n ≤ cs.length)
    (fuel : Nat) (front read rest : List Char) (hcs : cs = front ++ (read ++ rest))
    (hfuel : rest.length ≤ fuel) (hstart : read = [] → shift special front.length ≠ some 0)
    (hroom : cs.length + 4 < wordSize) :
    runEnd? cs (bytePlace cs special) front.length fuel (front.length + read.length) =
      some (front.length + read.length +
        (run (shift special (front.length + read.length)) rest).length) := by
  induction fuel generalizing read rest with
  | zero =>
    have hrest := List.eq_nil_of_length_eq_zero (Nat.le_zero.mp hfuel)
    subst hrest
    rw [runEnd?, if_neg (by rw [hcs]; simp)]
    cases shift special (front.length + read.length) <;> simp [run]
  | succ fuel ih =>
    have hlen : cs.length = front.length + read.length + rest.length := by
      rw [hcs, List.length_append, List.length_append, Nat.add_assoc]
    cases rest with
    | nil =>
      rw [runEnd?, if_neg (by rw [hlen]; simp)]
      cases shift special (front.length + read.length) <;> simp [run]
    | cons c rest =>
      rw [List.length_cons] at hlen hfuel
      have hc : cs[front.length + read.length]? = some c := by
        rw [hcs, ← List.append_assoc, ← List.length_append]
        exact getElem?_front _ _
      -- at the start of the run nothing is marked, so the first test makes no difference
      have hmark : (decide (front.length + read.length = front.length) ||
          decide (bytePlace cs special ≠
            some (byteLength (cs.take (front.length + read.length))))) =
          decide (shift special (front.length + read.length) ≠ some 0) := by
        rw [Bool.eq_iff_iff, Bool.or_eq_true, decide_eq_true_iff, decide_eq_true_iff,
          decide_eq_true_iff, Ne, bytePlace_eq_some hspecial (by omega), Ne, shift_eq_zero]
        refine ⟨fun h => h.elim (fun hread => ?_) id, .inr⟩
        have hnil := List.eq_nil_of_length_eq_zero (show read.length = 0 by omega)
        have := hstart hnil
        rw [Ne, shift_eq_zero] at this
        rw [hnil]
        exact this
      rw [runEnd?, if_pos (by omega), hc]
      simp only [Option.bind_eq_bind, Option.bind_some, hmark]
      by_cases hzero : shift special (front.length + read.length) = some 0
      · simp [hzero, run]
      · by_cases hop : isOperatorChar c = true
        · have hlater := ih (read ++ [c]) rest (by rw [hcs]; simp) (by omega) (by simp)
          rw [List.length_append, List.length_singleton, ← Nat.add_assoc] at hlater
          rw [run_cons hzero hop, shift_shift, List.length_cons, add?_eq (by omega), hop,
            decide_eq_true hzero]
          simp only [Bool.and_self, if_true, Option.bind_some, hlater]
          congr 1
          omega
        · have hnil : run (shift special (front.length + read.length)) (c :: rest) = [] := by
            cases shift special (front.length + read.length) <;> simp [run, hop]
          simp [hop, hnil]

theorem cutBlanks?_eq (out : List Char) : cutBlanks? out = some (out.dropWhile isIndent) := by
  obtain ⟨tail, htail, -⟩ := dropEndWhile_append isIndent out.reverse
  have hkept : dropEndWhile isIndent out.reverse = (out.dropWhile isIndent).reverse := by
    rw [dropEndWhile, List.reverse_reverse]
  have hcut : slice? out.reverse 0 (byteLength (dropEndWhile isIndent out.reverse)) =
      some (dropEndWhile isIndent out.reverse) := by
    have h := slice?_front (dropEndWhile isIndent out.reverse) tail
    rwa [htail] at h
  rw [cutBlanks?, hcut, hkept, Option.map_some, List.reverse_reverse]

theorem before?_eq (out : List Char) : before? out = some (before out) := by
  rw [before?, cutBlanks?_eq, before, Option.bind_eq_bind, Option.bind_some]
  cases out.dropWhile isIndent <;> rfl

/-- An operator between blanks is put out with its gap, and the blanks behind it are passed. -/
theorem binary?_eq (more : Bool) (front text later out : List Char)
    (hroom : (front ++ (text ++ later)).length + 4 < wordSize) :
    binary? (front ++ (text ++ later)) more front.length text.length out =
      some (front.length + text.length + (later.takeWhile isIndent).length,
        binary more text later out) := by
  have hlen : (front ++ (text ++ later)).length = front.length + text.length + later.length := by
    simp [Nat.add_assoc]
  have hskip : skipBlanks? (front ++ (text ++ later)) (front ++ (text ++ later)).length
      (front.length + text.length) = some
        (front.length + text.length + (later.takeWhile isIndent).length) := by
    have h := skipBlanks?_eq (front ++ (text ++ later)).length (front ++ text) later (by omega)
      (by rwa [List.append_assoc])
    simpa only [List.append_assoc, List.length_append] using h
  have hdrop : (front ++ (text ++ later)).drop
      (front.length + text.length + (later.takeWhile isIndent).length) =
      later.dropWhile isIndent := by
    rw [← List.append_assoc, ← List.length_append, List.drop_length_add_append,
      Gaps.drop_takeWhile_length]
  rw [binary?, before?_eq, add?_eq (by omega)]
  simp only [Option.bind_eq_bind, Option.bind_some, between?_append, hskip, hdrop]
  rfl

/-- The operators of a run are put out at indices as they are character by character. -/
theorem pieces?_eq (more : Bool) (last number : Nat) (front : List Char) (ops : List Operator)
    (later out : List Char) (hlast : ops ≠ [] → number + ops.length = last + 1)
    (hroom : (front ++ (ops.flatMap Operator.text ++ later)).length + 4 < wordSize) :
    let rest := ops.flatMap Operator.text ++ later
    pieces? (front ++ rest) more last number front.length out (placed front.length ops) =
      some (front.length + (operators more rest out ops).2, (operators more rest out ops).1) := by
  induction ops generalizing front number out with
  | nil => rfl
  | cons op ops ih =>
    rw [List.flatMap_cons, List.append_assoc] at hroom ⊢
    have hlast := hlast (by simp)
    rw [List.length_cons] at hlast
    have hnext : (front ++ (op.text ++ (ops.flatMap Operator.text ++ later)))[front.length +
        op.text.length]? = (ops.flatMap Operator.text ++ later).head? := by
      rw [← List.append_assoc, ← List.length_append]
      exact getElem?_front _ _
    have hdrop : (op.text ++ (ops.flatMap Operator.text ++ later)).drop op.text.length =
        ops.flatMap Operator.text ++ later := List.drop_left
    have hlater : ∀ out,
        pieces? (front ++ (op.text ++ (ops.flatMap Operator.text ++ later))) more last (number + 1)
          (front.length + op.text.length) out (placed (front.length + op.text.length) ops) =
          some (front.length +
            (op.text.length + (operators more (ops.flatMap Operator.text ++ later) out ops).2),
            (operators more (ops.flatMap Operator.text ++ later) out ops).1) := by
      intro out
      have h :=
        ih (number + 1) (front ++ op.text) out (fun _ => by omega) (by rwa [List.append_assoc])
      simp only at h
      rwa [List.append_assoc, List.length_append, Nat.add_assoc] at h
    have hadd : add? front.length op.text.length = some (front.length + op.text.length) := by
      apply add?_eq
      simp only [List.length_append] at hroom
      omega
    simp only [placed, pieces?, operators, hadd, Option.bind_eq_bind, Option.bind_some, hnext,
      hdrop, before?_eq]
    split
    · exact hlater _
    by_cases hops : ops = []
    · subst hops
      simp only [List.length_nil] at hlast
      have hbinary := binary?_eq more front op.text later out hroom
      simp only [List.flatMap_nil, List.nil_append, List.isEmpty_nil, if_true, hbinary,
        Option.bind_some]
      rw [if_neg (by omega)]
      simp [placed, pieces?, Nat.add_assoc]
    · have hpos := List.length_pos_iff.mpr hops
      rw [if_pos (by omega), if_neg (by simpa using hops)]
      exact hlater _

/-- The operators of a run and the blanks behind them use up no more than there is. -/
theorem operators_le (more : Bool) (ops : List Operator) (later out : List Char) :
    (operators more (ops.flatMap Operator.text ++ later) out ops).2 ≤
      (ops.flatMap Operator.text ++ later).length := by
  induction ops generalizing out with
  | nil => exact Nat.zero_le _
  | cons op ops ih =>
    have hdrop : (op.text ++ (ops.flatMap Operator.text ++ later)).drop op.text.length =
        ops.flatMap Operator.text ++ later := List.drop_left
    have hblanks : ((ops.flatMap Operator.text ++ later).takeWhile isIndent).length ≤
        (ops.flatMap Operator.text ++ later).length := (List.takeWhile_prefix _).length_le
    rw [List.flatMap_cons, List.append_assoc, List.length_append]
    simp only [operators, hdrop]
    split
    · exact Nat.add_le_add_left (ih _) _
    split
    · exact Nat.add_le_add_left hblanks _
    · exact Nat.add_le_add_left (ih _) _

section Code

variable {cs front rest : List Char} {c : Char} {special : Option Nat} (more : Bool)
    (out : List Char)

/-- An operator character at an index puts out what it puts out as a character. -/
theorem place?_operator (hcs : cs = front ++ c :: rest) (hspecial : ∀ n ∈ special, n ≤ cs.length)
    (hs : shift special front.length ≠ some 0) (hcomma : c ≠ ',') (hop : isOperatorChar c = true)
    (hroom : cs.length + 4 < wordSize) :
    place? cs (bytePlace cs special) more front.length out =
      some (front.length + 1 + (place more (shift special front.length) front.reverse c rest out).2,
        (place more (shift special front.length) front.reverse c rest out).1) := by
  have hc : cs[front.length]? = some c := by rw [hcs, getElem?_front, List.head?_cons]
  have hmark : ¬ bytePlace cs special = some (byteLength (cs.take front.length)) := by
    rw [bytePlace_eq_some hspecial (by rw [hcs]; simp), ← shift_eq_zero]
    exact hs
  have hlen : cs.length = front.length + (rest.length + 1) := by
    rw [hcs, List.length_append, List.length_cons]
  have hstop := runEnd?_eq hspecial cs.length front [] (c :: rest) hcs
    (by rw [List.length_cons]; omega) (fun _ => hs)
    hroom
  rw [List.length_nil, Nat.add_zero] at hstop
  -- the run is the character and what is behind it
  obtain ⟨tail, hrest, hplace⟩ :=
    ScratchFormat.Gaps.place_operator more front.reverse rest out hs hcomma hop
  have htail : c :: rest = (c :: runAfter (shift special front.length) rest) ++ tail :=
    congrArg (c :: ·) hrest
  have hlength : (runAfter (shift special front.length) rest).length =
      (c :: runAfter (shift special front.length) rest).length - 1 := rfl
  have hpos : 0 < (c :: runAfter (shift special front.length) rest).length := Nat.succ_pos _
  rw [run_eq_runAfter hs hop] at hstop
  rw [hlength] at hplace
  generalize c :: runAfter (shift special front.length) rest = whole at *
  have hall : cs = front ++ (whole ++ tail) := by rw [hcs, htail]
  have hpieces : piecesFrom? cs (front.length + whole.length) cs.length front.length =
      some ((splitRun? front.reverse tail 0 whole).map (placed front.length)) := by
    have hwhole : whole.length ≤ rest.length + 1 := by
      have h := congrArg List.length htail
      rw [List.length_append, List.length_cons] at h
      omega
    have h := piecesFrom?_eq cs.length front whole tail (by omega) (by rw [← hall]; exact hroom)
    rwa [← hall] at h
  have hbetween : between? cs front.length (front.length + whole.length) = some whole := by
    rw [hall]
    exact between?_append front whole tail
  rw [place?, hc]
  simp only [Option.bind_eq_bind, Option.bind_some, if_neg hmark, if_neg hcomma, hop, if_true,
    hstop, hpieces]
  rw [hplace]
  cases hsplit : splitRun? front.reverse tail 0 whole with
  | none =>
    simp only [Option.map_none, hbetween, Option.bind_some]
    rw [show front.length + 1 + (whole.length - 1) = front.length + whole.length by omega]
    rfl
  | some ops =>
    have hne := ScratchFormat.Gaps.splitRun?_ne_nil (List.length_pos_iff.mp hpos) hsplit
    have hflat := (ScratchFormat.Gaps.splitRun?_flatMap_text hsplit).2.1
    rw [List.drop_zero] at hflat
    have hcount := List.length_pos_iff.mpr hne
    have hused := ScratchFormat.Gaps.length_le_operators more ops (c :: rest) out
    rw [hflat] at hused
    have hput := pieces?_eq more (ops.length - 1) 0 front ops tail out (fun _ => by omega)
      (by rw [hflat, ← hall]; exact hroom)
    simp only [hflat, ← htail, ← hcs] at hput
    simp only [Option.map_some, length_placed, sub?_eq hcount, Option.bind_some, hput]
    rw [show front.length + 1 + ((operators more (c :: rest) out ops).2 - 1) =
      front.length + (operators more (c :: rest) out ops).2 by omega]

/-- What stands at a place is set, and the loop goes on behind it. -/
theorem place?_eq (hcs : cs = front ++ c :: rest) (hspecial : ∀ n ∈ special, n ≤ cs.length)
    (hroom : cs.length + 4 < wordSize) :
    place? cs (bytePlace cs special) more front.length out =
      some (front.length + 1 + (place more (shift special front.length) front.reverse c rest out).2,
        (place more (shift special front.length) front.reverse c rest out).1) := by
  have hc : cs[front.length]? = some c := by rw [hcs, getElem?_front, List.head?_cons]
  have hmark : bytePlace cs special = some (byteLength (cs.take front.length)) ↔
      shift special front.length = some 0 := by
    rw [bytePlace_eq_some hspecial (by rw [hcs]; simp), ← shift_eq_zero]
  have hsplit : cs = front ++ [c] ++ rest := by rw [hcs, List.append_assoc, List.singleton_append]
  by_cases hs : shift special front.length = some 0
  · rw [place?, hc]
    simp only [Option.bind_eq_bind, Option.bind_some, if_pos (hmark.mpr hs), place, if_pos hs]
    have hput :=
      binary?_eq more front [c] rest out (by rw [← List.append_assoc, ← hsplit]; exact hroom)
    rwa [List.singleton_append, ← hcs] at hput
  by_cases hcomma : c = ','
  · have hlen : cs.length = front.length + (rest.length + 1) := by
      rw [hcs, List.length_append, List.length_cons]
    have hskip : skipBlanks? cs cs.length (front.length + 1) =
        some (front.length + 1 + (rest.takeWhile isIndent).length) := by
      have h :=
        skipBlanks?_eq cs.length (front ++ [c]) rest (by omega) (by rw [← hsplit]; exact hroom)
      rwa [← hsplit, List.length_append, List.length_singleton] at h
    have hdrop : cs.drop (front.length + 1 + (rest.takeWhile isIndent).length) =
        rest.dropWhile isIndent := by
      have h : (front ++ [c]).length = front.length + 1 := by simp
      rw [← h, hsplit, List.drop_length_add_append, ScratchFormat.Gaps.drop_takeWhile_length]
    rw [place?, hc]
    simp only [Option.bind_eq_bind, Option.bind_some, if_neg (mt hmark.mp hs), place, if_neg hs,
      if_pos hcomma, cutBlanks?_eq,
      add?_eq (show front.length + 1 < wordSize by omega), hskip, hdrop]
    rfl
  by_cases hop : isOperatorChar c = true
  · exact place?_operator more out hcs hspecial hs hcomma hop hroom
  · have hlen : front.length + 1 < wordSize := by
      have h := congrArg List.length hcs
      rw [List.length_append, List.length_cons] at h
      omega
    rw [place?, hc]
    simp only [Option.bind_eq_bind, Option.bind_some, if_neg (mt hmark.mp hs), place, if_neg hs,
      if_neg hcomma, if_neg hop, add?_eq hlen]
    rfl

end Code

/-- One place uses up no more characters than there are. -/
theorem place_le (more : Bool) (special : Option Nat) (front : List Char) (c : Char)
    (rest out : List Char) : (place more special front c rest out).2 ≤ rest.length := by
  have hblanks : (rest.takeWhile isIndent).length ≤ rest.length :=
    (List.takeWhile_prefix _).length_le
  by_cases hs : special = some 0
  · simpa [place, hs] using hblanks
  by_cases hcomma : c = ','
  · simpa [place, hs, hcomma] using hblanks
  by_cases hop : isOperatorChar c = true
  · obtain ⟨tail, htail, hplace⟩ :=
      ScratchFormat.Gaps.place_operator more front rest out hs hcomma hop
    rw [hplace]
    split
    · exact (ScratchFormat.Gaps.runAfter_front special rest).length_le
    · rename_i ops hops
      have hflat := (ScratchFormat.Gaps.splitRun?_flatMap_text hops).2.1
      have hall : ops.flatMap Operator.text ++ tail = c :: rest := by
        rw [hflat, List.drop_zero, List.cons_append, ← htail]
      have hle := operators_le more ops tail out
      rw [hall, List.length_cons] at hle
      simp only
      omega
  · simp [place, hs, hcomma, hop]

/-- A stretch of code is set index by index as it is character by character. -/
theorem codeFrom?_eq {cs : List Char} {special : Option Nat} (more : Bool)
    (hspecial : ∀ n ∈ special, n ≤ cs.length) (hroom : cs.length + 4 < wordSize) (fuel : Nat)
    (front rest out : List Char) (hcs : cs = front ++ rest) (hfuel : rest.length ≤ fuel) :
    codeFrom? cs (bytePlace cs special) more fuel front.length out =
      some (code more (shift special front.length) 0 front.reverse out rest) := by
  induction fuel generalizing front rest out with
  | zero =>
    have hrest := List.eq_nil_of_length_eq_zero (Nat.le_zero.mp hfuel)
    subst hrest
    rw [codeFrom?, if_neg (by rw [hcs]; simp)]
    rfl
  | succ fuel ih =>
    cases rest with
    | nil =>
      rw [codeFrom?, if_neg (by rw [hcs]; simp)]
      rfl
    | cons c rest =>
      have hused := place_le more (shift special front.length) front.reverse c rest out
      rw [codeFrom?, if_pos (by rw [hcs]; simp), place?_eq more out hcs hspecial hroom,
        ScratchFormat.Gaps.code_cons]
      simp only [Option.bind_eq_bind, Option.bind_some]
      generalize place more (shift special front.length) front.reverse c rest out = r at hused ⊢
      have hfront : (front ++ c :: rest.take r.2).length = front.length + 1 + r.2 := by
        rw [List.length_append, List.length_cons, List.length_take, Nat.min_eq_left hused]
        omega
      have hlater := ih (front ++ c :: rest.take r.2) (rest.drop r.2) r.1
        (by rw [hcs, List.append_assoc, List.cons_append, List.take_append_drop])
        (by rw [List.length_cons] at hfuel; rw [List.length_drop]; omega)
      rw [hfront, List.reverse_append, List.reverse_cons, List.append_assoc, List.singleton_append]
        at hlater
      rw [hlater, shift_shift, show front.length + (r.2 + 1) = front.length + 1 + r.2 by omega]

theorem code?_eq (more : Bool) (special : Option Nat) (out cs : List Char)
    (hspecial : ∀ n ∈ special, n ≤ cs.length) (hroom : cs.length + 4 < wordSize) :
    code? more (bytePlace cs special) out cs = some (code more special 0 [] out cs) := by
  have h := codeFrom?_eq more hspecial hroom cs.length [] cs out rfl (Nat.le_refl _)
  rwa [List.length_nil, ScratchFormat.Gaps.shift_zero] at h

/-- The segments of a line are set as they are without a bound on their number. -/
theorem segments?_eq {count number : Nat} (out : List Char) {ss : List Segment}
    (hcount : number + ss.length = count) (hroom : count + 4 < wordSize)
    (htexts : (ss.flatMap Segment.text).length + 4 < wordSize) :
    segments? count number out ss = some (segments out ss) := by
  induction ss generalizing number out with
  | nil => rfl
  | cons s ss ih =>
    rw [List.length_cons] at hcount
    rw [List.flatMap_cons, List.length_append] at htexts
    have hlater : ∀ out, segments? count (number + 1) out ss = some (segments out ss) :=
      fun out => ih out (by omega) (by omega)
    have hmore : decide (number + 1 < count) = !ss.isEmpty := by
      cases ss with
      | nil =>
        rw [List.length_nil] at hcount
        simpa using (show count ≤ number + 1 by omega)
      | cons t ss =>
        rw [List.length_cons] at hcount
        simpa using (show number + 1 < count by omega)
    have hcode : code? (!ss.isEmpty) none out s.text =
        some (code (!ss.isEmpty) none 0 [] out s.text) :=
      code?_eq (!ss.isEmpty) none out s.text nofun (by omega)
    rw [segments?, segments]
    split
    · rw [add?_eq (by omega)]
      simp only [Option.bind_eq_bind, Option.bind_some, hmore, hcode, hlater]
    · exact hlater _

/-- A colon or an equals sign that is set off is found at its byte offset. -/
theorem special?_eq (role : Role) {head : List Char} (hroom : byteLength head < wordSize) :
    special? role head = some (bytePlace head (ScratchFormat.Gaps.special? role head)) := by
  have hequals : equals? head = some (bytePlace head ((definitionHead? head).map List.length)) := by
    rw [equals?_eq hroom]
    cases h : definitionHead? head with
    | none => rfl
    | some front =>
      obtain ⟨rest, rfl⟩ := eq_append_of_definitionHead? h
      simp [bytePlace]
  cases role with
  | signature name =>
    simp only [special?, ScratchFormat.Gaps.special?]
    cases h : signature? head with
    | none => rfl
    | some found =>
      obtain ⟨rest, hrest⟩ := eq_append_of_signature? h
      have htake : head.take (found.1.length + found.2.length) = found.1 ++ found.2 := by
        rw [hrest, ← List.append_assoc, ← List.length_append, List.take_left]
      simp only [bytePlace, Option.map_some, htake]
  | definition name => exact hequals
  | typeDeclaration => exact hequals
  | watch => rfl
  | test => rfl
  | useClause => rfl
  | other => rfl

/-- The mark of a line stands inside its code. -/
theorem special?_le (role : Role) (head : List Char) :
    ∀ n ∈ ScratchFormat.Gaps.special? role head, n ≤ head.length := by
  have hequals : ∀ n ∈ (definitionHead? head).map List.length, n ≤ head.length := by
    intro n hn
    obtain ⟨front, hfront, rfl⟩ := Option.map_eq_some_iff.mp hn
    obtain ⟨rest, rfl⟩ := eq_append_of_definitionHead? hfront
    simp
  cases role with
  | signature name =>
    intro n hn
    obtain ⟨⟨name, gap⟩, h, rfl⟩ := Option.map_eq_some_iff.mp hn
    obtain ⟨rest, rfl⟩ := eq_append_of_signature? h
    simp
  | definition name => exact hequals
  | typeDeclaration => exact hequals
  | watch => exact nofun
  | test => exact nofun
  | useClause => exact nofun
  | other => exact nofun

/-- A line of code is cut into its marker and its body alike. -/
theorem codeLine?_eq (role : Role) (head : List Char) (later : List Segment)
    (hroom : byteLength head + 4 < wordSize) :
    ∃ out body, marker? role head later = some (out, body) ∧ byteLength body ≤ byteLength head ∧
      ScratchFormat.Gaps.codeLine role head later =
        (segments (code (!later.isEmpty) (ScratchFormat.Gaps.special? role body) 0 [] out body)
          later).reverse := by
  unfold marker? ScratchFormat.Gaps.codeLine
  by_cases hrole : role = .watch ∨ role = .test
  · simp only [if_pos hrole]
    cases h : watchMarker? head with
    | none => exact ⟨[], head, rfl, Nat.le_refl _, by simp⟩
    | some marker =>
      obtain ⟨rest, rfl⟩ := eq_append_of_watchMarker? h
      have hne : marker ≠ [] := by
        rcases marker_of_watchMarker? h with rfl | rfl <;> simp [testMarker]
      have hbody : byteLength (rest.takeWhile isSpace) + byteLength (trimStart rest) =
          byteLength rest :=
        byteLength_takeWhile_add isSpace rest
      refine ⟨if (trimStart rest).isEmpty && later.isEmpty then marker.reverse else ' ' ::
        marker.reverse, trimStart rest, ?_, ?_, ?_⟩
      · simp only [Option.map_some, slice?_front, sliceFrom?_append]
        rfl
      · rw [byteLength_append]
        omega
      · simp [hne]
  · simp only [if_neg hrole]
    exact ⟨[], head, rfl, Nat.le_refl _, by simp⟩

theorem not_isIndent_of_token {s : Cursor} (hs : s.Idle) {t : Segment} {ts : List Segment}
    (hkind : t.kind ≠ .code) (h : Lexed s (t :: ts)) : ∀ c ∈ t.text.head?, isIndent c = false := by
  cases h with
  | code => exact absurd rfl hkind
  | token hkind hmark =>
    intro c hc
    cases hc
    rcases (Cursor.opener_of_mark hs (by rw [hmark]; exact hkind)).1
      with rfl | rfl | rfl | rfl | rfl <;> rfl

/-- The indentation of a line that begins with code is that of its first segment. -/
theorem indent_eq {raw : List Char} {first : Segment} {later : List Segment}
    (hss : (scanLine .code raw).segments = first :: later) :
    raw.takeWhile isIndent = if first.kind = .code then first.text.takeWhile isIndent else [] := by
  have hraw : raw = first.text ++ later.flatMap Segment.text := by
    rw [← segments_flatMap_text .code raw, hss, List.flatMap_cons]
  have hlexed : Lexed (.start .code) (first :: later) := by
    rw [← hss]
    exact lexed_ofMarks (Cursor.sound_start .code raw)
  rw [hraw]
  split
  · rename_i hkind
    obtain ⟨kind, text⟩ := first
    cases hkind
    obtain ⟨hidle, hnext, hlater⟩ := hlexed.of_code
    have hidle' : (Cursor.run (.start .code) (later.flatMap Segment.text) text).Idle := by
      rw [← List.append_nil text] at hidle
      exact Cursor.idleAlong_append hidle
    apply takeWhile_append_of_head
    cases later with
    | nil => exact nofun
    | cons t ts =>
      have htoken := not_isIndent_of_token hidle' (hnext t rfl) hlater
      have hne : t.text ≠ [] := text_ne_nil_of_mem_ofMarks (s := t) (by
        change t ∈ (scanLine .code raw).segments
        rw [hss]
        simp)
      obtain ⟨c, cs, hc⟩ := List.exists_cons_of_ne_nil hne
      rw [List.flatMap_cons, hc]
      rw [hc] at htoken
      exact htoken
  · rename_i hkind
    have htoken := not_isIndent_of_token ⟨rfl, rfl⟩ hkind hlexed
    have hne : first.text ≠ [] := text_ne_nil_of_mem_ofMarks (s := first) (by
      change first ∈ (scanLine .code raw).segments
      rw [hss]
      simp)
    obtain ⟨c, cs, hc⟩ := List.exists_cons_of_ne_nil hne
    rw [hc] at htoken ⊢
    simp [htoken c rfl]

theorem marker?_nil (role : Role) (later : List Segment) :
    marker? role [] later = some ([], []) := by
  unfold marker?
  split <;> rename_i h
  · rfl
  · split at h
    · cases h
    · cases h

/-- A line is set in bytes as it is in characters, if it leaves room for its length twice. -/
theorem line?_eq (mode : Mode) (raw : List Char) (hroom : 2 * byteLength raw + 4 < wordSize) :
    line? (scanLine mode raw) = some (ScratchFormat.Gaps.line (scanLine mode raw)) := by
  have hlen := length_le_byteLength raw
  have hflat := segments_flatMap_text mode raw
  have hcount : (scanLine mode raw).segments.length ≤ raw.length := by
    have h := length_le_flatMap_text (scanLine mode raw).segments fun s hs =>
      text_ne_nil_of_mem_ofMarks hs
    rwa [hflat] at h
  have hall :
      ∀ out, segments? (scanLine mode raw).segments.length 0 out (scanLine mode raw).segments =
      some (segments out (scanLine mode raw).segments) := by
    intro out
    exact segments?_eq out (Nat.zero_add _) (by omega) (by rw [hflat]; omega)
  unfold line? ScratchFormat.Gaps.line
  split
  · rfl
  split
  · rw [hall, Option.map_some]
  · rename_i hstarts
    obtain rfl : mode = .code := by
      rw [Bool.not_eq_true', Bool.not_eq_false] at hstarts
      exact of_decide_eq_true hstarts
    have hblanks := byteLength_takeWhile_add isIndent raw
    have hsize : byteLength raw - byteLength (raw.dropWhile isIndent) =
        byteLength (raw.takeWhile isIndent) := by
      omega
    have hrole := roleOf?_eq (Nat.lt_of_le_of_lt (byteLength_codeText_le .code raw) (by omega))
    have hraw : (scanLine .code raw).raw = raw := rfl
    rw [hraw, sub?_eq (by omega), hsize]
    simp only [Option.bind_eq_bind, Option.bind_some, slice?_takeWhile, hrole]
    split
    · rfl
    cases hss : (scanLine .code raw).segments with
    | nil => rfl
    | cons first later =>
      have hfirst := indent_eq hss
      rw [hss] at hall hcount
      rw [hss, List.flatMap_cons] at hflat
      have hbytes : byteLength raw = byteLength first.text +
          byteLength (later.flatMap Segment.text) := by
        rw [← hflat, byteLength_append]
      simp only [List.length_cons] at hcount hall ⊢
      split
      · rename_i hkind
        rw [if_pos hkind] at hfirst
        have hdrop := byteLength_takeWhile_add isIndent first.text
        have hmin : min (byteLength (first.text.takeWhile isIndent)) (byteLength first.text) =
            byteLength (first.text.takeWhile isIndent) := Nat.min_eq_left (by omega)
        obtain ⟨out, body, hmarker, hbody, hline⟩ :=
          codeLine?_eq (Role.ofCode (scanLine .code raw).codeText) (first.text.dropWhile isIndent)
            later (by omega)
        have hbodylen := length_le_byteLength body
        have hlaterlen := length_le_byteLength (later.flatMap Segment.text)
        have hcode := code?_eq (!later.isEmpty)
          (ScratchFormat.Gaps.special? (Role.ofCode (scanLine .code raw).codeText) body) out body
          (special?_le _ body) (by omega)
        have hlater : ∀ out, segments? (later.length + 1) 1 out later =
            some (segments out later) := by
          intro out
          exact segments?_eq out (Nat.add_comm 1 _) (by omega) (by omega)
        rw [hfirst, hmin, sliceFrom?_takeWhile, Option.bind_some, hmarker, Option.bind_some, hline]
        simp only [special?_eq (Role.ofCode (scanLine .code raw).codeText)
          (show byteLength body < wordSize by omega), Option.bind_some, hcode, hlater]
        rfl
      · rename_i hkind
        rw [if_neg hkind] at hfirst
        rw [hfirst, marker?_nil, Option.bind_some]
        simp only [special?_eq (Role.ofCode (scanLine .code raw).codeText)
          (show byteLength [] < wordSize by decide), Option.bind_some, hall, List.nil_append]
        rfl

end Gaps

end Bytewise

end ScratchFormat
