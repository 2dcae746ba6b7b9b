import ScratchFormat.Proofs.Bytewise.Scan
import Mathlib.Data.List.Chain

/-! What the scanner makes of lines that are fed to it one after another. The segments of a line
make it up again, none of them is empty, and a stretch of code is never cut in two. A line is left
in one of the modes that a line can start in: in code, in a long string, or in a comment that is
still open. -/

namespace ScratchFormat

/-- A mode in which a line can start. -/
inductive Mode.Starts : Mode → Prop
  | code : Starts .code
  | longString : Starts .longString
  | blockComment {depth : Nat} (h : 1 ≤ depth) : Starts (.blockComment depth)
  | docBlock {depth : Nat} (h : 1 ≤ depth) : Starts (.docBlock depth)

def Mode.Deep : Mode → Prop
  | .blockComment depth => 1 ≤ depth
  | .docBlock depth => 1 ≤ depth
  | _ => True

theorem Mode.Starts.deep {m : Mode} (h : m.Starts) : m.Deep := by
  cases h with
  | code => trivial
  | longString => trivial
  | blockComment h => exact h
  | docBlock h => exact h

theorem Mode.Deep.starts_carried {m : Mode} (h : m.Deep) : m.carried.Starts := by
  cases m with
  | longString => exact .longString
  | blockComment depth => exact .blockComment h
  | docBlock depth => exact .docBlock h
  | code => exact .code
  | charQuote => exact .code
  | string => exact .code
  | lineComment => exact .code

def Step.Deeps : Step → Prop
  | .stay mode _ => mode.Deep
  | .enter mode _ => mode.Deep
  | .whole _ => True
  | .leave _ => True

/-- A step in code leads into no nest of depth zero. -/
theorem deep_stepCode (prev : Option Char) (c : Char) (rest : List Char) :
    (stepCode prev c rest).Deeps := by
  unfold stepCode
  split
  · split <;> trivial
  split
  · split <;> trivial
  split
  · split
    · trivial
    · split <;> trivial
  split
  · trivial
  split
  · exact Nat.le_refl 1
  split
  · exact Nat.le_refl 1
  · trivial

theorem deep_stepQuoted {mode : Mode} (hmode : mode.Deep) (quote c : Char) :
    (stepQuoted mode quote c).Deeps := by
  unfold stepQuoted
  split
  · exact hmode
  split
  · trivial
  · exact hmode

/-- A pair that closes the outermost comment leaves it, so the depth never comes down to zero. -/
theorem deep_stepNested {mode : Nat → Mode} (hmode : ∀ n, (mode n).Deep ↔ 1 ≤ n)
    (opening closing : Char × Char) {depth : Nat} (hdepth : 1 ≤ depth) (c : Char)
    (rest : List Char) : (stepNested mode opening closing depth c rest).Deeps := by
  unfold stepNested
  split
  · apply (hmode (depth + 1)).mpr
    omega
  split
  · split
    · trivial
    · apply (hmode (depth - 1)).mpr
      omega
  · exact (hmode depth).mpr hdepth

theorem deep_step {mode : Mode} (hmode : mode.Deep) (prev : Option Char) (c : Char)
    (rest : List Char) : (step mode prev c rest).Deeps := by
  cases mode with
  | code => exact deep_stepCode prev c rest
  | charQuote => exact deep_stepQuoted hmode '\'' c
  | string => exact deep_stepQuoted hmode '"' c
  | longString =>
    rw [step]
    split <;> trivial
  | lineComment => trivial
  | blockComment depth => exact deep_stepNested (fun _ => Iff.rfl) _ _ hmode c rest
  | docBlock depth => exact deep_stepNested (fun _ => Iff.rfl) _ _ hmode c rest

namespace Cursor

/-- The scanner never counts a depth of zero inside a nest. -/
theorem deep_advance {s : Cursor} (h : s.mode.Deep) (c : Char) (rest : List Char) :
    (s.advance c rest).2.mode.Deep := by
  unfold advance
  split
  · -- a character that is owed is not read
    split
    · trivial
    · exact h
  · have hstep := deep_step h s.prev c rest
    split <;> rename_i heq <;> rw [heq] at hstep
    · exact hstep
    · exact hstep
    · trivial
    · trivial
    · exact h

theorem deep_final {s : Cursor} (h : s.mode.Deep) (cs : List Char) : (s.final cs).Deep := by
  induction cs generalizing s with
  | nil => exact h
  | cons c cs ih => exact ih (deep_advance h c cs)

end Cursor

/-- No two stretches of code stand next to each other. -/
theorem isChain_of_lexed {s : Cursor} {ts : List Segment} (h : Lexed s ts) :
    ts.IsChain fun t u => ¬ (t.kind = .code ∧ u.kind = .code) := by
  induction h with
  | nil => exact .nil
  | code hidle hnext h ih =>
    apply ih.cons
    intro u hu hcode
    exact hnext u hu hcode.2
  | token hkind hmark hbusy hidle h ih =>
    apply ih.cons
    intro u hu hcode
    exact hkind hcode.1

/-- A line that the scanner has cut without losing anything. -/
structure ScannedLine.Lossless (l : ScannedLine) : Prop where
  whole : l.segments.flatMap Segment.text = l.raw
  nonempty : ∀ t ∈ l.segments, t.text ≠ []
  /-- No stretch of code follows another. -/
  apart : l.segments.IsChain fun t u => ¬ (t.kind = .code ∧ u.kind = .code)
  /-- Every cut is at a character of the line. -/
  cuts : ∀ front back, l.segments = front ++ back →
    AtChar l.raw (byteLength (front.flatMap Segment.text))
  /-- What the line leaves open is something that the next one can start in. -/
  carried : l.endsIn.carried.Starts

/-- A scanned line loses no character, and its segments alternate. -/
theorem lossless_scanLine {mode : Mode} (hmode : mode.Starts) (raw : List Char) :
    (scanLine mode raw).Lossless where
  whole := segments_flatMap_text mode raw
  nonempty := ne_nil_of_mem_ofMarks
  apart := isChain_of_lexed (lexed_ofMarks (Cursor.sound_start mode raw))
  cuts := by
    intro front back hsplit
    refine ⟨front.flatMap Segment.text, back.flatMap Segment.text, ?_, rfl⟩
    rw [← List.flatMap_append, ← hsplit]
    exact segments_flatMap_text mode raw
  carried := by
    apply Mode.Deep.starts_carried
    exact Cursor.deep_final hmode.deep raw

/-- Each line starts in a mode that a line can start in, because the one before it has left such a
mode. -/
theorem lossless_scanFrom {mode : Mode} (hmode : mode.Starts) (ls : List (List Char)) :
    ∀ l ∈ scanFrom mode ls, l.startsIn.Starts ∧ l.Lossless := by
  induction ls generalizing mode with
  | nil => exact nofun
  | cons raw ls ih =>
    have hfirst := lossless_scanLine hmode raw
    rw [scanFrom, List.forall_mem_cons]
    exact ⟨⟨hmode, hfirst⟩, ih hfirst.carried⟩

/-- Lines that are fed to the scanner one after another lose nothing. Their segments are put
together again to the lines; none is empty, and no stretch of code is cut in two. The cuts are at
characters also for a scanner that walks from byte to byte and may read on in the midst of a
character: all the slices that it takes succeed, and are these segments, as long as the lines fit in
memory and comments do not nest deeper than its counter goes. -/
theorem scanFrom_lossless (ls : List (List Char)) :
    (scanFrom .code ls).map ScannedLine.raw = ls ∧
      (∀ l ∈ scanFrom .code ls, l.startsIn.Starts ∧ l.Lossless) ∧
      ((∀ l ∈ ls, byteLength l + 4 < wordSize) → (ls.flatMap solid).length < 4294967296 →
        Bytewise.scanFrom? .code ls = some (scanFrom .code ls)) := by
  refine ⟨scanFrom_map_raw .code ls, lossless_scanFrom .code ls, ?_⟩
  intro hroom hdepth
  apply Bytewise.scanFrom?_eq hroom
  simpa [Bytewise.depthOf] using hdepth

/-- An escape goes into the midst of a character, and a string is left open. Below it a block is
opened twice and closed once; the last line closes it for good, and two literals follow. -/
theorem scanFrom_lossless_block :
    let ls :=
      ["x = \"a\\é".toList, "\x7b\x7b b \x7b\x7b é \x7d\x7d".toList, "c \x7d\x7d?é'\\é' y".toList]
    (∀ l ∈ ls, byteLength l + 4 < wordSize) ∧ (ls.flatMap solid).length < 4294967296 ∧
      Bytewise.scanFrom? .code ls = some (scanFrom .code ls) ∧
      scanLine (.docBlock 1) "c \x7d\x7d?é'\\é' y".toList ∈ scanFrom .code ls ∧
      (scanLine (.docBlock 1) "c \x7d\x7d?é'\\é' y".toList).Lossless := by
  intro ls
  obtain ⟨-, hlines, hbytes⟩ := scanFrom_lossless ls
  have hroom : ∀ l ∈ ls, byteLength l + 4 < wordSize := by decide
  have hdepth : (ls.flatMap solid).length < 4294967296 := by decide
  have hlast : scanLine (.docBlock 1) "c \x7d\x7d?é'\\é' y".toList ∈ scanFrom .code ls := by
    decide +kernel
  exact ⟨hroom, hdepth, hbytes hroom hdepth, hlast, (hlines _ hlast).2⟩

end ScratchFormat
