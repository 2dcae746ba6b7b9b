import ScratchFormat.Edit
import ScratchFormat.Proofs.Slices

/-! The lines that an edit script counts: what a valid script is, how the lines make up their text,
and at which byte each of them starts.

Two parts of the program cut a text into lines, and not in the same way: a comparison ends a line at
a carriage return as well, the table of offsets at a line feed only. They agree where a line feed
follows every carriage return. -/

namespace ScratchFormat

namespace Diff

section Script

variable {α : Type} (old new : List α)

/-- The steps lead on from the positions `i` and `j` to the ends of both lists: each starts where
the one before it stops, and the parts that a step calls equal are equal. -/
def IsScriptFrom : Nat → Nat → List DiffOp → Prop
  | i, j, [] => i = old.length ∧ j = new.length
  | i, j, op :: ops =>
    op.oldStart = i ∧ op.newStart = j ∧ (op.isEqual = true → op.oldPart old = op.newPart new) ∧
      IsScriptFrom op.oldStop op.newStop ops

/-- The steps are an edit script between two lists. -/
def IsScript (ops : List DiffOp) : Prop := IsScriptFrom old new 0 0 ops

instance decidableIsScriptFrom [DecidableEq α] : (i j : Nat) → (ops : List DiffOp) →
    Decidable (IsScriptFrom old new i j ops)
  | i, j, [] => inferInstanceAs (Decidable (i = old.length ∧ j = new.length))
  | i, j, op :: ops =>
    have := decidableIsScriptFrom op.oldStop op.newStop ops
    inferInstanceAs <| Decidable <|
      op.oldStart = i ∧ op.newStart = j ∧ (op.isEqual = true → op.oldPart old = op.newPart new) ∧
        IsScriptFrom old new op.oldStop op.newStop ops

instance [DecidableEq α] (ops : List DiffOp) : Decidable (IsScript old new ops) :=
  inferInstanceAs (Decidable (IsScriptFrom old new 0 0 ops))

example : IsScript [0, 1, 2] [0, 3, 2] (script [0, 1, 2] [0, 3, 2]) := by decide

-- `script` does not always give one: an insertion and a deletion that change places keep the
-- positions they had.
example : ¬ IsScript [0, 1] [1, 1, 1, 1, 0] (script [0, 1] [1, 1, 1, 1, 0]) := by decide

variable {old new}

/-- The steps of a script stay within both lists. -/
theorem IsScriptFrom.bounds {i j : Nat} {ops : List DiffOp} (h : IsScriptFrom old new i j ops) :
    i ≤ old.length ∧ j ≤ new.length ∧ ∀ op ∈ ops, op.oldStop ≤ old.length ∧
      op.newStop ≤ new.length := by
  induction ops generalizing i j with
  | nil => exact ⟨Nat.le_of_eq h.1, Nat.le_of_eq h.2, nofun⟩
  | cons op ops ih =>
    obtain ⟨rfl, rfl, _, hrest⟩ := h
    obtain ⟨hold, hnew, hlater⟩ := ih hrest
    refine ⟨Nat.le_of_add_right_le hold, Nat.le_of_add_right_le hnew, ?_⟩
    intro x hx
    rcases List.mem_cons.mp hx with rfl | hx
    · exact ⟨hold, hnew⟩
    · exact hlater x hx

end Script

end Diff

theorem DiffOp.oldPart_append_drop {α : Type} (op : DiffOp) (old : List α) :
    op.oldPart old ++ old.drop op.oldStop = old.drop op.oldStart := by
  rw [DiffOp.oldPart, DiffOp.oldStop, ← List.drop_drop, List.take_append_drop]

theorem DiffOp.newPart_append_drop {α : Type} (op : DiffOp) (new : List α) :
    op.newPart new ++ new.drop op.newStop = new.drop op.newStart := by
  rw [DiffOp.newPart, DiffOp.newStop, ← List.drop_drop, List.take_append_drop]

/-- A line feed follows every carriage return. -/
def ReturnsFollowed : List Char → Prop
  | [] => True
  | c :: cs => (c = '\r' → cs.head? = some '\n') ∧ ReturnsFollowed cs

instance decidableReturnsFollowed : (text : List Char) → Decidable (ReturnsFollowed text)
  | [] => inferInstanceAs (Decidable True)
  | c :: cs =>
    have := decidableReturnsFollowed cs
    inferInstanceAs (Decidable ((c = '\r' → cs.head? = some '\n') ∧ ReturnsFollowed cs))

/-- What ends a line for the comparison and for the table of offsets alike. -/
def IsEnding (l : List Char) : Prop := l = ['\n'] ∨ l = ['\r', '\n']

theorem IsEnding.getLast? {l : List Char} (h : IsEnding l) : l.getLast? = some '\n' := by
  rcases h with rfl | rfl <;> rfl

theorem IsEnding.endedLines_append {l : List Char} (h : IsEnding l) (cs : List Char) :
    endedLines (l ++ cs) = l :: endedLines cs := by
  rcases h with rfl | rfl
  · simp [endedLines]
  · rfl

theorem endedLines_cons {c : Char} (hfeed : c ≠ '\n') (hreturn : c ≠ '\r') (cs : List Char) :
    endedLines cs = [] ∧ endedLines (c :: cs) = [[c]] ∨
      ∃ l ls, endedLines cs = l :: ls ∧ endedLines (c :: cs) = (c :: l) :: ls := by
  rw [endedLines, if_neg (by simp [hfeed, hreturn])]
  · cases endedLines cs with
    | nil => exact Or.inl ⟨rfl, rfl⟩
    | cons l ls => exact Or.inr ⟨l, ls, rfl, rfl⟩
  · exact fun _ h => absurd h hreturn

/-- Induction over a text whose carriage returns are all followed, one ending or one character of a
line at a time. -/
@[elab_as_elim]
theorem ReturnsFollowed.rec_endings {motive : (text : List Char) → ReturnsFollowed text → Prop}
    {text : List Char} (h : ReturnsFollowed text) (nil : motive [] trivial)
    (ending : ∀ l cs h h', IsEnding l → motive cs h' → motive (l ++ cs) h)
    (other : ∀ c cs h, c ≠ '\n' → c ≠ '\r' → motive cs h.2 → motive (c :: cs) h) :
    motive text h := by
  induction text using endedLines.induct with
  | case1 => exact nil
  | case2 cs ih => exact ending ['\r', '\n'] cs h h.2.2 (Or.inr rfl) (ih h.2.2)
  | case3 c cs hnot hend ih =>
    rcases hend with rfl | rfl
    · exact ending ['\n'] cs h h.2 (Or.inl rfl) (ih h.2)
    · -- A lone carriage return, which the condition excludes.
      obtain ⟨rest, rfl⟩ := List.head?_eq_some_iff.mp (h.1 rfl)
      exact (hnot rest rfl rfl).elim
  | case4 c cs _ hend _ ih | case5 c cs _ hend _ _ _ ih =>
    rw [not_or] at hend
    exact other c cs h hend.1 hend.2 (ih h.2)

/-- The lines of a text make it up again. -/
theorem flatten_endedLines (text : List Char) : (endedLines text).flatten = text := by
  induction text using endedLines.induct with
  | case1 => rfl
  | case2 cs ih => rw [endedLines, List.flatten_cons, ih]; rfl
  | case3 c cs hnot hend ih =>
    rw [endedLines, if_pos hend, List.flatten_cons, ih]
    · rfl
    · exact hnot
  | case4 c cs hnot hend hnil ih =>
    rw [hnil] at ih
    rw [endedLines, if_neg hend, hnil, ← ih]
    · rfl
    · exact hnot
  | case5 c cs hnot hend l ls hcons ih =>
    rw [hcons, List.flatten_cons] at ih
    rw [endedLines, if_neg hend, hcons, List.flatten_cons, List.cons_append, ih]
    exact hnot

/-- The text of the first lines of `c :: cs` is the text of those of `cs` with `c` before it. -/
theorem flatten_take_endedLines_cons {c : Char} (hfeed : c ≠ '\n') (hreturn : c ≠ '\r')
    (cs : List Char) (k : Nat) : ((endedLines (c :: cs)).take (k + 1)).flatten = c ::
      ((endedLines cs).take (k + 1)).flatten := by
  rcases endedLines_cons hfeed hreturn cs with ⟨hnil, hline⟩ | ⟨l, ls, hcons, hlines⟩
  · rw [hline, hnil, List.take_succ_cons, List.take_nil, List.take_nil]
    rfl
  · rw [hlines, hcons]
    rfl

namespace Edit

theorem lineStarts_cons {c : Char} (hfeed : c ≠ '\n') (offset : Nat) (cs : List Char) :
    lineStarts offset (c :: cs) = lineStarts (offset + c.utf8Size) cs := by
  rw [lineStarts, if_neg hfeed]

theorem lineStarts_ending {l : List Char} (h : IsEnding l) (offset : Nat) (cs : List Char) :
    lineStarts offset (l ++ cs) =
      (offset + byteLength l) :: lineStarts (offset + byteLength l) cs := by
  rcases h with rfl | rfl
  · rfl
  · rfl

/-- The table of offsets agrees with the lines of the comparison. -/
theorem getD_lineStarts {text : List Char} (h : ReturnsFollowed text) (offset k : Nat) :
    (offset :: lineStarts offset text)[k]?.getD (offset + byteLength text) =
      offset + byteLength ((endedLines text).take k).flatten := by
  induction h using ReturnsFollowed.rec_endings generalizing offset k with
  | nil => cases k <;> rfl
  | ending l cs _ _ hl ih =>
    cases k with
    | zero => rfl
    | succ k =>
      have hlines : ((endedLines (l ++ cs)).take (k + 1)).flatten = l ++
          ((endedLines cs).take k).flatten := by
        rw [hl.endedLines_append, List.take_succ_cons, List.flatten_cons]
      calc (offset :: lineStarts offset (l ++ cs))[k + 1]?.getD (offset + byteLength (l ++ cs))
          = ((offset + byteLength l) :: lineStarts (offset + byteLength l) cs)[k]?.getD
              (offset + byteLength l + byteLength cs) := by
            rw [lineStarts_ending hl, List.getElem?_cons_succ, byteLength_append, ← Nat.add_assoc]
        _ = offset + byteLength l + byteLength ((endedLines cs).take k).flatten :=
            ih (offset + byteLength l) k
        _ = offset + byteLength ((endedLines (l ++ cs)).take (k + 1)).flatten := by
            rw [hlines, byteLength_append, ← Nat.add_assoc]
  | other c cs _ hfeed hreturn ih =>
    cases k with
    | zero => rfl
    | succ k =>
      -- A later line of `c :: cs` is a later line of `cs`, which starts behind `c`.
      have hlater := ih (offset + c.utf8Size) (k + 1)
      rw [List.getElem?_cons_succ] at hlater
      rw [lineStarts_cons hfeed, List.getElem?_cons_succ,
        flatten_take_endedLines_cons hfeed hreturn, byteLength_cons, byteLength_cons,
        ← Nat.add_assoc, ← Nat.add_assoc, hlater]

/-- A line starts behind the text of the lines before it. -/
theorem lineOffset_eq {text : List Char} (h : ReturnsFollowed text) (k : Nat) :
    lineOffset text k = byteLength ((endedLines text).take k).flatten := by
  have hstarts := getD_lineStarts h 0 k
  rw [Nat.zero_add, Nat.zero_add] at hstarts
  exact hstarts

end Edit

/-- A line of the text starts at the byte `n`, or the text ends there. -/
def AtLine (text : List Char) (n : Nat) : Prop :=
  ∃ front back, front ++ back = text ∧ byteLength front = n ∧
    (front = [] ∨ back = [] ∨ front.getLast? = some '\n')

/-- The first lines of a text, if there are more, end with a line feed. -/
theorem getLast?_take_endedLines {text : List Char} (h : ReturnsFollowed text) (k : Nat) :
    k = 0 ∨ (endedLines text).drop k = [] ∨
      ((endedLines text).take k).flatten.getLast? = some '\n' := by
  induction h using ReturnsFollowed.rec_endings generalizing k with
  | nil => exact Or.inr (Or.inl List.drop_nil)
  | ending l cs _ _ hl ih =>
    cases k with
    | zero => exact Or.inl rfl
    | succ k =>
      right
      rw [hl.endedLines_append, List.drop_succ_cons, List.take_succ_cons, List.flatten_cons,
        List.getLast?_append, hl.getLast?]
      rcases ih k with rfl | hdrop | hlast
      · exact Or.inr rfl
      · exact Or.inl hdrop
      · exact Or.inr (by rw [hlast]; rfl)
  | other c cs _ hfeed hreturn ih =>
    cases k with
    | zero => exact Or.inl rfl
    | succ k =>
      right
      rw [flatten_take_endedLines_cons hfeed hreturn]
      rcases ih (k + 1) with hzero | hdrop | hlast
      · exact absurd hzero (Nat.succ_ne_zero k)
      · left
        rcases endedLines_cons hfeed hreturn cs with ⟨_, hline⟩ | ⟨l, ls, hcons, hlines⟩
        · rw [hline, List.drop_succ_cons, List.drop_nil]
        · rw [hcons, List.drop_succ_cons] at hdrop
          rw [hlines, List.drop_succ_cons, hdrop]
      · exact Or.inr (by rw [List.getLast?_cons, hlast]; rfl)

theorem atLine_lineOffset {text : List Char} (h : ReturnsFollowed text) (k : Nat) :
    AtLine text (Edit.lineOffset text k) := by
  refine ⟨((endedLines text).take k).flatten, ((endedLines text).drop k).flatten, ?_, ?_, ?_⟩
  · rw [← List.flatten_append, List.take_append_drop, flatten_endedLines]
  · exact (Edit.lineOffset_eq h k).symm
  · rcases getLast?_take_endedLines h k with rfl | hdrop | hlast
    · exact Or.inl rfl
    · exact Or.inr (Or.inl (by rw [hdrop]; rfl))
    · exact Or.inr (Or.inr hlast)

end ScratchFormat
