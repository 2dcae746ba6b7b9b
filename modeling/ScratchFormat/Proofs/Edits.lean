import ScratchFormat.Proofs.Script

/-! Edits that follow each other through a text and what they make of it. The edits of an edit
script make the new text of the old one, also when those that touch are joined. -/

namespace ScratchFormat

namespace Edit

/-- Edits that turn a text, which starts at the byte `start` of a larger one, into another text.
Each keeps what stands before it, and replaces a part of the text that starts and stops between
characters. -/
inductive Rewrites : Nat → List Char → List Edit → List Char → Prop
  | done (start : Nat) (text : List Char) : Rewrites start text [] text
  | change {start : Nat} (kept old : List Char) {rest later : List Char} {e : Edit} {es : List Edit}
      (hstart : e.start = start + byteLength kept) (hstop : e.stop = e.start + byteLength old)
      (hrest : Rewrites e.stop rest es later) :
      Rewrites start (kept ++ (old ++ rest)) (e :: es) (kept ++ (e.newText ++ later))

namespace Rewrites

variable {start : Nat} {text later : List Char} {e : Edit} {es : List Edit}

/-- Edits that start later keep all that stands before. -/
theorem keep {kept : List Char} (h : Rewrites (start + byteLength kept) text es later) :
    Rewrites start (kept ++ text) es (kept ++ later) := by
  cases h with
  | done => exact done start (kept ++ text)
  | @change _ kept' old rest later e es hstart hstop hrest =>
    have hstart' : e.start = start + byteLength (kept ++ kept') := by
      rw [byteLength_append, ← Nat.add_assoc]
      exact hstart
    have hchange := change (kept ++ kept') old hstart' hstop hrest
    rwa [List.append_assoc, List.append_assoc] at hchange

/-- The edits stand in the text, and none of them stops before it starts. -/
theorem bounds (h : Rewrites start text es later) :
    ∀ e ∈ es, start ≤ e.start ∧ e.start ≤ e.stop ∧ e.stop ≤ start + byteLength text := by
  induction h with
  | done => nofun
  | change kept old hstart hstop _ ih =>
    intro x hx
    simp only [byteLength_append]
    rcases List.mem_cons.mp hx with rfl | hx
    · omega
    · have hlater := ih x hx
      omega

/-- No edit starts before the one in front of it stops. -/
theorem ordered (h : Rewrites start text es later) : es.Pairwise fun a b => a.stop ≤ b.start := by
  induction h with
  | done => exact List.Pairwise.nil
  | change kept old _ _ hrest ih =>
    apply List.pairwise_cons.mpr
    exact ⟨fun b hb => (hrest.bounds b hb).1, ih⟩

/-- Applying the edits gives the new text. -/
theorem patchFrom? (h : Rewrites start text es later) {front : List Char}
    (hfront : byteLength front = start) :
    Edit.patchFrom? (front ++ text) start es = some later := by
  induction h generalizing front with
  | done start text =>
    rw [Edit.patchFrom?, ← hfront, dropBytes?_append]
  | @change start kept old rest later e es hstart hstop _ ih =>
    have hkept : slice? (front ++ (kept ++ (old ++ rest))) start e.start = some kept := by
      rw [hstart, ← hfront]
      exact slice?_append front kept (old ++ rest)
    have hlater : Edit.patchFrom? (front ++ (kept ++ (old ++ rest))) e.stop es = some later := by
      have hpassed : byteLength (front ++ kept ++ old) = e.stop := by
        rw [byteLength_append, byteLength_append, hfront, ← hstart, ← hstop]
      rw [← List.append_assoc, ← List.append_assoc]
      exact ih hpassed
    rw [Edit.patchFrom?, hkept, hlater, ← List.append_assoc]
    rfl

end Rewrites

/-- A joined edit starts where one of the edits does and stops where one does. -/
theorem mem_joinFrom {e x : Edit} {es : List Edit} (h : x ∈ joinFrom e es) :
    (∃ a ∈ e :: es, a.start = x.start) ∧ ∃ b ∈ e :: es, b.stop = x.stop := by
  induction es generalizing e with
  | nil =>
    rw [joinFrom, List.mem_singleton] at h
    subst h
    exact ⟨⟨x, List.mem_cons_self, rfl⟩, x, List.mem_cons_self, rfl⟩
  | cons e' es ih =>
    rw [joinFrom] at h
    split at h
    · obtain ⟨⟨a, ha, hstart⟩, b, hb, hstop⟩ := ih h
      constructor
      · rcases List.mem_cons.mp ha with rfl | ha
        · exact ⟨e, List.mem_cons_self, hstart⟩
        · exact ⟨a, by simp [ha], hstart⟩
      · rcases List.mem_cons.mp hb with rfl | hb
        · exact ⟨e', by simp, hstop⟩
        · exact ⟨b, by simp [hb], hstop⟩
    · rcases List.mem_cons.mp h with rfl | h
      · exact ⟨⟨x, List.mem_cons_self, rfl⟩, x, List.mem_cons_self, rfl⟩
      · obtain ⟨⟨a, ha, hstart⟩, b, hb, hstop⟩ := ih h
        exact ⟨⟨a, List.mem_cons_of_mem e ha, hstart⟩, b, List.mem_cons_of_mem e hb, hstop⟩

/-- Joining moves no start and no stop. -/
theorem mem_joinTouching {x : Edit} {es : List Edit} (h : x ∈ joinTouching es) :
    (∃ a ∈ es, a.start = x.start) ∧ ∃ b ∈ es, b.stop = x.stop := by
  cases es with
  | nil => cases h
  | cons e es => exact mem_joinFrom h

/-- Behind the joining no two edits touch. -/
theorem separated_joinFrom {e : Edit} {es : List Edit} (hspan : ∀ a ∈ e :: es, a.start ≤ a.stop)
    (hordered : (e :: es).Pairwise fun a b => a.stop ≤ b.start) :
    (joinFrom e es).Pairwise fun a b => a.stop < b.start := by
  induction es generalizing e with
  | nil => exact List.pairwise_singleton _ e
  | cons e' es ih =>
    obtain ⟨hfirst, htail⟩ := List.pairwise_cons.mp hordered
    obtain ⟨hsecond, hrest⟩ := List.pairwise_cons.mp htail
    have hspan' : ∀ a ∈ e' :: es, a.start ≤ a.stop :=
      fun a ha => hspan a (List.mem_cons_of_mem e ha)
    have he := hspan e List.mem_cons_self
    have he' := hspan' e' List.mem_cons_self
    rw [joinFrom]
    split
    · rename_i htouch
      apply ih
      · intro a ha
        rcases List.mem_cons.mp ha with rfl | ha
        · change e.start ≤ e'.stop
          omega
        · exact hspan' a (List.mem_cons_of_mem e' ha)
      · exact List.pairwise_cons.mpr ⟨hsecond, hrest⟩
    · rename_i hapart
      have hgap : e.stop < e'.start := Nat.lt_of_le_of_ne (hfirst e' List.mem_cons_self) hapart
      apply List.pairwise_cons.mpr
      refine ⟨?_, ih hspan' htail⟩
      intro x hx
      -- What is joined further on starts where one of the later edits does.
      obtain ⟨⟨a, ha, hstart⟩, _⟩ := mem_joinFrom hx
      rcases List.mem_cons.mp ha with rfl | ha
      · omega
      · have hlater := hsecond a ha
        omega

theorem separated_joinTouching {es : List Edit} (hspan : ∀ a ∈ es, a.start ≤ a.stop)
    (hordered : es.Pairwise fun a b => a.stop ≤ b.start) :
    (joinTouching es).Pairwise fun a b => a.stop < b.start := by
  cases es with
  | nil => exact List.Pairwise.nil
  | cons e es => exact separated_joinFrom hspan hordered

namespace Rewrites

variable {start : Nat} {text later : List Char} {e e' : Edit} {es : List Edit}

/-- Two edits that touch can be joined. -/
theorem join (h : Rewrites start text (e :: e' :: es) later) (htouch : e.stop = e'.start) :
    Rewrites start text (⟨e.start, e'.stop, e.newText ++ e'.newText⟩ :: es) later := by
  obtain _ | ⟨kept, old, hstart, hstop, hrest⟩ := h
  obtain _ | ⟨kept', old', hstart', hstop', hrest'⟩ := hrest
  -- Nothing is kept between the two.
  obtain rfl := eq_nil_of_byteLength_eq_zero (show byteLength kept' = 0 by omega)
  have hstops : e'.stop = e.start + byteLength (old ++ old') := by
    rw [byteLength_append]
    omega
  have hjoined := change (e := ⟨e.start, e'.stop, e.newText ++ e'.newText⟩) kept (old ++ old')
    hstart hstops hrest'
  simp only [List.append_assoc] at hjoined
  exact hjoined

/-- Joined edits make the same text. -/
theorem joinFrom (h : Rewrites start text (e :: es) later) :
    Rewrites start text (Edit.joinFrom e es) later := by
  induction es generalizing start text later e with
  | nil => exact h
  | cons e' es ih =>
    rw [Edit.joinFrom]
    split
    · rename_i htouch
      exact ih (h.join htouch)
    · obtain _ | ⟨kept, old, hstart, hstop, hrest⟩ := h
      exact change kept old hstart hstop (ih hrest)

theorem joinTouching (h : Rewrites start text es later) :
    Rewrites start text (Edit.joinTouching es) later := by
  cases es with
  | nil => exact h
  | cons e es => exact h.joinFrom

end Rewrites

section Script

variable {source formatted : List Char}

/-- The bytes up to the end of a step are those before it and those of its lines. -/
theorem byteLength_take_oldStop (op : DiffOp) (old : List (List Char)) :
    byteLength (old.take op.oldStop).flatten =
      byteLength (old.take op.oldStart).flatten + byteLength (op.oldPart old).flatten := by
  rw [DiffOp.oldStop, List.take_add, List.flatten_append, byteLength_append]
  rfl

theorem ofStep_start (hreturns : ReturnsFollowed source) (old new : List (List Char))
    (op : DiffOp) :
    (ofStep source old new op).start = byteLength ((endedLines source).take op.oldStart).flatten :=
  lineOffset_eq hreturns op.oldStart

theorem ofStep_stop (hreturns : ReturnsFollowed source) (new : List (List Char)) (op : DiffOp) :
    (ofStep source (endedLines source) new op).stop =
      byteLength ((endedLines source).take op.oldStop).flatten := by
  rw [byteLength_take_oldStop, ← lineOffset_eq hreturns]
  rfl

/-- The steps of a script, each an edit of its own, turn what is left of the old lines into what is
left of the new ones. -/
theorem rewrites_of_isScriptFrom (hreturns : ReturnsFollowed source) {i j : Nat} {ops : List DiffOp}
    (h : Diff.IsScriptFrom (endedLines source) (endedLines formatted) i j ops) :
    Rewrites (byteLength ((endedLines source).take i).flatten) ((endedLines source).drop i).flatten
      ((ops.filter (!·.isEqual)).map (ofStep source (endedLines source) (endedLines formatted)))
      ((endedLines formatted).drop j).flatten := by
  induction ops generalizing i j with
  | nil =>
    obtain ⟨rfl, rfl⟩ := h
    rw [List.drop_length, List.drop_length]
    exact Rewrites.done _ _
  | cons op ops ih =>
    obtain ⟨rfl, rfl, hequal, hrest⟩ := h
    have hlater := ih hrest
    rw [← op.oldPart_append_drop, ← op.newPart_append_drop, List.flatten_append,
      List.flatten_append]
    by_cases heq : op.isEqual = true
    · -- an equal step makes no edit: its lines are kept before the next one
      rw [List.filter_cons_of_neg (by simp [heq]), ← hequal heq]
      apply Rewrites.keep
      rw [← byteLength_take_oldStop]
      exact hlater
    · rw [List.filter_cons_of_pos (by simp [heq]), List.map_cons]
      have hstart := ofStep_start hreturns (endedLines source) (endedLines formatted) op
      have hstop := ofStep_stop hreturns (endedLines formatted) op
      rw [← hstop] at hlater
      exact Rewrites.change [] (op.oldPart (endedLines source)).flatten hstart rfl hlater

/-- The edits turn the one text into the other. -/
theorem rewrites_betweenBy {diff : List (List Char) → List (List Char) → List DiffOp}
    (hreturns : ReturnsFollowed source)
    (hdiff : Diff.IsScript (endedLines source) (endedLines formatted)
      (diff (endedLines source) (endedLines formatted))) :
    Rewrites 0 source (betweenBy diff source formatted) formatted := by
  rw [betweenBy]
  split
  · rename_i heq
    subst heq
    exact Rewrites.done 0 source
  · have hsteps := rewrites_of_isScriptFrom hreturns hdiff
    rw [List.drop_zero, List.drop_zero, flatten_endedLines, flatten_endedLines] at hsteps
    exact hsteps.joinTouching

/-- Every edit starts where a line starts, and stops where a line starts or the text ends. -/
theorem atLine_betweenBy (diff : List (List Char) → List (List Char) → List DiffOp)
    (hreturns : ReturnsFollowed source) (formatted : List Char) :
    ∀ e ∈ betweenBy diff source formatted, AtLine source e.start ∧ AtLine source e.stop := by
  intro e he
  rw [betweenBy] at he
  split at he
  · cases he
  · obtain ⟨⟨a, ha, hstart⟩, b, hb, hstop⟩ := mem_joinTouching he
    obtain ⟨op, _, rfl⟩ := List.mem_map.mp ha
    obtain ⟨op', _, rfl⟩ := List.mem_map.mp hb
    rw [← hstart, ← hstop, ofStep_start hreturns, ofStep_stop hreturns, ← lineOffset_eq hreturns,
      ← lineOffset_eq hreturns]
    exact ⟨atLine_lineOffset hreturns op.oldStart, atLine_lineOffset hreturns op'.oldStop⟩

/-- The edits between two texts, applied to the first, give the second. They stand in the first
text, at line boundaries, in ascending order and apart from each other, and the lines that the steps
of the script name are there. -/
theorem betweenBy_roundTrip (diff : List (List Char) → List (List Char) → List DiffOp)
    (source formatted : List Char) (hreturns : ReturnsFollowed source)
    (hdiff : Diff.IsScript (endedLines source) (endedLines formatted)
      (diff (endedLines source) (endedLines formatted))) :
    patch? source (betweenBy diff source formatted) = some formatted ∧
      (∀ e ∈ betweenBy diff source formatted, e.start ≤ e.stop ∧ e.stop ≤ byteLength source ∧
        AtLine source e.start ∧ AtLine source e.stop) ∧
      ((betweenBy diff source formatted).Pairwise fun a b => a.stop < b.start) ∧
      ∀ op ∈ diff (endedLines source) (endedLines formatted),
        op.oldStop ≤ (endedLines source).length ∧ op.newStop ≤ (endedLines formatted).length := by
  have hrewrites := rewrites_betweenBy hreturns hdiff
  refine ⟨?_, ?_, ?_, hdiff.bounds.2.2⟩
  · have hfront : byteLength ([] : List Char) = 0 := rfl
    exact hrewrites.patchFrom? hfront
  · intro e he
    obtain ⟨_, hspan, hroom⟩ := hrewrites.bounds e he
    rw [Nat.zero_add] at hroom
    exact ⟨hspan, hroom, atLine_betweenBy diff hreturns formatted e he⟩
  · rw [betweenBy]
    split
    · exact List.Pairwise.nil
    · have hsteps := rewrites_of_isScriptFrom hreturns hdiff
      exact separated_joinTouching (fun a ha => (hsteps.bounds a ha).2.1) hsteps.ordered

theorem betweenBy_roundTrip_ends :
    ReturnsFollowed "a=1\r\n\nb=2".toList ∧
      patch? "a=1\r\n\nb=2".toList
        (betweenBy Diff.script "a=1\r\n\nb=2".toList "a = 1\n\nb = 2\n".toList) =
        some "a = 1\n\nb = 2\n".toList ∧
      (betweenBy Diff.script "a=1\r\n\nb=2".toList "a = 1\n\nb = 2\n".toList).Pairwise
        fun a b => a.stop < b.start := by
  have hreturns : ReturnsFollowed "a=1\r\n\nb=2".toList := by decide
  have hdiff :
      Diff.IsScript (endedLines "a=1\r\n\nb=2".toList) (endedLines "a = 1\n\nb = 2\n".toList)
      (Diff.script (endedLines "a=1\r\n\nb=2".toList) (endedLines "a = 1\n\nb = 2\n".toList)) := by
        decide
  obtain ⟨hpatch, _, hapart, _⟩ := betweenBy_roundTrip Diff.script _ _ hreturns hdiff
  exact ⟨hreturns, hpatch, hapart⟩

end Script

end Edit

end ScratchFormat
