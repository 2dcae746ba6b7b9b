import ScratchFormat.Proofs.Fusion
import Mathlib.Data.List.Forall2

/-! Scanning a text again after its gaps have been set. The scanner finds the same literals and
comments, and starts and ends every line as before, exactly when nothing in the text fuses. -/

namespace ScratchFormat

namespace Gaps

/-- What a role marks in a line is a colon or an equals sign. -/
theorem marked_special? (role : Role) (head : List Char) : Marked (special? role head) head := by
  intro k hk
  have hdefinition : k ∈ (definitionHead? head).map List.length → ∃ c ∈ head[k]?,
      c = ':' ∨ c = '=' := by
    intro h
    obtain ⟨front, hfront, rfl⟩ := Option.map_eq_some_iff.mp h
    obtain ⟨rest, rfl⟩ := eq_append_of_definitionHead? hfront
    exact ⟨'=', by simp, .inr rfl⟩
  cases role with
  | signature name =>
    obtain ⟨⟨name, gap⟩, h, rfl⟩ := Option.map_eq_some_iff.mp hk
    obtain ⟨rest, rfl⟩ := eq_append_of_signature? h
    refine ⟨':', ?_, .inl rfl⟩
    change ':' ∈ (name ++ (gap ++ ':' :: rest))[name.length + gap.length]?
    rw [← List.append_assoc, ← List.length_append]
    simp
  | definition => exact hdefinition hk
  | typeDeclaration => exact hdefinition hk
  | watch => cases hk
  | test => cases hk
  | useClause => cases hk
  | other => cases hk

/-- Code that neither opens anything nor is set is copied. -/
theorem respaced_front {fused : Prop} {s : Cursor} {front cs rest new : List Char}
    (hplain : Plain front) (hcomma : ',' ∉ front) (hidle : s.IdleAlong rest (front ++ cs))
    (h : Respaced fused (s.run (cs ++ rest) front) (cs ++ rest) new) :
    Respaced fused s (front ++ (cs ++ rest)) (front ++ new) := by
  induction front generalizing s with
  | nil => exact h
  | cons c front ih =>
    rw [List.mem_cons, not_or] at hcomma
    rw [List.cons_append, Cursor.IdleAlong, List.append_assoc] at hidle
    obtain ⟨hs, hidle⟩ := hidle
    have hlater := ih (fun d hd => hplain d (List.mem_cons_of_mem c hd)) hcomma.2 hidle h
    have hmoved : Moved s.prev c [] [] := .kept
    have hset := Respaced.set hs (List.forall_mem_nil _) (List.forall_mem_nil _) hmoved
      (fun hc => absurd hc.symm hcomma.1) hlater
    have hc := hplain c List.mem_cons_self
    have hnot : ¬ Joined s.prev c (front ++ (cs ++ rest)) (front ++ new) := by
      rintro (⟨h, _⟩ | ⟨h, _⟩)
      · exact hc.1 h
      · exact hc.2 h
    rwa [Cursor.pause_nil, propext (or_iff_right hnot)] at hset

theorem prev_run_start (mode : Mode) (rest front : List Char) :
    ((Cursor.start mode).run rest front).prev = front.getLast? := by
  cases front with
  | nil => rfl
  | cons c front => exact Cursor.prev_run _ rest c front

/-- A line that begins with code: `front` is copied, and the code behind it is set from a pending
gap on. -/
theorem respaced_begin {ts : List Segment} (special : Option Nat)
    (base gap gap' : List Char) {due : Bool} {front body : List Char} (hplain : Plain front)
    (hcomma : ',' ∉ front) (hbase : ∀ c ∈ base.head?, isIndent c = false)
    (hg : ∀ c ∈ gap, isSpace c = true) (hg' : ∀ c ∈ gap', isIndent c = true)
    (hpending : Pending (!ts.isEmpty) base.head? gap body due gap')
    (hfirst : due = false → gap = []) (hmarked : Marked special body)
    (hfront : front.getLast? = base.head? ∨ (base.head? = none ∧ front.getLast?.all isSpace = true))
    (hends : due = true → front.getLast?.any ends = true)
    (hlexed : Lexed (.start .code) (⟨.code, front ++ (gap ++ body)⟩ :: ts)) :
    ∃ new, segments (code (!ts.isEmpty) special 0 [] (gap'.reverse ++ base) body) ts =
      new.reverse ++ base ∧
      Respaced (joinsInCode (special.map (· + (front.length + gap.length))) none
          (front ++ (gap ++ body)) = true ∨
            fusesInSegments none (front ++ (gap ++ body)).getLast? ts = true)
        (.start .code) (front ++ (gap ++ body) ++ flat ts) (front ++ new) := by
  obtain ⟨hidle, hnext, hlater⟩ := hlexed.of_code
  have hsound := Cursor.sound_run (Cursor.sound_start .code (front ++ (gap ++ body) ++ flat ts))
  rw [Cursor.run_append] at hlater hsound
  have hprev := prev_run_start .code (gap ++ body ++ flat ts) front
  obtain ⟨new, hnew, hres⟩ :=
    respaced_stretch (setsFrom ts).2.2 special gap gap' hbase hg hg' hpending
    (fun hd hne => absurd (hfirst hd) hne) hmarked hnext (hprev ▸ hfront) (hprev ▸ hends)
    (Cursor.idleAlong_append hidle) hlater hsound (front ++ (gap ++ body)).getLast?
  refine ⟨new, hnew, ?_⟩
  have hjoins :
      joinsInCode (special.map (· + (front.length + gap.length))) none (front ++ (gap ++ body)) =
      joinsInCode (special.map (· + gap.length)) front.getLast? (gap ++ body) := by
    have hspecial : special.map (· + (front.length + gap.length)) =
        (special.map (· + gap.length)).map (· + front.length) := by
      rw [Option.map_map]
      congr 1
      funext k
      simp only [Function.comp_apply]
      omega
    have hshift := shift_map_add (special.map (· + gap.length)) front.length 0
    rw [Nat.add_zero, shift_zero] at hshift
    rw [joinsInCode_append _ none hplain, hspecial, hshift, Option.or_none]
  rw [hjoins, ← hprev, List.append_assoc front]
  exact respaced_front hplain hcomma hidle hres

theorem plain_indent (text : List Char) :
    Plain (text.takeWhile isIndent) ∧ ',' ∉ text.takeWhile isIndent ∧
      ∀ c ∈ text.takeWhile isIndent, isSpace c = true := by
  have hall : ∀ c ∈ text.takeWhile isIndent, isIndent c = true :=
    List.all_eq_true.mp List.all_takeWhile
  have hspace : ∀ c ∈ text.takeWhile isIndent, isSpace c = true :=
    fun c hc => isSpace_of_isIndent (hall c hc)
  refine ⟨plain_of_isSpace hspace, fun h => ?_, hspace⟩
  exact absurd (hall _ h) (by decide)

/-- A line that begins with a watch marker: the gap behind the marker is due. -/
theorem respaced_marker {indent marker rest : List Char} {ts : List Segment} (hplain : Plain indent)
    (hcomma : ',' ∉ indent) (hmarker : marker = testMarker ∨ marker = ['>'])
    (hlexed : Lexed (.start .code) (⟨.code, indent ++ (marker ++ rest)⟩ :: ts)) :
    Respaced (fusesInSegments none none (⟨.code, indent ++ (marker ++ rest)⟩ :: ts) = true)
      (.start .code) (indent ++ (marker ++ rest) ++ flat ts)
      (indent ++ (segments (code (!ts.isEmpty) none 0 []
        (if (trimStart rest).isEmpty && ts.isEmpty then marker.reverse else ' ' :: marker.reverse)
        (trimStart rest)) ts).reverse) := by
  have hmark : Plain marker ∧ ',' ∉ marker ∧ marker.getLast? = some '>' := by
    rcases hmarker with rfl | rfl <;> simp [Plain, testMarker]
  obtain ⟨hplain', hcomma', hlast⟩ := hmark
  have hfront : Plain (indent ++ marker) := List.forall_mem_append.mpr ⟨hplain, hplain'⟩
  have hlast' : (indent ++ marker).getLast? = some '>' := by
    rw [List.getLast?_append, hlast]
    rfl
  have hbase : marker.reverse.head? = some '>' := by rw [List.head?_reverse, hlast]
  have hgap : ∀ c ∈ rest.takeWhile isSpace, isSpace c = true :=
    List.all_eq_true.mp List.all_takeWhile
  have hrest : rest.takeWhile isSpace ++ trimStart rest = rest := List.takeWhile_append_dropWhile
  have hbody : ∀ c ∈ (trimStart rest).head?, isIndent c = false := by
    intro c hc
    have hspace : isSpace c = false := head?_dropWhile_eq_false isSpace rest c hc
    refine Bool.eq_false_iff.mpr fun hindent => ?_
    simp [isSpace_of_isIndent hindent] at hspace
  generalize hout : (if (trimStart rest).isEmpty && ts.isEmpty then [] else [' ']) = gap'
  have hpending :
      Pending (!ts.isEmpty) marker.reverse.head? (rest.takeWhile isSpace) (trimStart rest) true
      gap' := by
    refine .due (by rw [hbase]; decide) hbody ?_
    subst hout
    cases h : (trimStart rest).isEmpty <;> cases ht : ts.isEmpty <;> simp_all
  have hgap' : (∀ c ∈ gap', isIndent c = true) ∧ gap'.reverse ++ marker.reverse =
      if (trimStart rest).isEmpty && ts.isEmpty then marker.reverse else ' ' :: marker.reverse := by
    subst hout
    split <;> simp [isIndent]
  generalize rest.takeWhile isSpace = gap at *
  generalize trimStart rest = body at *
  subst hrest
  rw [← List.append_assoc indent] at hlexed ⊢
  obtain ⟨new, hnew, hres⟩ := respaced_begin none marker.reverse gap gap' hfront
    (by simp [hcomma, hcomma']) (by rw [hbase]; rintro c ⟨⟩; decide) hgap hgap'.1 hpending
      (fun h => by cases h) (fun _ h => by cases h)
    (.inl (hlast'.trans hbase.symm)) (fun _ => by rw [hlast']; decide) hlexed
  rw [hgap'.2] at hnew
  rw [hnew, fusesInSegments, if_pos rfl, Bool.or_eq_true, List.reverse_append, List.reverse_reverse,
    List.reverse_reverse, ← List.append_assoc indent]
  exact hres

/-- A line that begins with code. -/
theorem respaced_codeLine {text : List Char} {ts : List Segment} (role : Role)
    (hlexed : Lexed (.start .code) (⟨.code, text⟩ :: ts)) :
    Respaced (fusesInSegments ((special? role (text.dropWhile isIndent)).map
        (· + (text.takeWhile isIndent).length)) none (⟨.code, text⟩ :: ts) = true)
      (.start .code) (text ++ flat ts)
      (text.takeWhile isIndent ++ codeLine role (text.dropWhile isIndent) ts) := by
  obtain ⟨hplain, hcomma, hspace⟩ := plain_indent text
  have htext : text.takeWhile isIndent ++ text.dropWhile isIndent = text :=
    List.takeWhile_append_dropWhile
  generalize text.takeWhile isIndent = indent at *
  generalize text.dropWhile isIndent = head at *
  subst htext
  have hlast : indent.getLast?.all isSpace = true := by
    cases h : indent.getLast? with
    | none => rfl
    | some c => exact hspace c (List.mem_of_getLast? h)
  unfold codeLine
  generalize hmarker :
    (if role = .watch ∨ role = .test then (watchMarker? head).getD [] else []) = marker
  by_cases hempty : marker = []
  · subst hempty
    obtain ⟨new, hnew, hres⟩ :=
      respaced_begin (special? role head) [] [] [] hplain hcomma nofun nofun nofun
      .kept (fun _ => rfl) (marked_special? role head) (.inr ⟨rfl, hlast⟩) nofun hlexed
    simp only [List.reverse_nil, List.append_nil] at hnew
    rw [fusesInSegments, if_pos rfl, Bool.or_eq_true]
    simpa [hnew] using hres
  · have hrole : role = .watch ∨ role = .test :=
      Decidable.byContradiction fun h => hempty (by rw [← hmarker, if_neg h])
    have hspecial : ∀ head, special? role head = none := by
      rcases hrole with rfl | rfl <;> exact fun _ => rfl
    have hwatch : watchMarker? head = some marker := by
      rw [if_pos hrole] at hmarker
      cases h : watchMarker? head with
      | none =>
        rw [h] at hmarker
        exact absurd hmarker.symm hempty
      | some m =>
        rw [h] at hmarker
        exact congrArg some hmarker
    obtain ⟨rest, rfl⟩ := eq_append_of_watchMarker? hwatch
    have hne : marker.isEmpty = false := by simpa using hempty
    simp only [hne, hspecial, List.drop_left, Bool.false_eq_true, if_false, Option.map_none]
    exact respaced_marker hplain hcomma (marker_of_watchMarker? hwatch) hlexed

theorem line_of_not_isSet {l : ScannedLine} (h : isSet l = false) : line l = l.raw := by
  unfold line
  split
  · rfl
  · rename_i hplain
    have huse : l.startsInCode = true ∧ Role.ofCode l.codeText = .useClause := by
      simpa [isSet, hplain] using h
    simp [huse.1, huse.2]

/-- A line whose gaps are set, as the scanner reads it before and after. -/
theorem respaced_line {mode : Mode} {raw : List Char} (h : isSet (scanLine mode raw) = true) :
    Respaced
      (fusesInSegments (lineSpecial (scanLine mode raw)) none (scanLine mode raw).segments = true)
      (.start mode) raw (line (scanLine mode raw)) := by
  have hraw : flat (scanLine mode raw).segments = raw := segments_flatMap_text mode raw
  have hlexed : Lexed (.start mode) (scanLine mode raw).segments :=
    lexed_ofMarks (Cursor.sound_start mode raw)
  have hmode : (scanLine mode raw).startsIn = mode := rfl
  generalize scanLine mode raw = l at *
  subst hraw hmode
  -- without code to begin with, all segments are set from the start of the line
  have hsegments : lineSpecial l = none →
      Respaced (fusesInSegments (lineSpecial l) none l.segments = true)
      (.start l.startsIn) (flat l.segments) (segments [] l.segments).reverse := by
    intro hspecial
    obtain ⟨new, hnew, hres⟩ := (setsFrom l.segments).1 (.start l.startsIn) [] hlexed
      (Cursor.sound_start _ _) rfl fun _ => ⟨rfl, nofun⟩
    rw [hspecial, hnew, List.append_nil, List.reverse_reverse]
    exact hres
  simp only [isSet, Bool.and_eq_true, Bool.not_eq_true'] at h
  obtain ⟨hplain, huse⟩ := h
  unfold line
  rw [if_neg (by simp [hplain])]
  split
  · rename_i hstart
    refine hsegments ?_
    have hstart' : l.startsInCode = false := by simpa using hstart
    unfold lineSpecial
    split
    · rfl
    · rw [if_neg (by simp [hstart'])]
  · rename_i hstart
    have hstart' : l.startsInCode = true := by simpa using hstart
    have hrole : Role.ofCode l.codeText ≠ .useClause := by simpa [hstart'] using huse
    rw [if_neg hrole]
    have hcode : l.startsIn = .code := by simpa [ScannedLine.startsInCode] using hstart'
    split
    · rename_i hnil
      simp [ScannedLine.isBlank, hnil] at hplain
    · rename_i first later hcons
      split
      · rename_i hkind
        obtain ⟨kind, text⟩ := first
        cases hkind
        rw [hcode, hcons] at hlexed ⊢
        have hspecial : lineSpecial l =
            (special? (Role.ofCode l.codeText) (text.dropWhile isIndent)).map
              (· + (text.takeWhile isIndent).length) := by
          simp [lineSpecial, hcons, hstart']
        rw [hspecial]
        exact respaced_codeLine _ hlexed
      · rename_i hkind
        refine hsegments ?_
        simp [lineSpecial, hcons, hkind]

end Gaps

/-- Two lines that the scanner reads alike: they start and end in the same modes, they have the same
literals and comments, and every character that is not white space in code belongs to the same kind
of text. -/
structure ScannedLine.ReadsAs (l l' : ScannedLine) : Prop where
  startsIn : l'.startsIn = l.startsIn
  endsIn : l'.endsIn = l.endsIn
  tokens : l'.tokens = l.tokens
  kinds : l'.kinds = l.kinds

namespace Gaps

/-- A line is read as before exactly if nothing in it fuses. -/
theorem readsAs_line_iff (mode : Mode) (raw : List Char) :
    (scanLine mode raw).ReadsAs (scanLine mode (line (scanLine mode raw))) ↔
      fuses (scanLine mode raw) = false := by
  cases hset : isSet (scanLine mode raw) with
  | false =>
    have hline : line (scanLine mode raw) = raw := line_of_not_isSet hset
    simp only [hline, fuses, hset, Bool.false_and, iff_true]
    exact ⟨rfl, rfl, rfl, rfl⟩
  | true =>
    obtain ⟨halike, hdiffer⟩ := (respaced_line hset).alike
    rw [fuses, hset, Bool.true_and]
    constructor
    · intro h
      refine Bool.eq_false_iff.mpr fun hfuses => hdiffer hfuses ?_
      have hkinds := h.kinds
      rwa [kinds_scanLine, kinds_scanLine] at hkinds
    · intro h
      obtain ⟨htokens, hkinds, hfinal⟩ := halike (by simp [h])
      refine ⟨rfl, hfinal, ?_, ?_⟩
      · rw [tokens_scanLine, tokens_scanLine, htokens]
      · rw [kinds_scanLine, kinds_scanLine, hkinds]

/-- What one line leaves open is carried into the next, so the lines are read as before as long as
none of them fuses. -/
theorem readsAs_lines_iff (mode : Mode) (ls : List (List Char)) :
    List.Forall₂ ScannedLine.ReadsAs (scanFrom mode ls)
      (scanFrom mode ((scanFrom mode ls).map line)) ↔ ∀ l ∈ scanFrom mode ls, fuses l = false := by
  induction ls generalizing mode with
  | nil => simp [scanFrom]
  | cons raw ls ih =>
    simp only [scanFrom, List.map_cons, List.forall₂_cons, List.forall_mem_cons, readsAs_line_iff]
    refine and_congr_right fun hfuses => ?_
    rw [((readsAs_line_iff mode raw).mpr hfuses).endsIn]
    exact ih _

end Gaps

/-- Setting the gaps of a text keeps its lines in number. The scanner reads each of them as it did
before, with the same literals and comments and the same modes at both ends, exactly if nothing in
the text fuses. -/
theorem scan_set_iff (text : List Char) :
    (scan (Gaps.set text)).length = (scan text).length ∧
      (List.Forall₂ ScannedLine.ReadsAs (scan text) (scan (Gaps.set text)) ↔
        ∀ l ∈ scan text, Gaps.fuses l = false) := by
  constructor
  · have hlength : ∀ t, (scan t).length = (lines t).length := fun t => by
      rw [← scan_map_raw, List.length_map]
    rw [hlength (Gaps.set text), Gaps.lines_set, List.length_map]
  · rw [scan, scan, Gaps.lines_set]
    exact Gaps.readsAs_lines_iff .code (lines text)

/-- A brace and a minus sign with a gap between them are code, and become the beginning of a comment
that runs on into the next line. -/
theorem scan_set_brace :
    ((scan "\x7b - x".toList).map ScannedLine.tokens = [[]] ∧
        (scan "\x7b - x".toList).map ScannedLine.endsIn = [.code]) ∧
      ((scan (Gaps.set "\x7b - x".toList)).map ScannedLine.tokens =
          [[⟨.comment, "\x7b- x".toList⟩]] ∧
        (scan (Gaps.set "\x7b - x".toList)).map ScannedLine.endsIn = [.blockComment 1]) := by
  decide +kernel

end ScratchFormat
