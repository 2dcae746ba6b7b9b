import ScratchFormat.Proofs.Grid
import ScratchFormat.Style.Bounded

/-! Columns and levels. A text that is put at a column is measured there, a level is the nearest one
to its own column, and from any column the nearest level is at most half a level away. In words all
this stays true as long as the numbers fit. -/

namespace ScratchFormat

namespace Style

variable (s : Style)

theorem measure_place (cols : Nat) {rest : List Char} (h : ∀ c ∈ rest.head?, isIndent c = false) :
    s.measure (s.place cols rest) = (cols, rest) := by
  rw [measure, (s.columns_place cols h).2, s.dropWhile_place cols h]

/-- What rounding cuts off is less than a level, and half a level was added before. -/
theorem le_colsOf_levelOf (cols : Nat) : cols ≤ s.colsOf (s.levelOf cols) + s.unit / 2 := by
  have hcut : (cols + s.unit / 2) % s.unit < s.unit := Nat.mod_lt _ s.unit_pos
  have hsplit : s.colsOf (s.levelOf cols) + (cols + s.unit / 2) % s.unit = cols + s.unit / 2 := calc
    _ = s.unit * ((cols + s.unit / 2) / s.unit) + (cols + s.unit / 2) % s.unit := by
      rw [colsOf, levelOf, Nat.mul_comm]
    _ = _ := Nat.div_add_mod _ _
  omega

/-- An indentation that fits into words is measured as it was set. -/
theorem place?_bind_measure? {cols : Nat} (hcols : cols < wordSize)
    (hrun : s.longestRun cols < wordSize / 2) {rest : List Char}
    (h : ∀ c ∈ rest.head?, isIndent c = false) :
    (s.place? cols rest).bind s.measure? = some (cols, rest) := by
  have hplace : s.place? cols rest = some (s.place cols rest) := by
    rw [place?, render?, if_pos hrun]
    rfl
  have hfits : fits? (s.columns (s.place cols rest)) = some cols := by
    rw [(s.columns_place cols h).2]
    exact if_pos hcols
  rw [hplace, Option.bind_some, measure?, hfits, Option.map_some, s.dropWhile_place cols h]

theorem levelOf?_eq {cols : Nat} (hroom : cols + s.unit / 2 < wordSize) :
    s.levelOf? cols = some (s.levelOf cols) := by
  rw [levelOf?, fits?, if_pos hroom, Option.map_some]

theorem colsOf?_eq {level : Nat} (hroom : s.colsOf level < wordSize) :
    s.colsOf? level = some (s.colsOf level) :=
  if_pos hroom

theorem colsOf?_bind_levelOf? {level : Nat} (hroom : s.colsOf level + s.unit / 2 < wordSize) :
    (s.colsOf? level).bind s.levelOf? = some level := by
  rw [s.colsOf?_eq (Nat.lt_of_le_of_lt (Nat.le_add_right _ _) hroom), Option.bind_some,
    s.levelOf?_eq hroom, s.levelOf_colsOf]

/-- Once a column can be rounded, the column of its level fits as well. -/
theorem levelOf?_bind_colsOf? {cols : Nat} (hroom : cols + s.unit / 2 < wordSize) :
    (s.levelOf? cols).bind s.colsOf? = some (s.colsOf (s.levelOf cols)) := by
  rw [s.levelOf?_eq hroom, Option.bind_some]
  exact s.colsOf?_eq (Nat.lt_of_le_of_lt (Levels.colsOf_levelOf_le s cols) hroom)

/-- Putting a text at a column and measuring it undo each other, and so do levels and their columns.
A column that is rounded to a level moves by half a level at most. In words the same comes out, as
long as every sum and product fits and the indentation is not too long to be written. -/
theorem columns_levels (cols level : Nat) {rest : List Char}
    (hrest : ∀ c ∈ rest.head?, isIndent c = false) :
    (s.measure (s.place cols rest) = (cols, rest) ∧ s.levelOf (s.colsOf level) = level ∧
        s.colsOf (s.levelOf cols) ≤ cols + s.unit / 2 ∧
          cols ≤ s.colsOf (s.levelOf cols) + s.unit / 2) ∧
      (cols < wordSize → s.longestRun cols < wordSize / 2 →
        (s.place? cols rest).bind s.measure? = some (cols, rest)) ∧
      (s.colsOf level + s.unit / 2 < wordSize → (s.colsOf? level).bind s.levelOf? = some level) ∧
      (cols + s.unit / 2 < wordSize →
        (s.levelOf? cols).bind s.colsOf? = some (s.colsOf (s.levelOf cols))) := by
  refine ⟨⟨?_, ?_, ?_, ?_⟩, ?_, ?_, ?_⟩
  · exact s.measure_place cols hrest
  · exact s.levelOf_colsOf level
  · exact Levels.colsOf_levelOf_le s cols
  · exact s.le_colsOf_levelOf cols
  · exact fun hcols hrun => s.place?_bind_measure? hcols hrun hrest
  · exact s.colsOf?_bind_levelOf?
  · exact s.levelOf?_bind_colsOf?

/-- Tabs of five columns: two of them and three blanks reach column 13, which rounds to the third
level. -/
theorem columns_levels_tabs :
    (∀ c ∈ "x\t".toList.head?, isIndent c = false) ∧
      (place ⟨5, false⟩ 13 "x\t".toList = "\t\t   x\t".toList ∧
        measure ⟨5, false⟩ "\t\t   x\t".toList = (13, "x\t".toList)) ∧
      (place? ⟨5, false⟩ 13 "x\t".toList).bind (measure? ⟨5, false⟩) = some (13, "x\t".toList) ∧
      (colsOf? ⟨5, false⟩ 3).bind (levelOf? ⟨5, false⟩) = some 3 ∧
      (levelOf? ⟨5, false⟩ 13).bind (colsOf? ⟨5, false⟩) = some 15 := by
  have hrest : ∀ c ∈ "x\t".toList.head?, isIndent c = false := by
    intro c hc
    obtain rfl : 'x' = c := Option.some.inj hc
    rfl
  have hplace : place ⟨5, false⟩ 13 "x\t".toList = "\t\t   x\t".toList := by decide
  obtain ⟨⟨hmeasure, -⟩, hwords, hlevel, hcols⟩ := columns_levels ⟨5, false⟩ 13 3 hrest
  rw [hplace] at hmeasure
  exact ⟨hrest, ⟨hplace, hmeasure⟩, hwords (by decide) (by decide), hlevel (by decide),
    hcols (by decide)⟩

end Style

end ScratchFormat
