import ScratchFormat.Decimal.Binary64

/-! The fewest decimal digits from which a number reads back. -/

namespace ScratchFormat

namespace Decimal

def fraction (digits : Nat) (scale : Int) : Nat × Nat :=
  if 0 ≤ scale then (digits * Nat.pow 10 scale.toNat, 1) else (digits, Nat.pow 10 (-scale).toNat)

def readsAs (x : Binary64) (digits : Nat) (scale : Int) : Bool :=
  let (num, den) := fraction digits scale
  0 < num && Binary64.nearest? num den = some x

def magnitudeFrom (num den : Nat) (k : Int) : Nat → Int
  | 0 => k
  | fuel + 1 =>
    let (n, d) := fraction 1 k
    if num * d < den * n then k else magnitudeFrom num den (k + 1) fuel

def magnitude (num den : Nat) : Int :=
  let bits : Int := (num.log2 : Int) - (den.log2 : Int)
  magnitudeFrom num den (bits * 3 / 10 - 2 - if bits < 0 then -bits / 100 else 0) 40

/-- The nearer of the two neighbours of a fraction on the grid `10 ^ scale` that read back. Halfway
between them it is the upper one. -/
def onGrid? (x : Binary64) (num den : Nat) (scale : Int) : Option Nat :=
  let (up, down) := fraction 1 scale
  let n := num * down
  let d := den * up
  let floor := n / d
  let low := readsAs x floor scale
  let high := readsAs x (floor + 1) scale
  if low && high then some (if 2 * (n % d) < d then floor else floor + 1)
  else if low then some floor
  else if high then some (floor + 1)
  else none

def dropZeros (digits : Nat) (scale : Int) : Nat → Nat × Int
  | 0 => (digits, scale)
  | fuel + 1 =>
    if 0 < digits ∧ digits % 10 = 0 then dropZeros (digits / 10) (scale + 1) fuel
    else (digits, scale)

def shortestFrom (x : Binary64) (num den : Nat) (k : Int) (places : Nat) : Nat → Nat × Int
  | 0 => (0, 0)
  | fuel + 1 =>
    let scale := k - places
    match onGrid? x num den scale with
    | some digits => dropZeros digits scale (places + 1)
    | none => shortestFrom x num den k (places + 1) fuel

def shortest (x : Binary64) : Nat × Int :=
  let (num, den) := x.fraction
  shortestFrom x num den (magnitude num den) 1 18

def positionalText (digits : Nat) (scale : Int) : List Char :=
  let ds := Nat.toDigits 10 digits
  if 0 ≤ scale then ds ++ List.replicate scale.toNat '0' ++ ['.', '0']
  else
    let places := (-scale).toNat
    let padded := List.replicate (places + 1 - ds.length) '0' ++ ds
    padded.take (padded.length - places) ++ '.' :: padded.drop (padded.length - places)

end Decimal

end ScratchFormat
