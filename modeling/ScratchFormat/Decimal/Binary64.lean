/-! Numbers of the form `m * 2 ^ q` with a mantissa of 53 bits, and the nearest of them to a
fraction. -/

namespace ScratchFormat

structure Binary64 where
  mantissa : Nat
  exponent : Int
  deriving DecidableEq

namespace Binary64

def leastMantissa : Nat := Nat.pow 2 52

def leastExponent : Int := -1074

def mostExponent : Int := 971

/-- The quotient rounded to the nearest whole number; a half goes to the even one. -/
def roundDiv (num den : Nat) : Nat :=
  let floor := num / den
  let twice := 2 * (num % den)
  if twice < den then floor
  else if den < twice then floor + 1
  else if floor % 2 = 0 then floor
  else floor + 1

def scaled (num den : Nat) (q : Int) : Nat × Nat :=
  if 0 ≤ q then (num, den * Nat.pow 2 q.toNat) else (num * Nat.pow 2 (-q).toNat, den)

/-- The nearest number to a positive fraction. There is none when the fraction is too large; the
mantissa is zero when it is too small. -/
def nearest? (num den : Nat) : Option Binary64 :=
  let guess : Int := (num.log2 : Int) - (den.log2 : Int) - 52
  let small := scaled num den guess
  let q := max (if small.1 / small.2 < leastMantissa then guess - 1 else guess) leastExponent
  let part := scaled num den q
  let m := roundDiv part.1 part.2
  let rounded : Binary64 := if m = 2 * leastMantissa then ⟨leastMantissa, q + 1⟩ else ⟨m, q⟩
  if mostExponent < rounded.exponent then none else some rounded

def fraction (x : Binary64) : Nat × Nat :=
  if 0 ≤ x.exponent then (x.mantissa * Nat.pow 2 x.exponent.toNat, 1)
  else (x.mantissa, Nat.pow 2 (-x.exponent).toNat)

end Binary64

end ScratchFormat
