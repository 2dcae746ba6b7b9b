import ScratchFormat.Text.Basic

/-! Texts as bytes in UTF-8. -/

namespace ScratchFormat

namespace Utf8

def encodeChar (c : Char) : List UInt8 :=
  let n := c.toNat
  let tail (k : Nat) : UInt8 := UInt8.ofNat (0x80 + k % 0x40)
  if n < 0x80 then [UInt8.ofNat n]
  else if n < 0x800 then [UInt8.ofNat (0xc0 + n / 0x40), tail n]
  else if n < 0x10000 then [UInt8.ofNat (0xe0 + n / 0x1000), tail (n / 0x40), tail n]
  else [UInt8.ofNat (0xf0 + n / 0x40000), tail (n / 0x1000), tail (n / 0x40), tail n]

def encode (cs : List Char) : List UInt8 := cs.flatMap encodeChar

structure Pending where
  /-- How many bytes are to come after the next one. -/
  later : Nat
  /-- The bounds of the next byte. -/
  least : Nat
  most : Nat
  /-- The number that the bytes so far amount to. -/
  value : Nat

def lead? (b : Nat) : Option Pending :=
  if 0xc2 ≤ b ∧ b ≤ 0xdf then some ⟨0, 0x80, 0xbf, b - 0xc0⟩
  else if b = 0xe0 then some ⟨1, 0xa0, 0xbf, 0⟩
  else if b = 0xed then some ⟨1, 0x80, 0x9f, b - 0xe0⟩
  else if 0xe1 ≤ b ∧ b ≤ 0xef then some ⟨1, 0x80, 0xbf, b - 0xe0⟩
  else if b = 0xf0 then some ⟨2, 0x90, 0xbf, 0⟩
  else if 0xf1 ≤ b ∧ b ≤ 0xf3 then some ⟨2, 0x80, 0xbf, b - 0xf0⟩
  else if b = 0xf4 then some ⟨2, 0x80, 0x8f, b - 0xf0⟩
  else none

def decodeFrom? (pending : Option Pending) : List UInt8 → Option (List Char)
  | [] => if pending.isNone then some [] else none
  | b :: bs =>
    let n := b.toNat
    match pending with
    | none =>
      if n < 0x80 then (decodeFrom? none bs).map (Char.ofNat n :: ·)
      else
        match lead? n with
        | none => none
        | some p => decodeFrom? (some p) bs
    | some p =>
      if p.least ≤ n ∧ n ≤ p.most then
        let value := p.value * 0x40 + (n - 0x80)
        match p.later with
        | 0 => (decodeFrom? none bs).map (Char.ofNat value :: ·)
        | later + 1 => decodeFrom? (some ⟨later, 0x80, 0xbf, value⟩) bs
      else none

def decode? (bytes : List UInt8) : Option (List Char) := decodeFrom? none bytes

def replacement : Char := Char.ofNat 0xfffd

def lossyStart (b : Nat) (rest : Option Pending → List Char) : List Char :=
  if b < 0x80 then Char.ofNat b :: rest none
  else
    match lead? b with
    | none => replacement :: rest none
    | some p => rest (some p)

def lossyFrom (pending : Option Pending) : List UInt8 → List Char
  | [] => if pending.isNone then [] else [replacement]
  | b :: bs =>
    let n := b.toNat
    match pending with
    | none => lossyStart n fun p => lossyFrom p bs
    | some p =>
      if p.least ≤ n ∧ n ≤ p.most then
        let value := p.value * 0x40 + (n - 0x80)
        match p.later with
        | 0 => Char.ofNat value :: lossyFrom none bs
        | later + 1 => lossyFrom (some ⟨later, 0x80, 0xbf, value⟩) bs
      -- the character is broken off, and this byte starts another one
      else replacement :: lossyStart n fun p => lossyFrom p bs

/-- A text to show for any bytes. Each beginning of a character that is not gone on with, and each
byte that starts none, is replaced. -/
def lossy (bytes : List UInt8) : List Char := lossyFrom none bytes

end Utf8

end ScratchFormat
