import ScratchFormat.Text.Printable

/-! Texts in quotation marks, as messages show them. -/

namespace ScratchFormat

def hexDigits (n : Nat) : List Char := Nat.toDigits 16 n

/-- A character inside quotation marks. What has no look of its own is given by its code point. -/
def quotedChar (c : Char) : List Char :=
  if c = '\x00' then ['\\', '0']
  else if c = '\t' then ['\\', 't']
  else if c = '\r' then ['\\', 'r']
  else if c = '\n' then ['\\', 'n']
  else if c = '"' then ['\\', '"']
  else if c = '\\' then ['\\', '\\']
  else if isPrintable c then [c]
  else ['\\', 'u', '\x7b'] ++ hexDigits c.toNat ++ ['\x7d']

def quoted (cs : List Char) : List Char := '"' :: cs.flatMap quotedChar ++ ['"']

end ScratchFormat
