import ScratchFormat.Scan.Line

/-! Endings: no blanks at the end of a line, and one line feed at the end of a text. -/

namespace ScratchFormat

namespace Endings

/-- A line without the blanks at its end, which a line keeps that ends inside a long string. -/
def line (l : ScannedLine) : List Char :=
  if l.endsIn = .longString then l.raw else dropEndWhile isIndent l.raw

def dropEmptyEnd (ls : List (List Char)) : List (List Char) :=
  (ls.reverse.dropWhile List.isEmpty).reverse

def trim (text : List Char) : List Char :=
  match dropEmptyEnd ((scan text).map line) with
  | [] => []
  | ls => unlines ls ++ ['\n']

end Endings

end ScratchFormat
