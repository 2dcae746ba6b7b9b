import ScratchFormat.Text.Utf8

/-! Paths as bytes: their parts, how they are joined, their order, and the texts that they are given
as and shown as. -/

namespace ScratchFormat

/-- The bytes of a path, which need not be those of a text. -/
abbrev Path := List UInt8

abbrev FileName := List UInt8

namespace Path

def slash : UInt8 := 0x2f

def point : UInt8 := 0x2e

def ofText (text : List Char) : Path := Utf8.encode text

def shown (p : Path) : List Char := Utf8.lossy p

/-- The text that a name or an extension is compared as. Where there is none it is compared as the
empty text. -/
def textOf (name : FileName) : List Char := (Utf8.decode? name).getD []

/-- A text where a path is asked for is the path that it names. -/
instance : Coe (List Char) Path := ⟨ofText⟩

instance : Coe (List (List Char)) (List Path) := ⟨List.map ofText⟩

/-- A path where a text is asked for is shown. -/
instance : Coe Path (List Char) := ⟨shown⟩

instance : Coe (Option Path) (Option (List Char)) := ⟨Option.map shown⟩

instance : Coe (List Path) (List (List Char)) := ⟨List.map shown⟩

def pieces : Path → List FileName
  | [] => [[]]
  | b :: bs =>
    if b = slash then [] :: pieces bs
    else
      match pieces bs with
      | [] => [[b]]
      | p :: ps => (b :: p) :: ps

def ofPieces : List FileName → Path
  | [] => []
  | [p] => p
  | p :: p' :: ps => p ++ slash :: ofPieces (p' :: ps)

def isAbsolute (p : Path) : Bool := p.head? = some slash

inductive Component
  | root
  | current
  | parent
  | normal (name : FileName)
  deriving DecidableEq

namespace Component

def ofPiece? (piece : FileName) : Option Component :=
  if piece = [] ∨ piece = [point] then none
  else if piece = [point, point] then some parent
  else some (normal piece)

def rank : Component → Nat
  | root => 0
  | current => 1
  | parent => 2
  | normal _ => 3

def codes : Component → List Nat
  | normal name => name.map UInt8.toNat
  | _ => []

end Component

/-- The steps of a path. A dot counts only at the start. -/
def components (p : Path) : List Component :=
  match pieces p with
  | [] => []
  | first :: rest =>
    let start : List Component :=
      if first = [] then (if rest.isEmpty then [] else [.root])
      else if first = [point] then [.current]
      else (Component.ofPiece? first).toList
    start ++ rest.filterMap Component.ofPiece?

def compareCodes : List Nat → List Nat → Ordering
  | [], [] => .eq
  | [], _ :: _ => .lt
  | _ :: _, [] => .gt
  | a :: as, b :: bs => if a < b then .lt else if b < a then .gt else compareCodes as bs

def compareStep (a b : Component) : Ordering :=
  if a.rank < b.rank then .lt
  else if b.rank < a.rank then .gt
  else compareCodes a.codes b.codes

def compareSteps : List Component → List Component → Ordering
  | [], [] => .eq
  | [], _ :: _ => .lt
  | _ :: _, [] => .gt
  | a :: as, b :: bs => (compareStep a b).then (compareSteps as bs)

def compare (p q : Path) : Ordering := compareSteps p.components q.components

def join (base p : Path) : Path :=
  if isAbsolute p || base.isEmpty then p
  else if base.getLast? = some slash then base ++ p
  else base ++ slash :: p

def isStep (atStart : Bool) (piece : FileName) : Bool :=
  if atStart then !piece.isEmpty else (Component.ofPiece? piece).isSome

/-- Drops pieces from the end, given last first, that stand for no step. The last piece of all is
the start of the path. -/
def dropIdle : List FileName → List FileName
  | [] => []
  | [first] => [first]
  | piece :: rest => if isStep false piece then piece :: rest else dropIdle rest

def parent? (p : Path) : Option Path :=
  match dropIdle (pieces p).reverse with
  | [] => none
  | [first] => if isStep true first then some [] else none
  | _ :: rest =>
    match dropIdle rest with
    | [[]] => some [slash]
    | kept => some (ofPieces kept.reverse)

/-- The part of a name after its last point. A name that only starts with a point has none. -/
def extension? (name : FileName) : Option FileName :=
  let back := name.reverse
  let ext := back.takeWhile (· != point)
  match back.drop ext.length with
  | [] => none
  | [_] => none
  | _ :: _ => some ext.reverse

/-- Puts a path into an ordered list; of two equal paths the one that is there stays. -/
def insertOrdered (p : Path) : List Path → List Path
  | [] => [p]
  | q :: qs =>
    match compare p q with
    | .lt => p :: q :: qs
    | .eq => q :: qs
    | .gt => q :: insertOrdered p qs

def ordered (ps : List Path) : List Path := ps.foldl (fun qs p => insertOrdered p qs) []

end Path

end ScratchFormat
