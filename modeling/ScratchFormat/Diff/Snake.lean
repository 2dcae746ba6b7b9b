import ScratchFormat.Diff.Op

/-! The middle snake of two lists: a place that some shortest edit script passes through, found by
searching from both ends at once.

The search goes by layers. Layer `d` holds, for the diagonals `d, d - 2, …, -d` in this order, how
far `d` edits reach along the old list. -/

namespace ScratchFormat

namespace Snake

/-- The pairs of neighbours in the layer before, for each diagonal of the next one. A diagonal at
the rim has one neighbour only. -/
def neighbours : Option (List Nat) → List (Option Nat × Option Nat)
  | none => [(some 0, none)]
  | some layer => (none :: layer.map some).zip (layer.map some ++ [none])

/-- Where the path on a diagonal starts: down from the upper neighbour if that one reached further,
else one step on from the lower. -/
def startFrom : Option Nat × Option Nat → Nat
  | (some upper, none) => upper
  | (some upper, some lower) => if lower < upper then upper else lower + 1
  | (none, some lower) => lower + 1
  | (none, none) => 0

def starts (layer : Option (List Nat)) : List Nat := (neighbours layer).map startFrom

def diagonals (d : Nat) : List Int :=
  (List.range (d + 1)).map fun (t : Nat) => (d : Int) - 2 * (t : Int)

def slide {α : Type} [DecidableEq α] (old new : List α) (k : Int) (x : Nat) : Nat :=
  let y := (x : Int) - k
  if x < old.length ∧ 0 ≤ y ∧ y < new.length then
    x + commonLength (old.drop x) (new.drop y.toNat)
  else x

def grow {α : Type} [DecidableEq α] (old new : List α) (d : Nat) (layer : Option (List Nat)) :
    List Nat :=
  ((diagonals d).zip (starts layer)).map fun (k, x) => slide old new k x

def reach? (d : Nat) (layer : List Nat) (k : Int) : Option Nat :=
  if k.natAbs ≤ d then layer[(((d : Int) - k) / 2).toNat]? else none

/-- Whether a path on the diagonal `k` of one search has met the other one, whose layer `d` is
given. -/
def meets (n : Nat) (delta : Int) (d : Nat) (other : List Nat) (k : Int) (x : Nat) : Bool :=
  (reach? d other (-(k - delta))).any fun x' => n ≤ x + x'

def search {α : Type} [DecidableEq α] (old new oldBack newBack : List α) (d : Nat)
    (forward backward : Option (List Nat)) : Nat → Option (Nat × Nat)
  | 0 => none
  | left + 1 =>
    let n := old.length
    let m := new.length
    let delta := (n : Int) - m
    let odd := delta % 2 ≠ 0
    let ahead := grow old new d forward
    let hit :=
      if odd then
        ((diagonals d).zip ((starts forward).zip ahead)).find? fun (k, _, x) =>
          backward.any fun layer => meets n delta (d - 1) layer k x
      else none
    match hit with
    | some (k, x, _) => some (x, ((x : Int) - k).toNat)
    | none =>
      let behind := grow oldBack newBack d backward
      let hit :=
        if odd then none
        else ((diagonals d).zip behind).find? fun (k, x) => meets n delta d ahead k x
      match hit with
      | some (k, x) => some (n - x, m - ((x : Int) - k).toNat)
      | none => search old new oldBack newBack (d + 1) (some ahead) (some behind) left

def middle? {α : Type} [DecidableEq α] (old new : List α) : Option (Nat × Nat) :=
  search old new old.reverse new.reverse 0 none none ((old.length + new.length + 1) / 2 + 1)

end Snake

end ScratchFormat
