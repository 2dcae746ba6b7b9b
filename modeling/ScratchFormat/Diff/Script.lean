import ScratchFormat.Diff.Snake

/-! Edit scripts: a raw script by divide and conquer, insertions and deletions moved together, and
neighbours joined. -/

namespace ScratchFormat

namespace Diff

def equalStep (old new len : Nat) : List DiffOp := if len = 0 then [] else [.equal old new len]

/-- The raw script between two lists that start at the given positions. What they share at both ends
is equal, and what remains is cut at its middle snake. -/
def conquer {α : Type} [DecidableEq α] (i j : Nat) (old new : List α) : Nat → List DiffOp
  | 0 => []
  | fuel + 1 =>
    let front := commonLength old new
    let old' := old.drop front
    let new' := new.drop front
    let back := commonLength old'.reverse new'.reverse
    let olds := old'.take (old'.length - back)
    let news := new'.take (new'.length - back)
    let i' := i + front
    let j' := j + front
    let between :=
      match olds, news with
      | [], [] => []
      | _, [] => [.delete i' olds.length j']
      | [], _ => [.insert i' j' news.length]
      | _, _ =>
        let apart := [DiffOp.delete i' olds.length j', .insert i' j' news.length]
        match Snake.middle? olds news with
        | none => apart
        | some (x, y) =>
          if 0 < x + y ∧ x ≤ olds.length ∧ y ≤ news.length ∧ x + y < olds.length + news.length then
            conquer i' j' (olds.take x) (news.take y) fuel ++
              conquer (i' + x) (j' + y) (olds.drop x) (news.drop y) fuel
          else apart
    equalStep i j front ++ between ++ equalStep (i' + olds.length) (j' + news.length) back

def raw {α : Type} [DecidableEq α] (old new : List α) : List DiffOp :=
  conquer 0 0 old new (old.length + new.length + 1)

/-- A script with one step under consideration. The steps before it are given nearest first. -/
structure Focus where
  before : List DiffOp
  this : DiffOp
  after : List DiffOp

def joinSame? : DiffOp → DiffOp → Option DiffOp
  | .insert old new len, .insert _ _ len' => some (.insert old new (len + len'))
  | .delete old len new, .delete _ len' _ => some (.delete old (len + len') new)
  | _, _ => none

def moveBack (s : Nat) : DiffOp → DiffOp
  | .insert old new len => .insert (old - s) (new - s) len
  | .delete old len new => .delete (old - s) len (new - s)
  | op => op

def moveOn (s : Nat) : DiffOp → DiffOp
  | .insert old new len => .insert (old + s) (new + s) len
  | .delete old len new => .delete (old + s) len (new + s)
  | op => op

/-- Moves the step in focus up as far as it goes. Before equal lines it can move if those end
like the lines it puts in; it changes places with a step of the other kind and takes up one of
its own. -/
def moveUp {α : Type} [DecidableEq α] (old new : List α) (f : Focus) : Nat → Focus
  | 0 => f
  | fuel + 1 =>
    match f.before with
    | [] => f
    | .equal i j len :: before =>
      let prev := DiffOp.equal i j len
      let s := commonLength (prev.oldPart old).reverse (f.this.newPart new).reverse
      if s = 0 then
        if len = 0 then moveUp old new { f with before := before } fuel else f
      else
        let after :=
          match f.after with
          | .equal i' j' len' :: after => .equal (i' - s) (j' - s) (len' + s) :: after
          | after => .equal (prev.oldStop - s) (f.this.newStop - s) s :: after
        let before := if len = s then before else .equal i j (len - s) :: before
        moveUp old new ⟨before, moveBack s f.this, after⟩ fuel
    | prev :: before =>
      match joinSame? prev f.this with
      | some joined => moveUp old new ⟨before, joined, f.after⟩ fuel
      | none => moveUp old new ⟨before, f.this, prev :: f.after⟩ fuel

def moveDown {α : Type} [DecidableEq α] (old new : List α) (f : Focus) : Nat → Focus
  | 0 => f
  | fuel + 1 =>
    match f.after with
    | [] => f
    | .equal i j len :: after =>
      let next := DiffOp.equal i j len
      let s := commonLength (next.oldPart old) (f.this.newPart new)
      if s = 0 then
        if len = 0 then moveDown old new { f with after := after } fuel else f
      else
        let before :=
          match f.before with
          | .equal i' j' len' :: before => .equal i' j' (len' + s) :: before
          | before => .equal i f.this.newStart s :: before
        let after := if len = s then after else .equal (i + s) (j + s) (len - s) :: after
        moveDown old new ⟨before, moveOn s f.this, after⟩ fuel
    | next :: after =>
      match joinSame? f.this next with
      | some joined => moveDown old new ⟨f.before, joined, after⟩ fuel
      | none => moveDown old new ⟨next :: f.before, f.this, after⟩ fuel

def weight (ops : List DiffOp) : Nat :=
  ops.foldr (fun op n => op.oldLen + op.newLen + 1 + n) 0

/-- Moves every step that `p` picks up and then down. `fuel` bounds the steps that are looked at. -/
def settleSteps {α : Type} [DecidableEq α] (old new : List α) (p : DiffOp → Bool)
    (before after : List DiffOp) : Nat → List DiffOp
  | 0 => before.reverse ++ after
  | fuel + 1 =>
    match after with
    | [] => before.reverse
    | op :: after =>
      if p op then
        let up := moveUp old new ⟨before, op, after⟩ (weight before + 1)
        let down := moveDown old new up (weight up.after + 1)
        settleSteps old new p (down.this :: down.before) down.after fuel
      else settleSteps old new p (op :: before) after fuel

def isDelete : DiffOp → Bool
  | .delete _ _ _ => true
  | _ => false

def isInsert : DiffOp → Bool
  | .insert _ _ _ => true
  | _ => false

def compact {α : Type} [DecidableEq α] (old new : List α) (ops : List DiffOp) : List DiffOp :=
  let deleted := settleSteps old new isDelete [] ops ((weight ops + 1) * (weight ops + 1))
  settleSteps old new isInsert [] deleted
    ((weight deleted + 1) * (weight deleted + 1))

structure Change where
  deleted : Option (Nat × Nat × Nat)
  inserted : Option (Nat × Nat × Nat)

def Change.steps (c : Change) : List DiffOp :=
  match c.deleted, c.inserted with
  | some (old, len, _), some (_, new, newLen) => [.replace old len new newLen]
  | some (old, len, new), none => [.delete old len new]
  | none, some (old, new, len) => [.insert old new len]
  | none, none => []

def heldEqual (eq : Option (Nat × Nat × Nat)) : List DiffOp :=
  eq.elim [] fun (old, new, len) => [.equal old new len]

/-- Joins equal steps, and a run of deletions and insertions into one step. `eq` and `change` hold
what has been read and not yet put out; at most one of them is there. -/
def joinSteps (eq : Option (Nat × Nat × Nat)) (change : Change) : List DiffOp → List DiffOp
  | [] => heldEqual eq ++ change.steps
  | .equal old new len :: ops =>
    let eq' := eq.elim (old, new, len) fun (old, new, len') => (old, new, len' + len)
    change.steps ++ joinSteps (some eq') ⟨none, none⟩ ops
  | .delete old len new :: ops =>
    let deleted := change.deleted.elim (old, len, new) fun (old, len', new) =>
      (old, len' + len, new)
    heldEqual eq ++ joinSteps none { change with deleted := some deleted } ops
  | .insert old new len :: ops =>
    let inserted :=
      change.inserted.elim (old, new, len) fun (old, new, len') => (old, new, len' + len)
    heldEqual eq ++ joinSteps none { change with inserted := some inserted } ops
  | op@(.replace _ _ _ _) :: ops =>
    heldEqual eq ++ change.steps ++ op :: joinSteps none ⟨none, none⟩ ops

def script {α : Type} [DecidableEq α] (old new : List α) : List DiffOp :=
  joinSteps none ⟨none, none⟩ (compact old new (raw old new))

end Diff

end ScratchFormat
