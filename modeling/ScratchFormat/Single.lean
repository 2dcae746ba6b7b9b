import ScratchFormat.Machine

/-! The command that formats given files, or its input. -/

namespace ScratchFormat

namespace Single

structure Arguments where
  check : Bool
  diff : Bool
  stdin : Bool
  indent : Option Nat
  tabs : Bool
  help : Bool
  paths : List (List Char)
  deriving DecidableEq

def Arguments.none : Arguments := ⟨false, false, false, .none, false, false, []⟩

def usage : String :=
  "usage: unifmtc [--check] [--diff] [--stdin] [--indent N] [--tabs] <file>..."

def readIndent (raw : List Char) : Except Failure Nat :=
  (Setting.readCount "--indent".toList raw).mapError fun failure => .usage failure.message

def parseFrom (a : Arguments) : List (List Char) → Except Failure Arguments
  | [] => .ok a
  | arg :: rest =>
    if arg = "--check".toList then parseFrom { a with check := true } rest
    else if arg = "--diff".toList then parseFrom { a with diff := true } rest
    else if arg = "--stdin".toList then parseFrom { a with stdin := true } rest
    else if arg = "--tabs".toList then parseFrom { a with tabs := true } rest
    else if arg = "--indent".toList then
      match rest with
      | [] => .error (.usage "--indent expects a number")
      | raw :: rest =>
        match readIndent raw with
        | .error failure => .error failure
        | .ok n => parseFrom { a with indent := some n } rest
    else if arg = "-h".toList ∨ arg = "--help".toList then .ok { a with help := true }
    else if "--".toList.isPrefixOf arg then
      .error (.usage ("unknown option: " ++ String.ofList arg))
    else parseFrom { a with paths := a.paths ++ [arg] } rest

/-- Reads the arguments. Input and files exclude each other, and one of them is needed. -/
def parse (args : List (List Char)) : Except Failure Arguments := do
  let a ← parseFrom .none args
  if a.help then return a
  if a.stdin && !a.paths.isEmpty then throw (.usage "--stdin does not take file arguments")
  if !a.stdin && a.paths.isEmpty then throw (.usage "no input files")
  return a

def Arguments.style (a : Arguments) : Style :=
  .clamped (a.indent.getD Style.standard.indentUnit) (!a.tabs && Style.standard.useSpaces)

def fail (m : Machine) (failure : Failure) : Machine × Nat :=
  (m.tell ("error: " ++ failure.message), failure.exitCode)

def runInput (a : Arguments) (m : Machine) : Machine × Nat :=
  match Utf8.decode? m.input with
  | none => fail m (.access "<stdin>".toList .notText)
  | some text =>
    let out := formatNoted a.style text
    let shown :=
      if a.diff then Diff.unified "<stdin>".toList text out.text
      else if a.check then []
      else out.text
    ((m.note out.notes).print shown, if a.check ∧ out.text ≠ text then 1 else 0)

def runReplies (a : Arguments) (m : Machine) (failed : Bool) : List Reply → Machine × Nat
  | [] => (m, if failed then 1 else 0)
  | reply :: replies =>
    match reply.result with
    | .error failure => runReplies a (m.tell ("error: " ++ failure.message)) true replies
    | .ok o =>
      let m := if a.diff && o.isChanged then m.print o.diff else m
      if a.check then
        let m :=
          if o.isChanged && !a.diff then m.tell ("would reformat " ++ String.ofList o.path) else m
        runReplies a m (failed || o.isChanged) replies
      else
        match o.writeBack m.disk with
        | .error failure => fail m failure
        | .ok (written, disk) =>
          let m := { m with disk := disk }
          runReplies a (if written then m.note [o.writtenNote] else m) failed replies

def runFiles (a : Arguments) (m : Machine) (workers : Nat) : Machine × Nat :=
  let paths := a.paths.map Path.ofText
  let replies := Batch.formatFiles m.disk a.style paths
  runReplies a (m.noteBatch workers paths replies) false replies

def run (m : Machine) (args : List (List Char)) (workers : Nat := 0) : Machine × Nat :=
  match parse args with
  | .error failure => ((m.tell failure.message).tell usage, failure.exitCode)
  | .ok a =>
    if a.help then (m.print (usage ++ "\n").toList, 0)
    else if a.stdin then runInput a m
    else runFiles a m workers

end Single

end ScratchFormat
