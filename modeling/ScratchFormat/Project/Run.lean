import ScratchFormat.Project.Arguments
import ScratchFormat.Project.Walk

/-! The commands on a project: format its files, or check that they are formatted. -/

namespace ScratchFormat

namespace Project

def usage : String :=
"usage: unifmt <command> [options] [paths...]

commands:
  fmt       Rewrite files whose formatting changes
  check     List files that would be reformatted

options:
  --manifest-path <path>  Path to unifmt.toml (defaults to nearest parent)
  --indent <n>            Columns per indentation level (1-8)
  --tabs                  Indent with tabs instead of spaces
  --diff                  Print a unified diff for every file that would change (check only)
  --color <auto|always|never>  Colorized CLI output policy
  --version               Print the version and exit
"

def version (host : Host) : String := "unifmt 0.3.2 (" ++ host.target ++ ")"

def paint (colored : Bool) (code text : String) : String :=
  if colored then "\x1b[" ++ code ++ "m" ++ text ++ "\x1b[0m" else text

def errorText (colored : Bool) (message : String) : String :=
  paint colored "31;1" ("error: " ++ message)

def warningText (colored : Bool) (message : String) : String :=
  paint colored "33;1" ("warning: " ++ message)

def headerText (colored : Bool) (text : String) : String := paint colored "36;1" text

def stepText (colored : Bool) (command : Command) (message : String) : String :=
  headerText colored ("[" ++ command.name ++ "]") ++ " " ++ message

def endText (colored : Bool) (command : Command) (code : Nat) : String :=
  stepText colored command (if code = 0 then "ok" else "failed")

def countText (n : Nat) : String := toString n ++ if n = 1 then " file" else " files"

/-- The style of a run. Arguments come before the environment, and that before the manifest. A unit
out of range is refused under the name of its source. -/
def resolveStyle (a : Arguments) (format : FormatSection) (env : Environment) :
    Except Failure Style := do
  let unitKey := Setting.key "format".toList "indentUnit".toList
  let spacesKey := Setting.key "format".toList "useSpaces".toList
  let (source, unit) ←
    match a.indent with
    | some n => pure ("--indent".toList, n)
    | none =>
      match ← Setting.lookup Setting.readCount env unitKey with
      | some n => pure (unitKey, n)
      | none =>
        pure ("format.indent_unit".toList, format.indentUnit.getD Style.standard.indentUnit)
  if unit < Style.minUnit ∨ Style.maxUnit < unit then
    throw (.setting source
      ("indent unit must be between " ++ toString Style.minUnit ++ " and " ++
        toString Style.maxUnit ++ ", got " ++ toString unit))
  let spaces ←
    if a.tabs then pure false
    else
      match ← Setting.lookup Setting.readSwitch env spacesKey with
      | some b => pure b
      | none => pure (format.useSpaces.getD Style.standard.useSpaces)
  return .clamped unit spaces

def writeFormatted (colored : Bool) (m : Machine) (o : FileOutcome) : Machine × Bool :=
  match o.writeBack m.disk with
  | .ok (_, disk) => ({ m with disk := disk }.note [o.writtenNote], true)
  | .error failure => (m.tell (errorText colored failure.message), false)

def reportText (diff : Bool) (o : FileOutcome) : List Char :=
  if diff then o.diff else o.path.shown ++ ['\n']

structure Progress where
  machine : Machine
  failed : Bool
  changed : Nat

def handle (colored : Bool) (command : Command) (diff : Bool) (p : Progress) (reply : Reply) :
    Progress :=
  match reply.result with
  | .error failure => ⟨p.machine.tell (errorText colored failure.message), true, p.changed⟩
  | .ok o =>
    if !o.isChanged then p
    else
      match command with
      | .fmt =>
        let (m, written) := writeFormatted colored p.machine o
        if written then ⟨m, p.failed, p.changed + 1⟩ else ⟨m, true, p.changed⟩
      | .check => ⟨p.machine.print (reportText diff o), true, p.changed + 1⟩

def runFiles (colored : Bool) (command : Command) (a : Arguments) (style : Style)
    (files : List Path) (m : Machine) (workers : Nat) : Machine × Nat :=
  if files.isEmpty then (m.tell (warningText colored "no files matched"), 0)
  else
    let m := m.tell (stepText colored command (countText files.length))
    let replies := Batch.formatFiles m.disk style files
    let p :=
      replies.foldl (handle colored command a.diff) ⟨m.noteBatch workers files replies, false, 0⟩
    let verb :=
      match command with
      | .fmt => "reformatted "
      | .check => "would reformat "
    (p.machine.tell (stepText colored command (verb ++ countText p.changed)),
      if p.failed then 1 else 0)

structure Plan where
  style : Style
  files : List Path
  deriving DecidableEq

def plan (a : Arguments) (m : Machine) (host : Host := .plain) : List Note × Except Failure Plan :=
  match load m.disk a.manifestPath host with
  | .error failure => ([], .error failure)
  | .ok loaded =>
    let manifest := loaded.manifest.getD .empty
    match resolveStyle a manifest.format m.environment with
    | .error failure => (loaded.notes, .error failure)
    | .ok style =>
      match loaded.folder.elim (host.workingPath m.disk) .ok with
      | .error failure => (loaded.notes, .error failure)
      | .ok base =>
        let places := targets (a.paths.map Path.ofText) manifest.files base
        let walk := search host.listing m.disk manifest.files places
        let note : Note :=
          ⟨.debug, "collected " ++ toString walk.found.length ++ " files from " ++
            toString places.length ++ " targets"⟩
        (loaded.notes ++ walk.notes ++ [note], .ok ⟨style, walk.found⟩)

def runCommand (colored : Bool) (command : Command) (a : Arguments) (m : Machine)
    (host : Host := .plain) : Machine × Nat :=
  let (notes, planned) := plan a m host
  let m := m.note notes
  let (m, code) :=
    match planned with
    | .error failure => (m.tell (errorText colored failure.message), failure.exitCode)
    | .ok p => runFiles colored command a p.style p.files m host.workers
  (m.tell (endText colored command code), code)

def runWith (command : Command) (m : Machine) (args : List (List Char)) (host : Host := .plain) :
    Machine × Nat :=
  let isOn (choice : ColorChoice) : Bool := choice.isOn m.environment m.terminal
  match parse command args with
  | .error failure =>
    let colored := isOn ((discoverColor? args).getD .auto)
    ((m.tell (errorText colored failure.message)).tell (headerText colored usage),
      failure.exitCode)
  | .ok a => runCommand (isOn (a.color.getD .auto)) command a m host

def run (m : Machine) (args : List (List Char)) (host : Host := .plain) : Machine × Nat :=
  let colored := ColorChoice.auto.isOn m.environment m.terminal
  match args with
  | [] => (m.tell (headerText colored usage), 2)
  | word :: rest =>
    if word = "fmt".toList then runWith .fmt m rest host
    else if word = "check".toList then runWith .check m rest host
    else if word = "--version".toList ∨ word = "-V".toList then
      (m.print (version host ++ "\n").toList, 0)
    else if word = "--help".toList ∨ word = "-h".toList then (m.print (usage ++ "\n").toList, 0)
    else
      ((m.tell (errorText colored ("unknown command: " ++ String.ofList word))).tell
        (headerText colored usage), 2)

end Project

end ScratchFormat
