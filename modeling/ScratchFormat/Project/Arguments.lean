import ScratchFormat.Path
import ScratchFormat.Single

/-! The commands on a project and their arguments. -/

namespace ScratchFormat

namespace Project

inductive Command
  | fmt
  | check
  deriving DecidableEq

def Command.name : Command → String
  | fmt => "fmt"
  | check => "check"

inductive ColorChoice
  | auto
  | always
  | never
  deriving DecidableEq

namespace ColorChoice

def name : ColorChoice → String
  | auto => "auto"
  | always => "always"
  | never => "never"

def all : List ColorChoice := [auto, always, never]

def ofText? (raw : List Char) : Option ColorChoice := all.find? (·.name.toList == raw)

def read (raw : List Char) : Except Failure ColorChoice :=
  match ofText? raw with
  | some choice => .ok choice
  | none =>
    .error (.usage
      ("invalid --color value: " ++ String.ofList raw ++ " (expected auto|always|never)"))

/-- Whether messages are painted. Left to itself, colour is for terminals, and a variable can forbid
it or stand in for a terminal. -/
def isOn (choice : ColorChoice) (env : Environment) (terminal : Bool) : Bool :=
  match choice with
  | always => true
  | never => false
  | auto =>
    if (env.lookup "NO_COLOR".toList).isSome then false
    else
      match env.lookup "UNIFMT_COLOR_FORCE_TTY".toList with
      | some force => force = ['1']
      | none => terminal

end ColorChoice

def colorValue? (arg : List Char) : Option (List Char) :=
  let front := "--color=".toList
  if front.isPrefixOf arg then some (arg.drop front.length) else none

/-- The first choice of colour among arguments, whatever else they hold. -/
def discoverColor? : List (List Char) → Option ColorChoice
  | [] => none
  | arg :: rest =>
    if arg = "--color".toList then rest.head?.bind ColorChoice.ofText?
    else
      match colorValue? arg with
      | some raw => ColorChoice.ofText? raw
      | none => discoverColor? rest

structure Arguments where
  manifestPath : Option (List Char)
  indent : Option Nat
  tabs : Bool
  diff : Bool
  color : Option ColorChoice
  paths : List (List Char)
  deriving DecidableEq

def Arguments.none : Arguments := ⟨.none, .none, false, false, .none, []⟩

def parseFrom (command : Command) (a : Arguments) : List (List Char) → Except Failure Arguments
  | [] => .ok a
  | arg :: rest =>
    if arg = "--manifest-path".toList then
      match rest with
      | [] => .error (.usage "--manifest-path expects a path")
      | path :: rest => parseFrom command { a with manifestPath := some path } rest
    else if arg = "--indent".toList then
      match rest with
      | [] => .error (.usage "--indent expects a number")
      | raw :: rest =>
        match Single.readIndent raw with
        | .error failure => .error failure
        | .ok n => parseFrom command { a with indent := some n } rest
    else if arg = "--tabs".toList then parseFrom command { a with tabs := true } rest
    else if arg = "--diff".toList then
      if command = .check then parseFrom command { a with diff := true } rest
      else .error (.usage "--diff is only supported for unifmt check")
    else if arg = "--color".toList then
      match rest with
      | [] => .error (.usage "--color expects auto, always, or never")
      | raw :: rest =>
        match ColorChoice.read raw with
        | .error failure => .error failure
        | .ok choice => parseFrom command { a with color := some choice } rest
    else
      match colorValue? arg with
      | some raw =>
        match ColorChoice.read raw with
        | .error failure => .error failure
        | .ok choice => parseFrom command { a with color := some choice } rest
      | none =>
        if "--".toList.isPrefixOf arg then
          .error (.usage ("unknown option: " ++ String.ofList arg))
        else parseFrom command { a with paths := a.paths ++ [arg] } rest

def parse (command : Command) (args : List (List Char)) : Except Failure Arguments :=
  parseFrom command .none args

end Project

end ScratchFormat
