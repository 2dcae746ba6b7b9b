import ScratchFormat.Path

/-! What can go wrong outside the formatter, with the wording of each case. -/

namespace ScratchFormat

inductive FileFault
  | notFound
  | notFolder
  | isFolder
  | notText
  | other (text : String)
  deriving DecidableEq

def FileFault.message : FileFault → String
  | notFound => "No such file or directory (os error 2)"
  | notFolder => "Not a directory (os error 20)"
  | isFolder => "Is a directory (os error 21)"
  | notText => "stream did not contain valid UTF-8"
  | other text => text

inductive Failure
  | access (path : Path) (fault : FileFault)
  | manifest (path : Path) (message : String)
  | setting (key : List Char) (message : String)
  | usage (message : String)
  deriving DecidableEq

namespace Failure

def message : Failure → String
  | access path fault => "failed to access " ++ String.ofList path ++ ": " ++ fault.message
  | manifest path text => "invalid manifest " ++ String.ofList path ++ ": " ++ text
  | setting key text => "invalid value for " ++ String.ofList key ++ ": " ++ text
  | usage text => text

/-- The exit code of a command that fails: two for a mistake in its arguments, else one. -/
def exitCode : Failure → Nat
  | usage _ => 2
  | _ => 1

end Failure

end ScratchFormat
