import NilGuard.Target.Basic
import NilGuard.Json.Reader
/-! What can be wrong with targets before any function is analysed. -/
namespace NilGuard

/-- Why a text is no target specification. -/
inductive SpecFault where
  | malformed
  | positionTooLong (count : Nat)
  deriving DecidableEq, Repr

/-- Why the contents of a file are no list of targets. -/
inductive FileFault where
  | invalidJson (error : JsonError)
  | notAList
  | notAnObject (entry : Json)
  | missingKey (key : String)
  | namesNotStrings
  | positionNotInteger (position : Json)
  deriving Repr

/-- Why targets cannot be used. -/
inductive TargetError where
  | spec (text : String) (fault : SpecFault)
  | file (path : String) (fault : FileFault)
  | negativePosition (target : Target)
  | tooManyDots (function : String)
  | notAFunction (package function : String)
  deriving Repr

def SpecFault.message : SpecFault → String
  | .malformed => "expected PKG:NAME[:POS]"
  | .positionTooLong count => "ValueError: " ++ (Json.Fault.tooManyDigits count).message

def FileFault.message : FileFault → String
  | .invalidJson e => "invalid JSON: " ++ e.message
  | .notAList => "expected a JSON list of targets"
  | .notAnObject entry => "expected an object, got " ++ entry.shown
  | .missingKey key => "missing key " ++ Text.quoted key
  | .namesNotStrings => "pkg_path and func_name must be strings"
  | .positionNotInteger position => "arg_pos must be an integer, got " ++ position.shown

def TargetError.message : TargetError → String
  | .spec text fault =>
    "malformed target specification " ++ Text.quoted text ++ ": " ++ fault.message
  | .file path fault =>
    "malformed target specification " ++ Text.quoted path ++ ": " ++ fault.message
  | .negativePosition target =>
    "invalid target " ++ target.text ++ ": argument position must not be negative"
  | .tooManyDots function => "invalid FuncName " ++ function
  | .notAFunction package function => package ++ "." ++ function ++ " is not a function."

/-- Whether the error is a fault of the configuration. An integer too long to be read
is not; it counts as a failure of the reader. -/
def TargetError.isConfiguration : TargetError → Bool
  | .file _ (.invalidJson { fault := .tooManyDigits _, .. }) => false
  | _ => true

end NilGuard
