import NilGuard.Json.Writer
import NilGuard.Nilness.Basic
import NilGuard.Program.Location
/-! Diagnostics: what is reported about a function, and the order in which it is. -/
namespace NilGuard

inductive Severity where
  | error
  | warning
  | style
  | information
  deriving DecidableEq, Repr

namespace Severity

def text : Severity → String
  | .error => "error"
  | .warning => "warning"
  | .style => "style"
  | .information => "information"

def ofText? (s : String) : Option Severity :=
  [error, warning, style, information].find? (·.text == s)

end Severity

/-- One report. The evidence repeats the parts of the message for other tools. -/
structure Diagnostic where
  errorId : String
  message : String
  category : String
  location : Location
  severity : Severity := .warning
  function : String := ""
  evidence : List (String × Json) := []
  deriving Repr

namespace Diagnostic

/-- The category of nil arguments. -/
def argumentCategory : String := "nilnop"

/-- The category of comparisons with a fixed outcome. -/
def conditionCategory : String := "cond"

/-- The category of functions whose analysis broke off. -/
def internalCategory : String := "internal"

/-- A diagnostic about an argument at a position that a call has. -/
def nilArgument (location : Location) (callee : String) (position : Int) (function : String) :
    Diagnostic :=
  { errorId := "nilPassed"
    message := "nil is passed to " ++ callee ++ " (argument " ++ toString position ++ ")"
    category := argumentCategory
    location, function
    evidence := [("callee", .str callee), ("argPos", .int position)] }

/-- A diagnostic about an argument, if its position has a numeral. -/
def nilArgument? (location : Location) (callee : String) (position : Int) (function : String) :
    Option Diagnostic :=
  if Numeral.IsShort position then some (nilArgument location callee position function) else none

def condition (location : Location) (adjective : String) (x : Nilness) (operator : String)
    (y : Nilness) (function : String) : Diagnostic :=
  { errorId := if adjective = "tautological" then "condTautological" else "condImpossible"
    message := adjective ++ " condition: " ++ x.text ++ " " ++ operator ++ " " ++ y.text
    category := conditionCategory
    location, function
    severity := .style
    evidence := [("x", .str x.text), ("op", .str operator), ("y", .str y.text)] }

/-- The analysis of a function broke off. -/
def internal (location : Location) (function reason : String) : Diagnostic :=
  { errorId := "checkerInternalError"
    message := "analysis of " ++ function ++ " failed: " ++ reason
    category := internalCategory
    location, function
    severity := .information }

def json (d : Diagnostic) : Json :=
  .obj ([("file", .str d.location.file), ("linenr", .int d.location.line),
    ("column", .int d.location.column), ("severity", .str d.severity.text),
    ("message", .str d.message), ("category", .str d.category), ("errorId", .str d.errorId),
    ("function", .str d.function)] ++
    if d.evidence.isEmpty then [] else [("evidence", .obj d.evidence)])

def jsonLine? (d : Diagnostic) : Option String := d.json.line?

/-- The form in which compilers report. -/
def text? (d : Diagnostic) : Option String :=
  d.location.text?.map fun place =>
    place ++ ": " ++ d.severity.text ++ ": " ++ d.message ++ " [" ++ d.errorId ++ "]"

/-- Diagnostics are ordered by file, line, column, category and message. -/
def compare (a b : Diagnostic) : Ordering :=
  (Ord.compare a.location.file b.location.file).then <|
  (Ord.compare a.location.line b.location.line).then <|
  (Ord.compare a.location.column b.location.column).then <|
  (Ord.compare a.category b.category).then <|
  Ord.compare a.message b.message

def le (a b : Diagnostic) : Bool := (a.compare b).isLE

/-- The diagnostics in order; those that compare equal keep the order in which they
arrived. -/
def sort (ds : List Diagnostic) : List Diagnostic := ds.mergeSort le

end Diagnostic

end NilGuard
