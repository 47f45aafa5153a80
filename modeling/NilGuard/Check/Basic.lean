import NilGuard.Walk.Report
/-! Checks of many functions. A function whose analysis breaks off keeps what was found
before and adds a diagnostic of its own; the other functions are not touched by it. -/
namespace NilGuard

/-- The result of a check: the diagnostics in order and the number of functions that
were looked at. -/
structure Results where
  diagnostics : List Diagnostic
  checked : Nat

namespace Results

def isInternal (d : Diagnostic) : Bool := d.category == Diagnostic.internalCategory

def findings (r : Results) : List Diagnostic := r.diagnostics.filter (!isInternal ·)

def internalErrors (r : Results) : List Diagnostic := r.diagnostics.filter isInternal

def total (r : Results) : Nat := r.findings.length

def byCategory (r : Results) (category : String) : List Diagnostic :=
  r.diagnostics.filter (·.category == category)

def byFile (r : Results) (file : String) : List Diagnostic :=
  r.diagnostics.filter (·.location.file == file)

/-- All records, if each of them can be written. -/
def jsonLines? (r : Results) : Option String :=
  (r.diagnostics.mapM Diagnostic.jsonLine?).map "\n".intercalate

def text? (r : Results) : Option String :=
  (r.diagnostics.mapM Diagnostic.text?).map "\n".intercalate

/-- Counts for a reader, with the time taken in tenths of a millisecond. -/
def summary (r : Results) (tenths : Nat := 0) : String :=
  let elapsed := toString (tenths / 10) ++ "." ++ toString (tenths % 10)
  let lines :=
    ["nilnop: " ++ toString r.total ++ " finding(s) in " ++ toString r.checked ++
        " function(s) (" ++ elapsed ++ "ms)",
      "  nil arguments:         " ++ toString (r.byCategory Diagnostic.argumentCategory).length,
      "  degenerate conditions: " ++ toString (r.byCategory Diagnostic.conditionCategory).length]
  let internal :=
    if r.internalErrors.isEmpty then []
    else ["  internal errors:       " ++ toString r.internalErrors.length]
  "\n".intercalate (lines ++ internal)

end Results

namespace Function

/-- What a check reports about one function, in the order in which it is found. -/
def reports (fn : Function) (settings : Settings) : List Diagnostic :=
  let e := fn.events settings
  e.diagnostics ++
    match e.crash with
    | none => []
    | some c => [Diagnostic.internal fn.location fn.name c.message]

end Function

/-- Checks the functions that have a body, one after the other. -/
def check (settings : Settings) (fns : List Function) : Results :=
  let bodies := fns.filter Function.hasBody
  { diagnostics := Diagnostic.sort (bodies.flatMap (·.reports settings))
    checked := bodies.length }

/-- Checks every function of a program against targets. -/
def Program.check (p : Program) (targets : List Target) (reportConditions : Bool := true) :
    Except TargetError Results := do
  let resolved ← Target.resolveAll p targets
  return NilGuard.check { validator := .ofTargets resolved, reportConditions } p.functions

end NilGuard
