import NilGuard.Target.Resolve
import NilGuard.Diagnostic.Basic
/-! Checks of single calls. The targets are grouped by what they name. For a call the
first target of its group whose argument the call has decides. -/
namespace NilGuard

/-- Why the analysis of a function broke off. -/
inductive Crash where
  | blockOutOfRange
  | argumentOutOfRange
  | openArgument
  deriving DecidableEq, Repr

def Crash.message : Crash → String
  | .blockOutOfRange => "list index out of range"
  | .argumentOutOfRange => "tuple index out of range"
  | .openArgument => "'NoneType' object has no attribute 'kind'"

structure Validator where
  targets : List ResolvedTarget
  groups : List (Callee × List ResolvedTarget)
  deriving Repr

namespace Validator

/-- Adds a target at the end of its group. -/
def addToGroup (t : ResolvedTarget) :
    List (Callee × List ResolvedTarget) → List (Callee × List ResolvedTarget)
  | [] => [(t.callee, [t])]
  | (c, ts) :: gs => if c = t.callee then (c, ts ++ [t]) :: gs else (c, ts) :: addToGroup t gs

def ofTargets (ts : List ResolvedTarget) : Validator :=
  { targets := ts, groups := ts.foldl (fun gs t => addToGroup t gs) [] }

/-- The targets that name a callee, in order. -/
def group (v : Validator) (c : Callee) : List ResolvedTarget := (v.groups.lookup c).getD []

/-- An argument by its index. A negative index counts from the end. -/
def argument? (args : List (Option Value)) (index : Int) : Option (Option Value) :=
  if 0 ≤ index then args[index.toNat]?
  else if 0 ≤ index + args.length then args[(index + args.length).toNat]?
  else none

/-- What came out for one call: the targets that were passed over because the call
has too few arguments, and the nil argument if there is one. -/
structure Judgement where
  skipped : List ResolvedTarget := []
  found : Except Crash (Option Int) := .ok none

/-- The first target whose argument the call has decides; the answer is the position
that it names when the argument is nil. -/
def judge (facts : Facts) (args : List (Option Value)) : List ResolvedTarget → Judgement
  | [] => {}
  | t :: ts =>
    if (args.length : Int) ≤ t.argIndex then
      let rest := judge facts args ts
      { rest with skipped := t :: rest.skipped }
    else
      match argument? args t.argIndex with
      | none => { found := .error .argumentOutOfRange }
      | some none => { found := .error .openArgument }
      | some (some v) => { found := .ok (if facts.classify v = .nil then some t.position else none) }

/-- A dynamic call is never checked. -/
def validate (v : Validator) (facts : Facts) (callee : Option Callee)
    (args : List (Option Value)) : Judgement :=
  match callee with
  | none => {}
  | some c => judge facts args (v.group c)

end Validator

end NilGuard
