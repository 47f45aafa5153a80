import NilGuard.Target.Error
import NilGuard.Program.Basic
import NilGuard.Text.Split
/-! Targets bound to the functions and methods of a program. A target that names nothing
is passed over, because the program may never call it. -/
namespace NilGuard

/-- A target bound to a declared function or method. -/
structure ResolvedTarget where
  callee : Callee
  position : Int
  deriving DecidableEq, Repr

/-- The place of the argument in a call, where a receiver comes first. -/
def ResolvedTarget.argIndex (t : ResolvedTarget) : Int :=
  if t.callee.isMethod then t.position + 1 else t.position

/-- What a target names in a program. -/
inductive Resolution where
  | found (target : ResolvedTarget)
  | noFunction
  | noType
  | noMethod
  deriving DecidableEq, Repr

def Resolution.target? : Resolution → Option ResolvedTarget
  | .found t => some t
  | _ => none

namespace Target

/-- The names between the dots of a target's function. -/
def parts (t : Target) : List String := (Text.splitAt '.' t.function.toList).map String.ofList

/-- Finds the function or method that a target names. -/
def resolve (p : Program) (t : Target) : Except TargetError Resolution :=
  if t.position < 0 then .error (.negativePosition t)
  else
    match t.parts with
    | [_] =>
      match (p.package? t.package).bind (·.member? t.function) with
      | none => .ok .noFunction
      | some (.function fn) => .ok (.found ⟨fn.callee, t.position⟩)
      | some _ => .error (.notAFunction t.package t.function)
    | [type, method] =>
      match (p.package? t.package).bind (·.types.find? type) with
      | none => .ok .noType
      | some methods =>
        match methods.find? method with
        | none => .ok .noMethod
        | some fn => .ok (.found ⟨fn.callee, t.position⟩)
    | _ => .error (.tooManyDots t.function)

/-- The targets that name something, or the first error. -/
def resolveAll (p : Program) (ts : List Target) : Except TargetError (List ResolvedTarget) := do
  let rs ← ts.mapM (resolve p)
  return rs.filterMap Resolution.target?

end Target

end NilGuard
