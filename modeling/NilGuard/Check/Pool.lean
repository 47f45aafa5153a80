import NilGuard.Check.Basic
/-! Checks by several workers. Each worker takes the function that waits longest and hands over
what it finds in its order; whose turn it is, is decided outside, by a list of choices. -/
namespace NilGuard

/-- Work under way: what waits, what is still to come from the work that has been taken up,
and what has arrived. -/
structure Pool (α : Type) where
  waiting : List (List α)
  running : List (List α) := []
  arrived : List α := []

namespace Pool

variable {α : Type}

/-- One turn. The worker of the chosen place hands over the next of what it has, or is done when
there is nothing left. Where nobody works, a worker that is free takes up what waits longest.
There is one worker at least. -/
def advance (jobs : Int) (p : Pool α) (choice : Nat) : Pool α :=
  match p.running[choice]? with
  | some (x :: rest) =>
    { p with running := p.running.set choice rest, arrived := p.arrived ++ [x] }
  | some [] => { p with running := p.running.eraseIdx choice }
  | none =>
    match p.waiting with
    | [] => p
    | work :: waiting =>
      if (p.running.length : Int) < max 1 jobs then
        { p with waiting, running := p.running ++ [work] }
      else p

/-- What has arrived, then what is to come, one piece of work after the other. -/
def order (p : Pool α) : List α := p.arrived ++ p.running.flatten ++ p.waiting.flatten

/-- The order of arrival. Turns are taken as chosen, and after the last choice in order. -/
def arrange (jobs : Int) (choices : List Nat) (work : List (List α)) : List α :=
  (choices.foldl (advance jobs) { waiting := work }).order

/-- What arrives from all of the work. One worker, or one piece of work, needs no pool. -/
def collect (jobs : Int) (choices : List Nat) (work : List (List α)) : List α :=
  if 1 < jobs ∧ 2 ≤ work.length then arrange jobs choices work else work.flatten

end Pool

/-- Checks the functions that have a body with a number of workers. -/
def checkBy (settings : Settings) (jobs : Int) (choices : List Nat) (fns : List Function) :
    Results :=
  let bodies := fns.filter Function.hasBody
  { diagnostics := Diagnostic.sort (Pool.collect jobs choices (bodies.map (·.reports settings)))
    checked := bodies.length }

/-- Checks every function of a program against targets, with a number of workers. -/
def Program.checkBy (p : Program) (targets : List Target) (reportConditions : Bool) (jobs : Int)
    (choices : List Nat) : Except TargetError Results := do
  let resolved ← Target.resolveAll p targets
  return NilGuard.checkBy { validator := .ofTargets resolved, reportConditions } jobs choices
    p.functions

end NilGuard
