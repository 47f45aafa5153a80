import NilGuard.Walk.Basic
import NilGuard.Target.Validator
/-! What a walk reports. Every visit gives its events in order: first those of its calls,
then that of the comparison at its end. -/
namespace NilGuard

/-- Something that comes up during a visit. -/
inductive Event where
  /-- A call has no argument for a target. -/
  | tooFewArguments (location : Location) (callee : Callee) (count : Nat) (index : Int)
  | nilArgument (diagnostic : Diagnostic)
  | condition (diagnostic : Diagnostic)
  /-- A comparison teaches facts to the blocks below it. -/
  | learned (block : Nat) (facts : List Fact)

def Event.diagnostic? : Event → Option Diagnostic
  | .nilArgument d | .condition d => some d
  | _ => none

/-- Events in order, up to a crash if there is one. -/
structure Events where
  events : List Event := []
  crash : Option Crash := none

namespace Events

/-- What comes after a crash is lost. -/
def append (a b : Events) : Events :=
  match a.crash with
  | some _ => a
  | none => { events := a.events ++ b.events, crash := b.crash }

def concat : List Events → Events
  | [] => {}
  | e :: es => e.append (concat es)

def diagnostics (e : Events) : List Diagnostic := e.events.filterMap Event.diagnostic?

end Events

/-- What a report covers. -/
structure Settings where
  validator : Validator
  reportConditions : Bool := true

/-- A comparison with a fixed outcome always holds or never does. -/
def Comparison.adjective (c : Comparison) (x y : Nilness) : String :=
  if (x == y) == (c.operator == "==") then "tautological" else "impossible"

namespace Function

/-- The events of one instruction. Only calls have any. -/
def callEvents (fn : Function) (settings : Settings) (facts : Facts) (i : Instr) : Events :=
  match i.op with
  | .call _ (some c) args =>
    let j := settings.validator.validate facts (some c) args
    let skipped := j.skipped.map fun t =>
      Event.tooFewArguments i.location c args.length t.argIndex
    match j.found with
    | .error crash => { events := skipped, crash := some crash }
    | .ok none => { events := skipped }
    | .ok (some position) =>
      { events := skipped ++
          [.nilArgument (Diagnostic.nilArgument i.location c.display position fn.name)] }
  | _ => {}

/-- The events of the comparison at the end of a visit. -/
def lessonEvents (fn : Function) (settings : Settings) (v : Visit) : List Event :=
  match fn.lesson v with
  | .nothing => []
  | .fixed c x y =>
    if settings.reportConditions && c.location.isKnown then
      [.condition (Diagnostic.condition c.location (c.adjective x y) x c.operator y fn.name)]
    else []
  | .learned _ other => [.learned v.block (Fact.expand ⟨other, .nil⟩)]

def visitEvents (fn : Function) (settings : Settings) (v : Visit) : Events :=
  (Events.concat ((fn.instrs v.block).map (fn.callEvents settings v.facts))).append
    { events := fn.lessonEvents settings v }

/-- The events of a whole walk. -/
def events (fn : Function) (settings : Settings) : Events :=
  let trail := fn.walk
  (Events.concat (trail.visits.map (fn.visitEvents settings))).append
    { crash := if trail.complete then none else some .blockOutOfRange }

/-- The diagnostics of a function in the order of the walk. -/
def findings (fn : Function) (settings : Settings) : List Diagnostic :=
  (fn.events settings).diagnostics

end Function

end NilGuard
