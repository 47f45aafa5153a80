import NilGuard.Program.Value
/-! Nilness and facts about it. Facts are a stack: the newest fact about a value is the
one that counts. Stacks are never changed, so the blocks below different branches
can share what holds above them. -/
namespace NilGuard

/-- What is known about a value: that it is nil, that it is not, or neither. -/
inductive Nilness where
  | nonNil
  | unknown
  | nil
  deriving DecidableEq, Repr

namespace Nilness

def negate : Nilness → Nilness
  | .nonNil => .nil
  | .unknown => .unknown
  | .nil => .nonNil

def text : Nilness → String
  | .nonNil => "non-nil"
  | .unknown => "unknown"
  | .nil => "nil"

end Nilness

structure Fact where
  value : Value
  nilness : Nilness
  deriving DecidableEq, Repr

namespace Fact

def negate (f : Fact) : Fact := { f with nilness := f.nilness.negate }

/-- A fact in words, with the name that a value goes by. -/
def describe (name : Value → String) (f : Fact) : String :=
  name f.value ++ " is " ++ f.nilness.text

def text (f : Fact) : String := f.describe Value.name

/-- The same nilness for a value and for every value under its interface
conversions, the outermost first. -/
def chain (n : Nilness) : Value → List Fact
  | .converted t .changeInterface v => ⟨.converted t .changeInterface v, n⟩ :: chain n v
  | v => [⟨v, n⟩]

/-- An interface conversion is nil exactly when its operand is, so a fact holds for
each value of the chain. -/
def expand (f : Fact) : List Fact := chain f.nilness f.value

end Fact

/-- Facts, the newest first. -/
abbrev Facts := List Fact

namespace Facts

/-- Pushes facts in order, so the last one ends on top. -/
def push (s : Facts) (fs : List Fact) : Facts := fs.reverse ++ s

/-- The nilness that the newest fact about a value gives. -/
def lookup (s : Facts) (v : Value) : Nilness :=
  match s.find? (·.value = v) with
  | some f => f.nilness
  | none => .unknown

end Facts

/-- What is known about a value where the facts hold. A conversion to a non-empty array
pointer stops the program on nil, so nothing is known about its result then. Constants
other than nil are no pointers. -/
def Facts.classify (s : Facts) : Value → Nilness
  | .leaf _ (.const isNil _) => if isNil then .nil else .unknown
  | .leaf t o => if o.isNeverNil then .nonNil else s.lookup (.leaf t o)
  | .converted t .sliceToArrayPtr v =>
    if 0 < t.length then
      match s.classify v with
      | .nil => .unknown
      | _ => .nonNil
    else s.classify v
  | .converted t c v =>
    match s.classify v with
    | .unknown => s.lookup (.converted t c v)
    | n => n

end NilGuard
