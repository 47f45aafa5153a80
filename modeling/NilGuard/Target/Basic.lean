/-! Targets: arguments of functions and methods that must not be nil. -/
namespace NilGuard

/-- A target as a user names it. A method is named by its type and its own name with
a dot between them. The position counts from zero and leaves the receiver out. -/
structure Target where
  package : String
  function : String
  position : Int := 0
  deriving DecidableEq, Repr

def Target.text (t : Target) : String :=
  t.package ++ ":" ++ t.function ++ ":" ++ toString t.position

end NilGuard
