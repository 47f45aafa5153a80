import NilGuard.Nilness.Basic
/-! Steps of a run that log as they go and may fail. The result of a step does not depend
on what is logged. -/
namespace NilGuard.Cli

inductive Level where
  | debug
  | info
  | error
  deriving DecidableEq, Repr

namespace Level

/-- The name of a level, five characters wide. -/
def text : Level → String
  | debug => "DEBUG"
  | info => "INFO "
  | error => "ERROR"

/-- Whether lines of a level are shown. Errors always are. -/
def isShown (verbosity : Nat) : Level → Bool
  | debug => 2 ≤ verbosity
  | info => 1 ≤ verbosity
  | error => true

end Level

/-- The part of a run that logs. -/
inductive Source where
  | run
  | dumps
  | targets
  | walk
  | check
  deriving DecidableEq, Repr

def Source.text : Source → String
  | run => "nilnop"
  | dumps => "nilnop.ssa_loader"
  | targets => "nilnop.targets"
  | walk => "nilnop.walker"
  | check => "nilnop.checker"

inductive Message where
  | plain (text : String)
  /-- The facts that hold from a block of a function on. -/
  | learned (function : String) (block : Int) (facts : List Fact)
  deriving DecidableEq, Repr

/-- The words of a message, with the name that a value goes by. -/
def Message.text (name : Value → String) : Message → String
  | plain text => text
  | learned function block facts =>
    function ++ " block " ++ toString block ++ ": learned " ++
      ", ".intercalate (facts.map (Fact.describe name))

structure Line where
  level : Level
  source : Source
  message : Message
  deriving DecidableEq, Repr

def Line.text (l : Line) (name : Value → String := Value.name) : String :=
  "[" ++ l.level.text ++ "] " ++ l.source.text ++ ": " ++ l.message.text name

/-- A step with the lines it logged, up to its failure if it failed. -/
structure Logged (ε α : Type) where
  lines : List Line
  result : Except ε α

namespace Logged

variable {ε α β : Type}

/-- A step that logs nothing. -/
def ofExcept (result : Except ε α) : Logged ε α := ⟨[], result⟩

def log (lines : List Line) : Logged ε Unit := ⟨lines, .ok ()⟩

def bind (x : Logged ε α) (f : α → Logged ε β) : Logged ε β :=
  match x.result with
  | .error e => ⟨x.lines, .error e⟩
  | .ok a => ⟨x.lines ++ (f a).lines, (f a).result⟩

instance : Monad (Logged ε) where
  pure a := ofExcept (.ok a)
  bind := bind

instance : MonadExceptOf ε (Logged ε) where
  throw e := ofExcept (.error e)
  tryCatch x f :=
    match x.result with
    | .ok _ => x
    | .error e => ⟨x.lines ++ (f e).lines, (f e).result⟩

@[simp]
theorem result_pure (a : α) : (pure a : Logged ε α).result = .ok a := rfl

theorem result_throw (e : ε) : (throw e : Logged ε α).result = .error e := rfl

@[simp]
theorem result_ofExcept (x : Except ε α) : (ofExcept x).result = x := rfl

@[simp]
theorem result_log (lines : List Line) : (log lines : Logged ε Unit).result = .ok () := rfl

/-- What is logged never decides what comes next. -/
@[simp]
theorem result_bind (x : Logged ε α) (f : α → Logged ε β) :
    (x >>= f).result = x.result >>= fun a => (f a).result := by
  change (bind x f).result = _
  unfold bind
  cases x.result <;> rfl

end Logged

end NilGuard.Cli
