/-! Values of a program in single-assignment form. A value is made once and never
changes. Every value gets a number when it is made, so two values are equal only if
they are the same value. -/
namespace NilGuard

/-- Where a value comes from that is not made from one inner value. -/
inductive Origin where
  | alloc
  | fieldAddr
  | indexAddr
  | freeVar
  | funcRef
  | global
  | makeChan
  | makeClosure
  | makeInterface
  | makeMap
  | makeSlice
  | const (isNil : Bool) (literal : String)
  | other
  deriving DecidableEq, Repr

/-- Conversions whose result is nil or not by the value they convert. -/
inductive Conversion where
  | changeInterface
  | slice
  | sliceToArrayPtr
  deriving DecidableEq, Repr

/-- The number, the given name and the array length of a value. The name is empty
when none was given. Only conversions to an array pointer look at the length. -/
structure Tag where
  id : Nat
  name : String
  length : Int := 0
  deriving DecidableEq, Repr

inductive Value where
  | leaf (tag : Tag) (origin : Origin)
  | converted (tag : Tag) (conversion : Conversion) (inner : Value)
  deriving DecidableEq, Repr

/-- What kind of value to make. -/
inductive Kind where
  | leaf (origin : Origin)
  | converted (conversion : Conversion)
  deriving DecidableEq, Repr

namespace Origin

def text : Origin → String
  | .alloc => "alloc"
  | .fieldAddr => "field-addr"
  | .indexAddr => "index-addr"
  | .freeVar => "free-var"
  | .funcRef => "func-ref"
  | .global => "global"
  | .makeChan => "make-chan"
  | .makeClosure => "make-closure"
  | .makeInterface => "make-interface"
  | .makeMap => "make-map"
  | .makeSlice => "make-slice"
  | .const .. => "const"
  | .other => "other"

/-- Values of these origins are never nil. -/
def isNeverNil : Origin → Bool
  | .const .. | .other => false
  | _ => true

end Origin

def Conversion.text : Conversion → String
  | .changeInterface => "change-interface"
  | .slice => "slice"
  | .sliceToArrayPtr => "slice-to-array-ptr"

namespace Kind

def text : Kind → String
  | .leaf o => o.text
  | .converted c => c.text

/-- Every kind, a constant standing for all constants. -/
def all : List Kind :=
  [.leaf .alloc, .leaf .fieldAddr, .leaf .indexAddr, .leaf .freeVar, .leaf .funcRef,
    .leaf .global, .leaf .makeChan, .leaf .makeClosure, .converted .changeInterface,
    .leaf .makeInterface, .leaf .makeMap, .leaf .makeSlice, .converted .slice,
    .converted .sliceToArrayPtr, .leaf (.const false ""), .leaf .other]

def ofText? (s : String) : Option Kind := all.find? (·.text == s)

end Kind

namespace Value

def tag : Value → Tag
  | .leaf t _ => t
  | .converted t _ _ => t

def id (v : Value) : Nat := v.tag.id

def kind : Value → Kind
  | .leaf _ o => .leaf o
  | .converted _ c _ => .converted c

/-- The value that a conversion converts. -/
def inner? : Value → Option Value
  | .leaf .. => none
  | .converted _ _ v => some v

/-- The name by which messages and functions know the value: the given one, or one
made from the number. -/
def name (v : Value) : String :=
  if v.tag.name = "" then "v" ++ toString v.tag.id else v.tag.name

def isNil : Value → Bool
  | .leaf _ (.const n _) => n
  | _ => false

def literal : Value → String
  | .leaf _ (.const _ s) => s
  | _ => ""

end Value

/-- Why a value cannot be made. -/
inductive ValueError where
  | noInner (conversion : Conversion)
  deriving DecidableEq, Repr

def ValueError.message : ValueError → String
  | .noInner c => c.text ++ " value requires an inner operand"

/-- Makes a value of a kind. Conversions need the value they convert; other kinds do
not keep one. -/
def Value.make (kind : Kind) (tag : Tag) (inner : Option Value) : Except ValueError Value :=
  match kind, inner with
  | .leaf o, _ => .ok (.leaf tag o)
  | .converted c, some v => .ok (.converted tag c v)
  | .converted c, none => .error (.noInner c)

end NilGuard
