/-! Tables from names to entries that keep the order in which names were first put
in. -/
namespace NilGuard

structure Table (α : Type) where
  entries : List (String × α) := []
  deriving DecidableEq, Repr, Inhabited

namespace Table

variable {α : Type}

def keys (t : Table α) : List String := t.entries.map (·.1)

def values (t : Table α) : List α := t.entries.map (·.2)

def find? (t : Table α) (key : String) : Option α := t.entries.lookup key

def contains (t : Table α) (key : String) : Bool := (t.find? key).isSome

/-- Changes the entry of a name, if there is one. -/
def modify (t : Table α) (key : String) (f : α → α) : Table α :=
  ⟨t.entries.map fun e => if e.1 = key then (e.1, f e.2) else e⟩

/-- A name that is there already takes the new entry and keeps its place. -/
def insert (t : Table α) (key : String) (a : α) : Table α :=
  if t.contains key then t.modify key fun _ => a else ⟨t.entries ++ [(key, a)]⟩

/-- Puts an entry in for a name that has none. -/
def insertIfNew (t : Table α) (key : String) (a : α) : Table α :=
  if t.contains key then t else ⟨t.entries ++ [(key, a)]⟩

end Table

end NilGuard
