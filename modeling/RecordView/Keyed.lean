/-! Names with values, in the order in which the names were first given. -/
namespace RecordView

/-- Named values. A name occurs once. -/
structure Keyed (α : Type) where
  entries : List (String × α) := []
  deriving DecidableEq, Repr

namespace Keyed
variable {α : Type}

def find? (k : Keyed α) (name : String) : Option α := k.entries.lookup name

def contains (k : Keyed α) (name : String) : Bool := (k.find? name).isSome

/-- Gives a name a value; a name that is there keeps its place and takes the new value. -/
def set (k : Keyed α) (name : String) (value : α) : Keyed α :=
  if k.contains name then ⟨k.entries.map fun e => if e.1 == name then (name, value) else e⟩
  else ⟨k.entries ++ [(name, value)]⟩

def ofList (entries : List (String × α)) : Keyed α := entries.foldl (fun k e => k.set e.1 e.2) {}

/-- The names of both, where those of the first hide those of the second. -/
def shadowing (k l : Keyed α) : Keyed α := ⟨k.entries ++ l.entries.filter fun e => !k.contains e.1⟩

end Keyed
end RecordView
