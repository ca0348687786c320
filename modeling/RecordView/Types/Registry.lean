import RecordView.Problem
import RecordView.Text.Similarity
import RecordView.Types.Field

/-! The declared types of a compilation. -/
namespace RecordView

/-- Declared types in the order of their declaration. -/
structure Registry where
  types : List TypeInfo := []
  deriving DecidableEq, Repr

namespace Registry

def find? (r : Registry) (name : String) : Option TypeInfo := r.types.find? (·.name == name)

def contains (r : Registry) (name : String) : Bool := (r.find? name).isSome

/-- Whether a name can no longer be given to a type. -/
def taken (r : Registry) (name : String) : Bool := r.contains name || Builtin.reserved.contains name

def register (r : Registry) (t : TypeInfo) : Except Problem Registry :=
  if r.taken t.name then .error (.duplicate "type" t.name) else .ok ⟨r.types ++ [t]⟩

/-- Names of types that resemble a name. -/
def similar (r : Registry) (name : String) : List String :=
  Text.similar name (Builtin.reserved ++ r.types.map (·.name))

/-- A type and those that it extends, each before the one it extends, up to the given number. -/
def lineage (r : Registry) : Nat → TypeInfo → List TypeInfo
  | 0, t => [t]
  | n + 1, t =>
    match t.base?.bind r.find? with
    | some parent => t :: r.lineage n parent
    | none => [t]

/-- The fields of a type, inherited ones first. -/
def allFields (r : Registry) (t : TypeInfo) : List Field :=
  (r.lineage r.types.length t).reverse.flatMap (·.fields)

end Registry
end RecordView
