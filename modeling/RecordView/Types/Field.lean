import RecordView.Types.Align
import RecordView.Types.Primitive

/-! Fields of records and the types that declarations make. -/
namespace RecordView

/-- A declared type as a field refers to it. -/
structure TypeRef where
  name : String
  byteLength : Nat
  alignedLength : Nat
  deriving DecidableEq, Repr

/-- Some bits of a word: how many, from which bit on, of a word of how many bytes. -/
structure BitSlice where
  count : Nat
  offset : Nat
  word : Nat
  boolean : Bool := false
  deriving DecidableEq, Repr

/-- The bits of a slice, moved to the end of the word. -/
def BitSlice.mask (b : BitSlice) : Nat := (1 <<< b.count) - 1

/-- What a field holds. A field without a count is no array. -/
inductive FieldKind where
  | number (p : Primitive) (count : Option Nat) (enum : Option String)
  | text (count : Option Nat)
  | bits (b : BitSlice)
  | nested (t : TypeRef) (count : Option Nat)
  | flexible (p : Primitive)
  | unresolved
  deriving DecidableEq, Repr

/-- A field and its place in the record. A padding field only takes space. -/
structure Field where
  name : String
  kind : FieldKind
  offset : Nat
  bytes : Nat
  padding : Bool := false
  line : Nat := 0
  deriving DecidableEq, Repr

/-- A declared type. -/
structure TypeInfo where
  name : String
  form : Form
  byteLength : Nat
  alignment : Nat := 1
  alignedLength : Nat := alignUp byteLength alignment
  parent : Option String := none
  fields : List Field := []
  backing : Option Primitive := none
  hasFlexible : Bool := false
  deriving DecidableEq, Repr

namespace TypeInfo

/-- Structs and unions become classes. -/
def isAggregate (t : TypeInfo) : Bool := t.form != .enum

def ref (t : TypeInfo) : TypeRef := ⟨t.name, t.byteLength, t.alignedLength⟩

/-- The name of the type that this one extends. -/
def base? (t : TypeInfo) : Option String := t.parent.filter (!·.isEmpty)

end TypeInfo
end RecordView
