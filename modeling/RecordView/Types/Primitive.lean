/-! Built-in types of a description and the names they go by. -/
namespace RecordView

/-- The forms of a declared type. -/
inductive Form where
  | struct
  | union
  | enum
  deriving DecidableEq, Repr

def Form.word : Form → String
  | .struct => "struct"
  | .union => "union"
  | .enum => "enum"

/-- The numeric types that a data view reads and writes. -/
inductive Primitive where
  | int8
  | uint8
  | int16
  | uint16
  | int32
  | uint32
  | float32
  | float64
  | bigInt64
  | bigUint64
  deriving DecidableEq, Repr

/-- What a numeric type holds: an integer of at most 32 bits, a fraction, or an integer of 64 bits.
-/
inductive Category where
  | integer
  | fraction
  | wide
  deriving DecidableEq, Repr

namespace Primitive

def all : List Primitive :=
  [int8, uint8, int16, uint16, int32, uint32, float32, float64, bigInt64, bigUint64]

/-- The name of the accessors of a data view, without `get` and `set`. -/
def name : Primitive → String
  | int8 => "Int8"
  | uint8 => "Uint8"
  | int16 => "Int16"
  | uint16 => "Uint16"
  | int32 => "Int32"
  | uint32 => "Uint32"
  | float32 => "Float32"
  | float64 => "Float64"
  | bigInt64 => "BigInt64"
  | bigUint64 => "BigUint64"

def bytes : Primitive → Nat
  | int8 | uint8 => 1
  | int16 | uint16 => 2
  | int32 | uint32 | float32 => 4
  | float64 | bigInt64 | bigUint64 => 8

def category : Primitive → Category
  | float32 | float64 => .fraction
  | bigInt64 | bigUint64 => .wide
  | _ => .integer

def signed : Primitive → Bool
  | uint8 | uint16 | uint32 | bigUint64 => false
  | _ => true

/-- The integers of at most 32 bits, which alone may back bit fields and enums. -/
def isInteger (p : Primitive) : Bool := p.category == .integer

/-- The script type of one element. -/
def valueType (p : Primitive) : String := if p.category == .wide then "bigint" else "number"

/-- The typed array of such elements. -/
def arrayType (p : Primitive) : String := p.name ++ "Array"

def ofName? (s : String) : Option Primitive := all.find? (·.name == s)

end Primitive

/-- A built-in type that a field may name and that stands for one number or one bit. -/
inductive Builtin where
  | number (p : Primitive)
  | boolean
  deriving DecidableEq, Repr

namespace Builtin

def name : Builtin → String
  | number p => p.name
  | boolean => "Boolean"

/-- The names of built-in types, each with the type it stands for. -/
def names : List (String × Builtin) :=
  [("int8_t", number .int8), ("uint8_t", number .uint8), ("int16_t", number .int16),
   ("uint16_t", number .uint16), ("int32_t", number .int32), ("uint32_t", number .uint32),
   ("int64_t", number .bigInt64), ("uint64_t", number .bigUint64), ("float", number .float32),
   ("double", number .float64), ("boolean", boolean), ("bool", boolean), ("Boolean", boolean)] ++
  Primitive.all.map fun p => (p.name, number p)

def ofName? (s : String) : Option Builtin := names.lookup s

/-- The type of characters and texts. -/
def char : String := "char"

/-- The type of bit fields without a declared width. -/
def uint : String := "Uint"

/-- Names that no declared type may take. -/
def reserved : List String := names.map Prod.fst ++ [char, uint]

end Builtin
end RecordView
