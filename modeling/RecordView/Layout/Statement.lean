import RecordView.Expression.Value
import RecordView.Layout.Draft
import RecordView.Types.Registry

/-! Field statements: what they declare, and when they are refused. -/
namespace RecordView

/-- A field as it is written: its type, its name, and the expressions of its count and of its bit
width. -/
structure FieldStatement where
  type : Token
  name : Token
  count : Option (List Token) := none
  bits : Option (List Token) := none
  deriving DecidableEq, Repr

/-- What the meaning of a field depends on, besides the record it is in. -/
structure Surroundings where
  settings : Settings
  registry : Registry
  constants : Scope
  padding : String

/-- The names that expressions see; a declared constant hides a flag. -/
def Surroundings.scope (s : Surroundings) : Scope := s.constants.shadowing s.settings.flags

/-- What a field statement declares. -/
inductive Content where
  | bits (count : Nat) (boolean : Bool) (declaredBytes : Nat)
  | plain (kind : FieldKind) (size alignment : Nat)
  | tail (p : Primitive)
  deriving DecidableEq, Repr

namespace FieldStatement

abbrev Resolution := Except (Halt Diagnostic)

def refuse {α : Type} (location : Location) (p : Problem) : Resolution α :=
  .error (.refused ⟨p, some location, none⟩)

/-- The number of elements of a field. -/
inductive Extent where
  | single
  | array (count : Nat)
  | unsized
  deriving DecidableEq, Repr

def Extent.isArray : Extent → Bool
  | single => false
  | _ => true

def Extent.count? : Extent → Option Nat
  | array n => some n
  | _ => none

def width? (f : FieldStatement) (s : Surroundings) : Resolution (Option Nat) :=
  match f.bits with
  | none => .ok none
  | some ts => do
    let n ← Expr.evaluateCount s.scope false ts f.name.location "bitfield width"
    if maxBits < n then refuse f.name.location (.layout (.widthOutside n)) else return some n

/-- An array without a count, or with the count `0`, is open. -/
def extent (f : FieldStatement) (s : Surroundings) : Resolution Extent :=
  match f.count with
  | none => .ok .single
  | some ts =>
    if ts.isEmpty || ts.map (·.text) == ["0"] then .ok .unsized
    else do return .array (← Expr.evaluateCount s.scope false ts f.name.location)

/-- A number, an array of numbers, an integer bit field, or an open array of bytes. -/
def number (f : FieldStatement) (s : Surroundings) (d : Draft) (p : Primitive) (enum : Option String)
    (width : Option Nat) (extent : Extent) : Resolution Content :=
  let no {α : Type} (m : Misfit) : Resolution α := refuse f.name.location (.layout m)
  match width with
  | some bits =>
    if !p.isInteger then no (.numberBits p)
    else if extent.isArray then no .bitArray
    else if p.bytes * 8 < bits then no (.bitsTooWide bits p)
    else .ok (.bits bits false p.bytes)
  | none =>
    if extent = .unsized then
      if !(p == .int8 || p == .uint8) || enum.isSome then no .flexibleElement
      else if d.inUnion then no .flexibleInUnion
      else .ok (.tail p)
    else
      let size := p.bytes * extent.count?.getD 1
      .ok (.plain (.number p extent.count? enum) size (min s.settings.pack.bytes p.bytes))

/-- A struct or union, or an array of them. -/
def nested (f : FieldStatement) (s : Surroundings) (t : TypeInfo) (width : Option Nat)
    (extent : Extent) : Resolution Content :=
  let no {α : Type} (m : Misfit) : Resolution α := refuse f.name.location (.layout m)
  if width.isSome then no (.aggregateBits f.type.text)
  else if extent = .unsized then no .flexibleElement
  else if t.hasFlexible then no (.nestedFlexible f.type.text)
  else
    let size :=
      match extent.count? with
      | some n => n * t.alignedLength
      | none => t.byteLength
    .ok (.plain (.nested t.ref extent.count?) size (min s.settings.pack.bytes t.alignment))

/-- What a statement declares by its type, after its width and extent are known. -/
def byType (f : FieldStatement) (s : Surroundings) (d : Draft) (width : Option Nat)
    (extent : Extent) : Resolution Content :=
  let no {α : Type} (m : Misfit) : Resolution α := refuse f.name.location (.layout m)
  if f.type.text = Builtin.uint then
    match width with
    | none => no (.widthMissing f.name.text)
    | some bits => if extent.isArray then no .bitArray else .ok (.bits bits false 0)
  else
    match Builtin.ofName? f.type.text with
    | some .boolean =>
      if width.isSome || extent.isArray then no .booleanShape else .ok (.bits 1 true 0)
    | some (.number p) => f.number s d p none width extent
    | none =>
      if f.type.text = Builtin.char then
        if width.isSome then no .charBits
        else if extent = .unsized then no .flexibleElement
        else .ok (.plain (.text extent.count?) (extent.count?.getD 1) 1)
      else
        match s.registry.find? f.type.text with
        | none => refuse f.type.location (.unknownType f.type.text (s.registry.similar f.type.text))
        | some t =>
          match t.form, t.backing with
          | .enum, some p => f.number s d p (some t.name) width extent
          | _, _ => f.nested s t width extent

/-- What a statement declares in a draft. The checks come in this order: nothing follows an open
array, the name is new, the width, the count, and then the type. -/
def resolve (f : FieldStatement) (s : Surroundings) (d : Draft) : Resolution Content :=
  match d.flexible with
  | some tail => refuse f.name.location (.layout (.afterFlexible tail))
  | none =>
    if d.names.contains f.name.text then refuse f.name.location (.duplicate "field" f.name.text)
    else do
      let width ← f.width? s
      let extent ← f.extent s
      f.byType s d width extent

def isPadding (f : FieldStatement) (s : Surroundings) : Bool :=
  s.padding.toList.isPrefixOf f.name.text.toList

/-- Places what a statement declares. -/
def put (f : FieldStatement) (s : Surroundings) (d : Draft) (c : Content) : Draft :=
  let named := { d with names := d.names ++ [f.name.text] }
  let padding := f.isPadding s
  match c with
  | .bits count boolean declaredBytes =>
    named.addBits s.settings ⟨f.name.text, count, boolean, declaredBytes, padding, f.name.line⟩
  | .plain kind size alignment =>
    named.place s.settings f.name.text kind size alignment padding f.name.line
  | .tail p =>
    let placed := named.place s.settings f.name.text (.flexible p) 0 1 padding f.name.line
    { placed with flexible := some f.name.text }

/-- Declares a field, or refuses and changes nothing. -/
def declare (f : FieldStatement) (s : Surroundings) (d : Draft) : Resolution Draft := do
  return f.put s d (← f.resolve s d)

end FieldStatement
end RecordView
