import RecordView.Constant
import RecordView.Script.Bits
import RecordView.Script.Helper

/-! Accessors: the getter and the setter of a field. -/
namespace RecordView.Script

/-- The byte order of an access; the order of the host is found out when the script runs. -/
inductive ByteOrder where
  | little
  | big
  | host
  deriving DecidableEq, Repr

def ByteOrder.text : ByteOrder → String
  | little => "true"
  | big => "false"
  | host => hostVariable

def ByteOrder.ofSettings (s : Settings) : ByteOrder :=
  match s.endian, s.hostEndian with
  | .little, _ => .little
  | .big, _ => .big
  | .host, .little => .little
  | .host, .big => .big
  | .host, .unknown => .host

/-- The size of the words that bit fields are in. -/
inductive WordSize where
  | byte
  | half
  | full
  deriving DecidableEq, Repr

namespace WordSize

def bytes : WordSize → Nat
  | byte => 1
  | half => 2
  | full => 4

def ofBytes? (n : Nat) : Option WordSize := [byte, half, full].find? (·.bytes == n)

/-- The unsigned integer type of a word. -/
def type : WordSize → Primitive
  | byte => .uint8
  | half => .uint16
  | full => .uint32

end WordSize

/-- The way in which a field is read and written. `element` is the type of a number in the script.
-/
inductive Shape where
  | number (p : Primitive) (element : String)
  | nativeArray (p : Primitive) (count : Nat) (element : String)
  | orderedArray (p : Primitive) (count : Nat) (element : String)
  | character
  | text (count : Nat) (platform : Platform)
  | bits (size : WordSize) (b : BitSlice)
  | view (t : TypeRef)
  | viewArray (t : TypeRef) (count : Nat)
  | bytesTail (p : Primitive)
  deriving DecidableEq, Repr

structure Accessor where
  name : String
  offset : Nat
  order : ByteOrder
  shape : Shape
  language : Language
  readable : Bool
  writable : Bool
  deriving DecidableEq, Repr

namespace Accessor

/-- The width of the numbers that the accessor moves, one where their byte order does not matter. -/
def width (a : Accessor) : Nat :=
  match a.shape with
  | .number p _ | .nativeArray p _ _ | .orderedArray p _ _ => p.bytes
  | .bits size _ => size.bytes
  | _ => 1

/-- Whether the accessor depends on the byte order of the host. -/
def probesHost (a : Accessor) : Bool := a.order == .host && a.width != 1

def helper? (a : Accessor) : Option Helper :=
  match a.shape with
  | .orderedArray .. => some .numbers
  | .viewArray .. => some .records
  | _ => none

/-- The last argument of an access: the byte order, left out for single bytes. -/
def orderArgument (a : Accessor) : String := if a.width = 1 then "" else ", " ++ a.order.text

/-- The place of the field in the buffer. -/
def bufferOffset (a : Accessor) : String :=
  if a.offset = 0 then "this.byteOffset" else s!"this.byteOffset + {a.offset}"

/-- The type that the getter returns. -/
def getType (a : Accessor) : String :=
  match a.shape with
  | .number _ element => element
  | .nativeArray p .. => p.arrayType
  | .orderedArray p .. => generic a.language Helper.numbers.name p.valueType
  | .character | .text .. => "string"
  | .bits _ b => if b.boolean then "boolean" else "number"
  | .view t => t.name
  | .viewArray t _ => generic a.language Helper.records.name t.name
  | .bytesTail p => p.arrayType

/-- The type that the setter takes. -/
def setType (a : Accessor) : String :=
  match a.shape with
  | .number _ element => element
  | .nativeArray _ _ element | .orderedArray _ _ element => "ArrayLike<" ++ element ++ ">"
  | .character | .text .. => "string"
  | .bits _ b => if b.boolean then "boolean" else "number"
  | .view t => t.name
  | .viewArray t _ => "ArrayLike<" ++ t.name ++ ">"
  | .bytesTail _ => "ArrayLike<number>"

/-- A view of the bytes of a text. -/
def textBytes (a : Accessor) (count : Nat) : String :=
  s!"new Uint8Array(this.buffer, {a.bufferOffset}, {count})"

/-- A view of all bytes from the field to the end. -/
def tailBytes (a : Accessor) (p : Primitive) : String :=
  s!"new {p.arrayType}(this.buffer, {a.bufferOffset}, this.byteLength - {a.offset})"

def readCall (a : Accessor) (p : Primitive) : String :=
  s!"this.get{p.name}({a.offset}{a.orderArgument})"

def writeCall (a : Accessor) (p : Primitive) (value : String) : String :=
  s!"this.set{p.name}({a.offset}, {value}{a.orderArgument});"

def decoded : Platform → String
  | .xs => "String.fromArrayBuffer(bytes.slice(0, end).buffer)"
  | _ => "new TextDecoder().decode(bytes.subarray(0, end))"

def encoded : Platform → String
  | .xs => "new Uint8Array(ArrayBuffer.fromString(value))"
  | _ => "new TextEncoder().encode(value)"

def getBody (a : Accessor) : List String :=
  match a.shape with
  | .number p _ => ["return " ++ a.readCall p ++ ";"]
  | .nativeArray p count _ =>
    [s!"return new {p.arrayType}(this.buffer, {a.bufferOffset}, {count});"]
  | .orderedArray p count _ =>
    [s!"return new {a.getType}(this, {a.offset}, {count}, \"{p.name}\", {p.bytes}{a.orderArgument});"]
  | .character => [s!"return String.fromCharCode(this.getUint8({a.offset}));"]
  | .text count platform =>
    ["const bytes = " ++ a.textBytes count ++ ";",
     "let end = bytes.indexOf(0);",
     "if (end < 0)",
     s!"{tab}end = {count};",
     "return " ++ decoded platform ++ ";"]
  | .bits size b => ["return " ++ (access b).get.text (a.readCall size.type) ++ ";"]
  | .view t => [s!"return new {t.name}(this.buffer, {a.bufferOffset});"]
  | .viewArray t count =>
    [s!"return new {a.getType}(this, {a.offset}, {count}, {t.name}, {t.alignedLength});"]
  | .bytesTail p => ["return " ++ a.tailBytes p ++ ";"]

/-- Writes the elements of an array of numbers one after another. -/
def elementLoop (a : Accessor) (p : Primitive) (count : Nat) : List String :=
  [s!"for (let i = 0, j = {a.offset}; i < {count}; i++, j += {p.bytes})",
   s!"{tab}this.set{p.name}(j, value[i]{a.orderArgument});"]

def setBody (a : Accessor) : List String :=
  match a.shape with
  | .number p _ => [a.writeCall p "value"]
  | .nativeArray p count _ | .orderedArray p count _ => a.elementLoop p count
  | .character => [s!"this.setUint8({a.offset}, value.charCodeAt(0));"]
  | .text count platform =>
    ["const encoded = " ++ encoded platform ++ ";",
     s!"if (encoded.byteLength > {count})",
     tab ++ "throw new Error(\"too long\");",
     "const bytes = " ++ a.textBytes count ++ ";",
     "bytes.set(encoded);",
     "bytes.fill(0, encoded.byteLength);"]
  | .bits size b =>
    let word := a.readCall size.type
    let first := (access b).temp.toList.map fun t => "const t = " ++ t.text word ++ ";"
    first ++ [a.writeCall size.type ((access b).set.text word)]
  | .view t =>
    [s!"for (let i = 0; i < {t.byteLength}; i++)",
     s!"{tab}this.setUint8(i + {a.offset}, value.getUint8(i));"]
  | .viewArray _ count =>
    [s!"const items = this.{a.name};",
     s!"for (let i = 0; i < {count}; i++)",
     tab ++ "items[i] = value[i];"]
  | .bytesTail p =>
    ["const bytes = " ++ a.tailBytes p ++ ";",
     "if (value.length > bytes.length)",
     tab ++ "throw new RangeError(\"too long\");",
     "bytes.set(value);"]

def getter (a : Accessor) : List String :=
  braced s!"get {a.name}(){typeClause a.language a.getType}" a.getBody

def setter (a : Accessor) : List String :=
  braced s!"set {a.name}(value{typeClause a.language a.setType})" a.setBody

/-- The lines of an accessor in the body of a class. -/
def lines (a : Accessor) : List String :=
  indent ((if a.readable then a.getter else []) ++ (if a.writable then a.setter else []))

/-- The sizes that stand in the text. -/
def sizes (a : Accessor) : List Nat :=
  a.offset ::
    match a.shape with
    | .nativeArray _ count _ | .orderedArray _ count _ | .text count _ => [count]
    | .view t => [t.byteLength]
    | .viewArray t count => [count, t.alignedLength]
    | _ => []

end Accessor

/-- Whether an array of numbers can be seen through a typed array of the script: the layout keeps
the elements aligned, and their byte order is that of the host. Single bytes always can. -/
def isNative (s : Settings) (p : Primitive) (offset : Nat) : Bool :=
  if p.bytes = 1 then true
  else if s.pack.bytes < p.bytes || offset % p.bytes != 0 then false
  else
    match s.endian, s.hostEndian with
    | .host, _ | .little, .little | .big, .big => true
    | _, _ => false

/-- The type of a number in the script: that of its enum, or a plain one. -/
def elementType (p : Primitive) (enum : Option String) : String :=
  (enum.filter (!·.isEmpty)).getD p.valueType

/-- How a field is accessed under some settings. -/
def shape (s : Settings) (f : Field) : Except Failure Shape :=
  match f.kind with
  | .number p none enum => .ok (.number p (elementType p enum))
  | .number p (some count) enum =>
    .ok (if isNative s p f.offset then .nativeArray p count (elementType p enum)
         else .orderedArray p count (elementType p enum))
  | .text none => .ok .character
  | .text (some count) => .ok (.text count s.platform)
  | .bits b =>
    match WordSize.ofBytes? b.word with
    | some size => .ok (.bits size b)
    | none => .error .wordSize
  | .nested t none => .ok (.view t)
  | .nested t (some count) => .ok (.viewArray t count)
  | .flexible p => .ok (.bytesTail p)
  | .unresolved => .error .unresolvedField

/-- The accessor of a field. -/
def accessor (s : Settings) (f : Field) : Except Failure Accessor := do
  let a : Accessor :=
    ⟨f.name, f.offset, .ofSettings s, ← shape s f, s.language, s.getters, s.setters⟩
  if a.sizes.all (Decimal.writable ·) then return a else throw .tooManyDigits

end RecordView.Script
