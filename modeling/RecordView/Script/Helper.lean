import RecordView.Script.Code

/-! Classes that accessors of arrays use. Both give indexed access to the elements of an array in a
record and check the index. -/
namespace RecordView.Script

inductive Helper where
  /-- Numbers of a fixed byte order. -/
  | numbers
  /-- Records at a fixed distance. -/
  | records
  deriving DecidableEq, Repr

namespace Helper

def name : Helper → String
  | numbers => "EndianArray"
  | records => "StructArray"

def all : List Helper := [numbers, records]

def ofName? (s : String) : Option Helper := all.find? (·.name == s)

/-- The type parameter of the class. -/
def parameter : Helper → String
  | numbers => "T extends number | bigint"
  | records => "T extends DataView"

def constructor (language : Language) : Helper → String
  | numbers =>
    match language with
    | .javascript => "constructor(view, byteOffset, length, type, bytesPerElement, littleEndian)"
    | .typescript =>
      "constructor(view: DataView, byteOffset: number, length: number, type: string, " ++
        "bytesPerElement: number, littleEndian?: boolean)"
  | records =>
    match language with
    | .javascript => "constructor(view, byteOffset, length, type, stride)"
    | .typescript =>
      "constructor(view: DataView, byteOffset: number, length: number, " ++
        "type: new (data?: ArrayBufferLike, offset?: number) => T, stride: number)"

/-- What the constructor looks up before it answers accesses. -/
def setup (language : Language) : Helper → List String
  | numbers =>
    match language with
    | .javascript => ["const getter = view[`get$\x7btype\x7d`], setter = view[`set$\x7btype\x7d`];"]
    | .typescript =>
      ["const accessors = view as unknown as Record<string, Function>;",
       "const getter = accessors[`get$\x7btype\x7d`], setter = accessors[`set$\x7btype\x7d`];"]
  | records => []

/-- Where the element with a given index starts. -/
def place : Helper → String
  | numbers => "byteOffset + (index * bytesPerElement)"
  | records => "view.byteOffset + byteOffset + (index * stride)"

def readElement (language : Language) : Helper → List String
  | numbers =>
    match language with
    | .javascript => ["return getter.call(view, offset, littleEndian);"]
    | .typescript => ["return getter.call(view, offset, littleEndian) as T;"]
  | records => ["return new type(view.buffer, offset);"]

def writeElement : Helper → List String
  | numbers => ["setter.call(view, offset, value, littleEndian);"]
  | records =>
    ["const bytes = new Uint8Array(value.buffer, value.byteOffset, " ++
       "Math.min(stride, value.byteLength));",
     "new Uint8Array(view.buffer, offset, bytes.length).set(bytes);"]

/-- The function that turns a property name into an offset, and other names into nothing. -/
def toOffset (language : Language) (h : Helper) : List String :=
  let head :=
    match language with
    | .javascript => "const toOffset = key =>"
    | .typescript => "const toOffset = (key: string | symbol): number | undefined =>"
  braced head
    ["if ((\"string\" !== typeof key) || !/^-?\\d+$/.test(key))",
     tab ++ "return undefined;",
     "const index = Number(key);",
     "if ((index < 0) || (index >= length))",
     tab ++ "throw new RangeError(`invalid index $\x7bkey\x7d`);",
     "return " ++ h.place ++ ";"] ";"

/-- The start of both access functions: a name that is no index belongs to the array object itself.
-/
def orReflect (call : String) : List String :=
  ["const offset = toOffset(key);",
   "if (undefined === offset)",
   tab ++ "return Reflect." ++ call ++ ";"]

/-- The text of a helper class. -/
def lines (language : Language) (h : Helper) : List String :=
  let declared :=
    match language with
    | .javascript => []
    | .typescript => ["[index: number]: T;", "readonly length: number;"]
  let reading :=
    braced "get(target, key, receiver)"
      (orReflect "get(target, key, receiver)" ++ h.readElement language) ","
  let writing :=
    braced "set(target, key, value, receiver)"
      (orReflect "set(target, key, value, receiver)" ++ h.writeElement ++ ["return true;"])
  braced ("class " ++ generic language h.name h.parameter) <|
    declared ++
    braced (h.constructor language)
      (["this.length = length;"] ++ h.setup language ++ h.toOffset language ++
        braced "return new Proxy(this," (reading ++ writing) ");") ++
    braced ("*[Symbol.iterator]()" ++ typeClause language "Iterator<T>")
      ["for (let i = 0; i < this.length; i++)", tab ++ "yield this[i];"]

def text (language : Language) (h : Helper) : String := Text.unlines (h.lines language) ++ "\n"

end Helper
end RecordView.Script
