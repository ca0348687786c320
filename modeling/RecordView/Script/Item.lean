import RecordView.Script.Json

/-! What stands at the top of a script: classes, enums, and text taken over as it is. -/
namespace RecordView.Script

/-- A part of the body of a class. -/
inductive Member where
  | accessor (a : Accessor)
  | verbatim (text : String)
  deriving DecidableEq, Repr

def Member.lines : Member → List String
  | accessor a => a.lines
  | verbatim text => [tab ++ text]

/-- A class for a struct or union. -/
structure ClassDecl where
  name : String
  language : Language
  /-- The name of the type that it extends. -/
  parent : Option String
  /-- The class that types extend which extend no other type. -/
  root : String
  interface : Option String
  exported : Bool
  byteLength : Nat
  flexible : Bool
  staticLength : Bool
  checked : Bool
  probed : Bool
  members : List Member
  json : Option JsonMethods
  deriving DecidableEq, Repr

namespace ClassDecl

def head (c : ClassDecl) : String :=
  let base := c.parent.getD c.root
  match c.language with
  | .javascript =>
    let mark := if c.exported then "export " else ""
    s!"{mark}class {c.name} extends {base}"
  | .typescript =>
    let clause := (c.interface.map (" implements " ++ ·)).getD ""
    s!"class {c.name} extends {base}{clause}"

def constructorHead : Language → String
  | .javascript => "constructor(data, offset, byteLength)"
  | .typescript => "constructor(data?: ArrayBufferLike, offset?: number, byteLength?: number)"

/-- Finds out the byte order of the host, once. -/
def probe : List String :=
  [s!"if (undefined === {hostVariable})",
   s!"{tab}{hostVariable} = !!new Uint8Array(new Uint16Array([1]).buffer)[0];"]

def constructorBody (c : ClassDecl) : List String :=
  let length := c.byteLength
  let default := if c.flexible then "(data.byteLength - (offset ?? 0))" else toString length
  let fresh :=
    if c.parent.isSome then s!"new ArrayBuffer({length}), 0, {length}" else s!"new ArrayBuffer({length})"
  ["if (data)",
   s!"{tab}super(data, offset ?? 0, byteLength ?? {default});",
   "else",
   s!"{tab}super({fresh});"] ++
  (if c.probed then probe else []) ++
  (if c.checked then
    [s!"if (this.byteLength < {length})",
     s!"{tab}throw new RangeError(\"{c.name} requires {length} bytes\");"]
   else [])

def lines (c : ClassDecl) : List String :=
  [c.head ++ " \x7b"] ++
  (if c.staticLength then [s!"{tab}static byteLength = {c.byteLength};", ""] else []) ++
  indent (braced (constructorHead c.language) c.constructorBody) ++
  c.members.flatMap Member.lines ++
  (c.json.map JsonMethods.lines).getD [] ++
  ["\x7d", ""]

end ClassDecl

/-- A constant as a literal. One of the languages has no truth values in enums. -/
def literal (language : Language) : Constant → Except Failure String
  | .bool b =>
    .ok <|
      match language with
      | .javascript => if b then "true" else "false"
      | .typescript => if b then "1" else "0"
  | .text s => .ok (Text.quoteAscii s)
  | .real x => .ok (Constant.style.text x)
  | .int n => Constant.decimal n
  | .absent => .ok "None"

/-- An enum with its members and their literals. -/
structure EnumDecl where
  name : String
  language : Language
  exported : Bool
  members : List (String × String)
  deriving DecidableEq, Repr

def EnumDecl.lines (e : EnumDecl) : List String :=
  match e.language with
  | .javascript =>
    let mark := if e.exported then "export " else ""
    [s!"{mark}const {e.name} = Object.freeze(\x7b"] ++
    indent (e.members.map fun (m, v) => m ++ ": " ++ v ++ ",") ++ ["\x7d);", ""]
  | .typescript =>
    braced ("enum " ++ e.name) (e.members.map fun (m, v) => m ++ " = " ++ v ++ ",") ++ [""]

inductive Item where
  | classDecl (c : ClassDecl)
  | enumDecl (e : EnumDecl)
  | verbatim (text : String)
  deriving DecidableEq, Repr

def Item.lines : Item → List String
  | classDecl c => c.lines
  | enumDecl e => e.lines
  | verbatim text => [text]

end RecordView.Script
