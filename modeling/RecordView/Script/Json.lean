import RecordView.Script.Accessor

/-! Methods that turn a record into plain values and back. -/
namespace RecordView.Script

/-- What the methods of a class cover: the fields, inherited ones first and without padding. A
strict reader needs all of them. -/
structure JsonMethods where
  className : String
  fields : List Field
  language : Language
  strict : Bool
  deriving DecidableEq, Repr

namespace JsonMethods

/-- The value of a field in the result. -/
def written (f : Field) : String :=
  match f.kind with
  | .nested _ none => s!"this.{f.name}.toJSON()"
  | .nested _ (some _) => s!"Array.from(this.{f.name}, item => item.toJSON())"
  | .flexible _ | .number _ (some _) _ => s!"Array.from(this.{f.name})"
  | _ => s!"this.{f.name}"

def isFlexible (f : Field) : Bool :=
  match f.kind with
  | .flexible _ => true
  | _ => false

/-- The fields that can be assigned. -/
def assignable (m : JsonMethods) : List Field := m.fields.filter (!isFlexible ·)

/-- The type of a field in the argument of a strict reader. -/
def argumentType (f : Field) : String :=
  match f.kind with
  | .number p none enum => elementType p enum
  | .number p (some _) enum => "ArrayLike<" ++ elementType p enum ++ ">"
  | .bits b => if b.boolean then "boolean" else "number"
  | .nested _ none => "object"
  | .nested _ (some _) => "ArrayLike<object>"
  | _ => "string"

def argument (m : JsonMethods) : String :=
  if !m.strict then "object"
  else
    let members := m.assignable.map fun f => f.name ++ ": " ++ argumentType f ++ ";"
    if members.isEmpty then "\x7b\x7d" else "\x7b " ++ " ".intercalate members ++ " \x7d"

def readerHead (m : JsonMethods) : String :=
  match m.language with
  | .javascript => "static from(obj)"
  | .typescript => s!"static from(obj: {m.argument}): {m.className}"

/-- Where a field is found in the argument. -/
def source (m : JsonMethods) (f : Field) : String :=
  match m.language, m.strict with
  | .typescript, false => s!"(<{m.className}> obj).{f.name}"
  | _, _ => s!"obj.{f.name}"

/-- What is assigned to a field. -/
def read (m : JsonMethods) (f : Field) : String :=
  let source := m.source f
  match f.kind with
  | .nested t none => s!"{t.name}.from({source})"
  | .nested t (some _) =>
    let item :=
      match m.language with
      | .javascript => "item"
      | .typescript => "(item: object)"
    s!"Array.from({source}, {item} => {t.name}.from(item))"
  | _ => source

def assignment (m : JsonMethods) (f : Field) : String :=
  let assigned := s!"result.{f.name} = {m.read f};"
  if m.strict then assigned else s!"if (\"{f.name}\" in obj) {assigned}"

def writer (m : JsonMethods) : List String :=
  braced ("toJSON()" ++ typeClause m.language "object")
    (braced "return" (m.fields.map fun f => f.name ++ ": " ++ written f ++ ",") ";")

def reader (m : JsonMethods) : List String :=
  braced m.readerHead
    ([s!"const result = new {m.className};"] ++ m.assignable.map m.assignment ++ ["return result;"])

/-- The lines of both methods in the body of a class. -/
def lines (m : JsonMethods) : List String := indent (m.writer ++ m.reader)

end JsonMethods
end RecordView.Script
