import RecordView.Declaration.Aggregate

/-! Enums and their constants. -/
namespace RecordView.Declaration

/-- An enum whose members are being read. `next` is the value of a member that is given none. -/
structure EnumDraft where
  name : Option String
  backing : Primitive
  members : List (String × Constant) := []
  next : Option Int := some 0
  deriving DecidableEq, Repr

/-- A member with its value; a member without a value may follow an integer only. -/
def EnumDraft.add (e : EnumDraft) (name : String) (value : Constant) : EnumDraft :=
  { e with
    members := e.members ++ [(name, value)]
    next :=
      match value with
      | .int n => some (n + 1)
      | _ => none }

/-- The type that a closed enum declares. -/
def EnumDraft.finish (s : Settings) (e : EnumDraft) (name : String) : TypeInfo :=
  { name, form := .enum, byteLength := e.backing.bytes,
    alignment := min s.pack.bytes e.backing.bytes, backing := some e.backing }

namespace Reader

/-- The value of a member: the expression after `=`, or one more than the member before. -/
def memberValue (e : EnumDraft) (name : Token) : Reader Constant := do
  if ← accept "=" then
    let ts ← collect [",", "\x7d"]
    let s ← surroundings
    orThrow (Expr.evaluate s.scope false ts name.location)
  else
    match e.next with
    | some n => return .int n
    | none => refuse name.location (.expression (.implicitValue name.text))

def addConstant (e : EnumDraft) (name : Token) (value : Constant) : Reader EnumDraft := do
  modify fun s => { s with constants := s.constants.set name.text value }
  return e.add name.text value

def constantEnd (e : EnumDraft) (name : Token) (value : Constant) : Reader EnumDraft := do
  if !(← accept ",") then
    if !(← check "\x7d") then unexpected (← peek) .commaOrBrace
  addConstant e name value

/-- A member of an enum and the comma after it. A refused one leaves no constant. -/
def enumerator (e : EnumDraft) : Reader EnumDraft := do
  let name ← expectName .constantName
  if (← get).constants.contains name.text then
    refuse name.location (.duplicate "enum constant" name.text)
  constantEnd e name (← memberValue e name)

/-- A member, comment or directive in the body of an enum. -/
def enumMember (e : EnumDraft) : Reader EnumDraft := do
  let t ← peek
  if t.kind = .comment then
    let _ ← advance
    comment t
    return e
  else if t.kind = .directive then
    directive
    return e
  else enumerator e

/-- One member, or the closing brace. -/
def enumeratorAt (keyword : Token) (e : EnumDraft) (t : Token) (start : Nat) :
    Reader (Round EnumDraft (Option EnumDraft)) := do
  if t.kind = .eof then
    report keyword.location (.malformed (.incomplete .enum))
    return .done none
  else if t.isSymbol "\x7d" then
    let _ ← advance
    return .done (some e)
  else return .again (← attempt t start true e (enumMember e))

def enumRound (keyword : Token) (e : EnumDraft) : Reader (Round EnumDraft (Option EnumDraft)) := do
  if (← get).report.full then return .done none
  let t ← peek
  enumeratorAt keyword e t (← get).taken

/-- The members up to the closing brace; none if the input ends before it or there are too many
errors. -/
def enumMembers (keyword : Token) (e : EnumDraft) : Reader (Option EnumDraft) :=
  rounds (enumRound keyword) e

def replaceBacking (t : Token) : Reader Primitive := do
  report t.location (.layout (.backingType t.text))
  return .int32

/-- The integer type after a colon. -/
def backingType : Reader Primitive := do
  if ← accept ":" then
    let t ← expectName .backingType
    match Builtin.ofName? t.text with
    | some (.number p) => if p.isInteger then return p
    | _ => pure ()
    replaceBacking t
  else return .int32

/-- Declares the type of a closed enum and writes its script. -/
def closeEnum (e : EnumDraft) (name : String) : Reader Unit := do
  register (e.finish (← get).settings name)
  write fun s => s.script.addEnum s.settings name e.members
  log (.enumEmitted name e.members.length)
  log (.enumeration name e.members.length e.backing)

/-- An enum whose name is taken goes on without a name. -/
def openEnum (keyword : Token) (name : Option Token) (backing : Primitive) :
    Reader (Token × EnumDraft) := do
  let registry := (← get).registry
  let free := name.filter fun t => !registry.taken t.text
  match name, free with
  | some t, none => report t.location (.duplicate "type" t.text)
  | _, _ => pure ()
  return (keyword, { name := free.map (·.text), backing })

/-- What stands before the members of an enum, through the opening brace. -/
def enumOpening : Reader (Token × EnumDraft) := do
  headed backingType (openEnum (← advance))

/-- What stands after the members of an enum. -/
def enumClosing : Option EnumDraft → Reader Unit
  | none => return ()
  | some e => do
    let _ ← accept ";"
    match e.name with
    | none => return ()
    | some name => closeEnum e name

/-- An enum. Its constants are defined even if it has no name or its name is taken. -/
def enumeration : Reader Unit := do
  let (keyword, e) ← enumOpening
  enumClosing (← enumMembers keyword e)

end Reader
end RecordView.Declaration
