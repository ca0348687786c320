import RecordView.Declaration.Directive

/-! Structs and unions. -/
namespace RecordView.Declaration

/-- The words that start declarations. -/
def keywords : List String := ["struct", "union", "enum", "typedef"]

/-- What the header of a declaration leads to: the draft, discarded if the header is wrong, and the
errors and remarks. -/
structure Header where
  draft : Draft
  errors : List (Location × Problem) := []
  notes : List Note := []

namespace Header

def discard (h : Header) (location : Location) (p : Problem) : Header :=
  { h with draft := { h.draft with discarded := true }, errors := h.errors ++ [(location, p)] }

/-- A declaration that is no typedef has a name that is not taken. -/
def withName (h : Header) (registry : Registry) (name : Option Token) : Header :=
  if h.draft.typedef then h
  else
    match name with
    | none =>
      let p := if h.draft.form = .union then Malformed.unionOutside else .unnamedStruct
      let h := h.discard h.draft.location (.malformed p)
      { h with notes := h.notes ++ [.unnamed h.draft.location h.draft.form] }
    | some t => if registry.taken t.text then h.discard t.location (.duplicate "type" t.text) else h

/-- A struct may extend a struct or union that does not end in an open array. -/
def withParent (h : Header) (registry : Registry) (parent : Option Token) : Header :=
  match parent with
  | none => h
  | some t =>
    match (registry.find? t.text).filter (·.isAggregate) with
    | none => h.discard t.location (.unknownType t.text (registry.similar t.text))
    | some p =>
      if p.hasFlexible then h.discard t.location (.layout (.extendsFlexible p.name))
      else if h.draft.form = .union then h.discard t.location (.malformed .unionParent)
      else { h with draft := h.draft.extend p (registry.allFields p) }

/-- The header that starts with the given keyword, name and parent. A typedef gets its name later. -/
def of (registry : Registry) (form : Form) (typedef : Bool) (keyword : Token)
    (name parent : Option Token) : Header :=
  let given := if typedef then none else name.map (·.text)
  let bare : Header := { draft := .empty given form keyword.location typedef }
  (bare.withName registry name).withParent registry parent

end Header

namespace Reader

/-- Writes to the script, or fails. -/
def write (f : State → Except Failure Script) : Reader Unit := do
  let s ← get
  set { s with script := ← orFail (f s) }

/-- Does what placing members led to: fields get accessors, remarks are logged. -/
def perform (steps : List Step) : Reader Unit :=
  steps.forM fun
    | .field f => write fun s => s.script.addField s.settings f
    | .note n => log n

/-- Takes over what a change of a draft led to. -/
def advanceTo (before after : Draft) : Reader Unit := perform (after.steps.drop before.steps.length)

def surroundings : Reader Surroundings := do
  let s ← get
  return ⟨s.settings, s.registry, s.constants, (← read).padding⟩

/-- The width before the name of a bit field: one token, or an expression in parentheses. -/
def leadingWidth (type : Token) : Reader (Option (List Token)) := do
  if type.text ≠ Builtin.uint then return none
  else if ← accept ":" then
    if ← check "(" then
      let opening ← advance
      let inner ← collect [")"]
      let closing ← expect ")"
      return some (opening :: inner ++ [closing])
    else return some [← advance]
  else return none

/-- A field statement behind its type and the width before its name. -/
def fieldRest (type : Token) (width : Option (List Token)) : Reader FieldStatement := do
  let name ← expectName .fieldName
  let statement ←
    if ← accept "[" then do
      let count ← collect ["]"]
      let _ ← expect "]"
      pure (⟨type, name, some count, width⟩ : FieldStatement)
    else if ← check ":" then do
      if width.isSome then refuse (← peek).location (.malformed .bitCountTwice)
      let _ ← advance
      let bits ← collect [";"]
      pure ⟨type, name, none, some bits⟩
    else pure ⟨type, name, none, width⟩
  let _ ← expectAs ";" (.semicolonAfterField name.text)
  return statement

def fieldStatement : Reader FieldStatement := do
  let type ← advance
  fieldRest type (← leadingWidth type)

def field (d : Draft) : Reader Draft := do
  let statement ← fieldStatement
  let d' ← orThrow (statement.declare (← surroundings) d)
  advanceTo d d'
  return d'

/-- A token of a declaration that is skipped, in so many braces. -/
def nestedRound (depth : Nat) : Reader (Round Nat Unit) := do
  let t ← peek
  if t.kind = .eof then return .done ()
  let _ ← advance
  if t.isSymbol ";" && depth == 0 then return .done ()
  else if t.isSymbol "\x7b" then return .again (depth + 1)
  else if t.isSymbol "\x7d" then
    if depth ≤ 1 then
      let _ ← accept ";"
      return .done ()
    else return .again (depth - 1)
  else return .again depth

/-- Skips a declaration through its closing brace and a semicolon. -/
def skipNested : Reader Unit := rounds nestedRound 0

def openUnion (d : Draft) : Reader Draft := do
  let keyword ← advance
  let _ ← advance
  if d.inUnion then refuse keyword.location (.malformed .nestedUnion)
  let d' := d.openUnion (← get).settings
  advanceTo d d'
  return d'

/-- Whether the next token, a name, starts an anonymous union. -/
def startsUnion (t : Token) : Reader Bool := do
  if t.text = "union" then return (← peekSecond).isSymbol "\x7b" else return false

/-- A member of a struct or union. -/
def member (d : Draft) : Reader Draft := do
  let t ← peek
  if t.kind = .comment then
    let _ ← advance
    comment t
    return d
  else if t.kind = .directive then
    directive
    return d
  else if t.isSymbol ";" then
    let _ ← advance
    return d
  else if t.kind = .other then refuse t.location (.malformed (.strayCharacter t.text))
  else if t.kind ≠ .identifier then unexpected t .fieldDeclaration
  else if ← startsUnion t then openUnion d
  else if keywords.contains t.text then do
    skipNested
    refuse t.location (.malformed (.nestedDeclaration t.text))
  else field d

/-- The end of an anonymous union, which must not be empty. -/
def unionEnd (brace : Token) (filled : Bool) : Reader Unit := do
  let _ ← expectAs ";" .semicolonAfterUnion
  if !filled then refuse brace.location (.layout .emptyUnion)

/-- The closing brace of an anonymous union, which has been taken. -/
def closeUnion (d : Draft) (brace : Token) (start : Nat) : Reader Draft := do
  let (d', filled) := d.closeUnion (← get).settings
  advanceTo d d'
  attempt brace start false () (unionEnd brace filled)
  return d'

/-- One member, or a closing brace: of an anonymous union, or else of the whole body. Its first token is next,
before which `start` tokens were taken. -/
def memberAt (d : Draft) (t : Token) (start : Nat) : Reader (Round Draft (Option Draft)) := do
  if t.kind = .eof then
    report d.location (.malformed (.incomplete d.form))
    return .done none
  else if t.isSymbol "\x7d" then
    let _ ← advance
    if d.inAnonymousUnion then return .again (← closeUnion d t start)
    else
      let d' := d.flush (← get).settings
      advanceTo d d'
      return .done (some d')
  else return .again (← attempt t start false d (member d))

def memberRound (d : Draft) : Reader (Round Draft (Option Draft)) := do
  if (← get).report.full then return .done none
  let t ← peek
  memberAt d t (← get).taken

/-- The members up to the closing brace; none if the input ends before it or there are too many
errors. -/
def members (d : Draft) : Reader (Option Draft) := rounds memberRound d

/-- The name after the closing brace of a typedef. -/
def typedefName (d : Draft) : Reader Draft := do
  let t ← peek
  if t.kind ≠ .identifier then
    report t.location (.malformed .typedefName)
    return { d with discarded := true }
  let _ ← advance
  if (← get).registry.taken t.text then
    report t.location (.duplicate "type" t.text)
    return { d with discarded := true }
  return { d with name := some t.text }

def discardClass : Reader Unit := modify fun s => { s with script := s.script.discardClass }

/-- Adds a type to the declared ones. -/
def register (t : TypeInfo) : Reader Unit := do
  let s ← get
  match s.registry.register t with
  | .ok registry => set { s with registry }
  | .error p => throw (.refused ⟨p, none, none⟩)

/-- Warns of a type without a field that can be accessed. -/
def warnOfPadding (d : Draft) (t : TypeInfo) : Reader Unit := do
  if !t.fields.isEmpty && t.fields.all (·.padding) then
    let message := s!"'{t.name}' has only padding fields"
    modify fun s => { s with report := s.report.warn ⟨message, some d.location⟩ }
    log (.onlyPadding d.location t.name)

/-- Declares the type of a closed draft and writes its class. -/
def closeAggregate (d : Draft) : Reader Unit := do
  match d.discarded, d.name with
  | false, some name =>
    match d.finish (← get).settings name with
    | none =>
      discardClass
      refuse d.location (.layout (.empty d.form name))
    | some t =>
      register t
      write fun s => s.script.closeClass s.settings s.registry t
      log (.classEmitted t.name t.byteLength)
      warnOfPadding d t
      log (.aggregate t.form t.name t.byteLength t.alignment)
  | _, _ => discardClass

/-- The name of a declaration, which may be left out. -/
def declaredName : Reader (Option Token) := do
  if (← peek).kind = .identifier then some <$> advance else return none

/-- The name of the type that a declaration extends, after a colon. -/
def parentName : Reader (Option Token) := do
  if ← accept ":" then some <$> expectName .parentName else return none

/-- The head of a declaration behind its keyword: the name, what may follow it, and what is done behind the
brace. -/
def headed {β γ : Type} (x : Reader β) (k : Option Token → β → Reader γ) : Reader γ := do
  let name ← declaredName
  let b ← x
  let _ ← expect "\x7b"
  modify fun s => { s with declared := true }
  k name b

def openBody (form : Form) (typedef : Bool) (keyword : Token) (name parent : Option Token) :
    Reader Draft := do
  let header := Header.of (← get).registry form typedef keyword name parent
  header.errors.forM fun (location, p) => report location p
  header.notes.forM log
  modify fun s => { s with script := s.script.openClass header.draft.name }
  log (.opened keyword.line keyword.text header.draft.name)
  return header.draft

/-- What stands before the members of a struct or union, through the opening brace. -/
def opening (form : Form) (typedef : Bool) : Reader Draft := do
  headed parentName (openBody form typedef (← advance))

def bodyEnd (d : Draft) : Reader Unit := do
  let _ ← accept ";"
  closeAggregate d

/-- What stands after the members. -/
def closing (typedef : Bool) : Option Draft → Reader Unit
  | none => discardClass
  | some d => do
    bodyEnd (← if typedef then typedefName d else pure d)

/-- A struct, a union, or a typedef of one of them. -/
def aggregate (form : Form) (typedef : Bool) : Reader Unit := do
  let d ← opening form typedef
  closing typedef (← members d)

end Reader
end RecordView.Declaration
