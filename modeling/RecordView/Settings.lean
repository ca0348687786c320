import RecordView.Constant
import RecordView.Number.Decimal
import RecordView.Problem
import RecordView.Text.Blank

/-! Settings of a compilation: the values each of them can have, and how a named text changes one.
-/
namespace RecordView

/-- The byte order of numbers in a record. -/
inductive Endian where
  | little
  | big
  | host
  deriving DecidableEq, Repr

/-- What is known of the byte order of the machine that runs the script. -/
inductive HostEndian where
  | little
  | big
  | unknown
  deriving DecidableEq, Repr

/-- The largest alignment of a field. -/
inductive Pack where
  | one
  | two
  | four
  | eight
  | sixteen
  deriving DecidableEq, Repr

inductive Language where
  | javascript
  | typescript
  deriving DecidableEq, Repr

inductive Platform where
  | xs
  | node
  | web
  deriving DecidableEq, Repr

/-- Which end of a word the first bit field takes. -/
inductive BitOrder where
  | lsb
  | msb
  deriving DecidableEq, Repr

/-- Which comments of a description go into the script. -/
inductive Comments where
  | header
  | all
  | none
  deriving DecidableEq, Repr

/-- The text of a value in a table of names. -/
def spelling {α : Type} [BEq α] (names : List (String × α)) (a : α) : String :=
  ((names.find? (·.2 == a)).map (·.1)).getD ""

def Endian.names : List (String × Endian) := [("little", .little), ("big", .big), ("host", .host)]

def HostEndian.names : List (String × HostEndian) :=
  [("little", .little), ("big", .big), ("unknown", .unknown)]

def Pack.bytes : Pack → Nat
  | .one => 1
  | .two => 2
  | .four => 4
  | .eight => 8
  | .sixteen => 16

def Pack.ofInt? (n : Int) : Option Pack :=
  [Pack.one, .two, .four, .eight, .sixteen].find? fun p => (p.bytes : Int) == n

def Language.names : List (String × Language) :=
  [("javascript", .javascript), ("typescript", .typescript)]

/-- The suffix of the files of a language. -/
def Language.suffix : Language → String
  | .javascript => "js"
  | .typescript => "ts"

def Platform.names : List (String × Platform) := [("xs", .xs), ("node", .node), ("web", .web)]

def BitOrder.names : List (String × BitOrder) := [("lsb", .lsb), ("msb", .msb)]

def Comments.names : List (String × Comments) :=
  [("header", .header), ("true", .all), ("false", .none)]

def Endian.name (e : Endian) : String := spelling names e

def HostEndian.name (e : HostEndian) : String := spelling names e

def Language.name (l : Language) : String := spelling names l

def Platform.name (p : Platform) : String := spelling names p

def BitOrder.name (o : BitOrder) : String := spelling names o

def Comments.name (c : Comments) : String := spelling names c

/-- All settings. -/
structure Settings where
  base : String := "DataView"
  endian : Endian := .little
  hostEndian : HostEndian := .unknown
  pack : Pack := .sixteen
  language : Language := .javascript
  platform : Platform := .xs
  getters : Bool := true
  setters : Bool := true
  exported : Bool := true
  byteLength : Bool := false
  checkLength : Bool := false
  json : Bool := false
  bitOrder : BitOrder := .lsb
  comments : Comments := .header
  interface : Option String := none
  imports : List String := []
  source : Bool := true
  strictFrom : Bool := false
  deriving DecidableEq, Repr

/-- The settings that are on or off. -/
inductive Switch where
  | getters
  | setters
  | exported
  | byteLength
  | checkLength
  | json
  | source
  | strictFrom
  deriving DecidableEq, Repr

inductive Setting where
  | switch (s : Switch)
  | base
  | endian
  | hostEndian
  | pack
  | language
  | bitOrder
  | comments
  | interface
  | imports
  deriving DecidableEq, Repr

namespace Setting

/-- The names of the settings; one of them has two. -/
def names : List (String × Setting) :=
  [("get", .switch .getters), ("set", .switch .setters), ("export", .switch .exported),
   ("outputByteLength", .switch .byteLength), ("checkByteLength", .switch .checkLength),
   ("json", .switch .json), ("outputSource", .switch .source), ("strictFrom", .switch .strictFrom),
   ("extends", .base), ("endian", .endian), ("hostEndian", .hostEndian), ("pack", .pack),
   ("language", .language), ("bitfields", .bitOrder), ("comments", .comments),
   ("injectInterface", .interface), ("implements", .interface), ("import", .imports)]

/-- Settings that are fixed once a type is declared. -/
def isLeading : Setting → Bool
  | hostEndian | language => true
  | _ => false

end Setting

namespace Settings

def turn (s : Settings) (on : Bool) : Switch → Settings
  | .getters => { s with getters := on }
  | .setters => { s with setters := on }
  | .exported => { s with exported := on }
  | .byteLength => { s with byteLength := on }
  | .checkLength => { s with checkLength := on }
  | .json => { s with json := on }
  | .source => { s with source := on }
  | .strictFrom => { s with strictFrom := on }

/-- A value, or the reason why there is none. -/
def orRefuse {α : Type} (r : Refusal) : Option α → Except Refusal α
  | some a => .ok a
  | none => .error r

/-- One of a few named values. -/
def choose {α : Type} (names : List (String × α)) (name value : String) : Except Refusal α :=
  orRefuse (.notChoice name value (names.map (·.1))) (names.lookup value)

def onOff (name value : String) : Except Refusal Bool :=
  if value = "true" then .ok true
  else if value = "false" then .ok false
  else .error (.notBoolean name value)

/-- A text that may not be empty. -/
def required (r : Refusal) (value : String) : Except Refusal String :=
  if value.isEmpty then .error r else .ok value

/-- The parts of a text before and after its first slash. -/
def atSlash (value : String) : String × String :=
  let cs := value.toList
  (String.ofList (cs.takeWhile (· != '/')), String.ofList ((cs.dropWhile (· != '/')).drop 1))

open MonadExcept (ofExcept)

/-- Stores a value that is not refused. -/
def store {α : Type} (value : Except Refusal α) (put : Settings → α → Settings) :
    EStateM Refusal Settings Unit := do
  let a ← ofExcept value
  modify (put · a)

/-- Stores a language, and a platform if there is one after a slash. Both are looked up first. -/
def storeLanguage (value : String) : EStateM Refusal Settings Unit := do
  let (before, after) := atSlash value
  let language := Text.trim before
  let platform := Text.trim after
  let l ← ofExcept (orRefuse (.language language) (Language.names.lookup language))
  let p ← if platform.isEmpty then pure none
    else some <$> ofExcept (orRefuse (.platform platform) (Platform.names.lookup platform))
  modify fun s => { s with language := l }
  if let some p := p then modify fun s => { s with platform := p }

/-- Gives a setting a value that is trimmed. -/
def assign (setting : Setting) (name value : String) : EStateM Refusal Settings Unit :=
  match setting with
  | .switch w => store (onOff name value) fun s on => s.turn on w
  | .base => store (required .noClass value) fun s v => { s with base := v }
  | .endian => store (choose Endian.names name value) fun s e => { s with endian := e }
  | .hostEndian => store (choose HostEndian.names name value) fun s e => { s with hostEndian := e }
  | .pack =>
    store (orRefuse (.pack value) ((Decimal.readInt? value).bind Pack.ofInt?)) fun s p => { s with pack := p }
  | .language => storeLanguage value
  | .bitOrder => store (choose BitOrder.names name value) fun s o => { s with bitOrder := o }
  | .comments => store (choose Comments.names name value) fun s c => { s with comments := c }
  | .interface =>
    store (required (.noInterface name) value) fun s v =>
      { s with interface := if v = "none" then none else some v }
  | .imports =>
    store (required .noClause value) fun s v =>
      if s.imports.contains v then s else { s with imports := s.imports ++ [v] }

/-- Changes the named setting, or refuses. `declared` tells that a type has been declared. -/
def change (name value : String) (declared : Bool := false) : EStateM Refusal Settings Unit :=
  match Setting.names.lookup name with
  | none => throw (.unknown name)
  | some setting =>
    if setting.isLeading && declared then throw (.tooLate name)
    else assign setting name (Text.trim value)

/-- The number of this version in conditions. -/
def version : Int := 1

/-- The constants that conditions and expressions see. -/
def flags (s : Settings) : Scope :=
  .ofList
    [("__COMPILEDATAVIEW", .int version),
     ("__COMPILEDATAVIEW_" ++ s.language.name.toUpper ++ "__", .bool true),
     ("__COMPILEDATAVIEW_" ++ s.platform.name.toUpper ++ "__", .bool true)]

end Settings
end RecordView
