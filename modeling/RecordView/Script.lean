import RecordView.Script.Item
import RecordView.Types.Registry

/-! The script that is written while types are declared, and its text. -/
namespace RecordView

open Script in
/-- A class whose members are still coming. -/
structure OpenClass where
  name : Option String
  members : List Member := []
  /-- Whether a member depends on the byte order of the host. -/
  probed : Bool := false
  deriving DecidableEq, Repr

open Script in
/-- A script: what stands at its top, the open class, the helpers and the host variable that it
needs, and the exported names. -/
structure Script where
  items : List Item := []
  current : Option OpenClass := none
  helpers : List Helper := []
  host : Bool := false
  exports : List String := []
  deriving DecidableEq, Repr

namespace Script

/-- Takes text over as it is, into the open class or at the top. -/
def verbatim (s : Script) (text : String) : Script :=
  match s.current with
  | some c => { s with current := some { c with members := c.members ++ [.verbatim text] } }
  | none => { s with items := s.items ++ [.verbatim text] }

def openClass (s : Script) (name : Option String) : Script := { s with current := some { name } }

def discardClass (s : Script) : Script := { s with current := none }

/-- Adds an accessor to the open class, and notes what it needs. -/
def addAccessor (s : Script) (c : OpenClass) (a : Accessor) : Script :=
  { s with
    current :=
      some { c with members := c.members ++ [.accessor a], probed := c.probed || a.probesHost }
    helpers :=
      a.helper?.toList.foldl (fun hs h => if hs.contains h then hs else hs ++ [h]) s.helpers
    host := s.host || a.probesHost }

/-- Adds the accessor of a field to the open class. A padding field has none. -/
def addField (s : Script) (settings : Settings) (f : Field) : Except Failure Script :=
  match s.current with
  | none => .ok s
  | some c => if f.padding then .ok s else do return s.addAccessor c (← accessor settings f)

/-- The class of a type with the given members. -/
def classOf (settings : Settings) (registry : Registry) (t : TypeInfo) (c : OpenClass) :
    ClassDecl :=
  { name := t.name
    language := settings.language
    parent := t.base?
    root := settings.base
    interface := settings.interface
    exported := settings.exported
    byteLength := t.byteLength
    flexible := t.hasFlexible
    staticLength := settings.byteLength
    checked := settings.checkLength
    probed := c.probed
    members := c.members
    json :=
      if settings.json then
        let fields := (registry.allFields t).filter (!·.padding)
        some ⟨t.name, fields, settings.language, settings.strictFrom⟩
      else none }

def exportsWith (s : Script) (settings : Settings) (name : String) : List String :=
  if settings.exported then s.exports ++ [name] else s.exports

/-- Puts the open class at the top, now that its type is known. -/
def closeClass (s : Script) (settings : Settings) (registry : Registry) (t : TypeInfo) :
    Except Failure Script :=
  match s.current with
  | none => .ok s
  | some c =>
    if Decimal.writable t.byteLength then
      .ok
        { s with
          current := none
          items := s.items ++ [.classDecl (classOf settings registry t c)]
          exports := s.exportsWith settings t.name }
    else .error .tooManyDigits

def addEnum (s : Script) (settings : Settings) (name : String) (members : List (String × Constant)) :
    Except Failure Script := do
  let written ← members.mapM fun (m, v) => do return (m, ← literal settings.language v)
  return { s with
    items := s.items ++ [.enumDecl ⟨name, settings.language, settings.exported, written⟩]
    exports := s.exportsWith settings name }

/-- The lines of the open class so far. -/
def memberLines (c : OpenClass) : List String := c.members.flatMap Member.lines

/-- The lines of all that stands at the top. -/
def bodyLines (s : Script) : List String := s.items.flatMap Item.lines

def importLines (settings : Settings) : List String :=
  if settings.imports.isEmpty then [] else settings.imports.map (fun c => s!"import {c};") ++ [""]

def hostLines (s : Script) (settings : Settings) : List String :=
  if s.host then [hostDeclaration settings.language, ""] else []

def helperLines (s : Script) (settings : Settings) : List String :=
  (Helper.all.filter s.helpers.contains).flatMap fun h => h.lines settings.language ++ [""]

/-- The list of exported names, which only one of the languages has. -/
def exportLines (s : Script) (settings : Settings) : List String :=
  match settings.language with
  | .javascript => []
  | .typescript =>
    if s.exports.isEmpty then [] else ["export \x7b " ++ ", ".intercalate s.exports ++ " \x7d;", ""]

/-- The lines of a text, where the last newline ends a line and starts none. -/
def textLines (text : String) : List String :=
  let ls := Text.lines text
  if ls.getLast? = some "" then ls.dropLast else ls

/-- The description, as comments. -/
def sourceLines (settings : Settings) (source : String) : List String :=
  if settings.source then
    ["/*", tab ++ "View classes generated by cdv from the following description:", "*/", ""] ++
    (textLines source).map fun l => "// " ++ Text.trimEnd l
  else []

/-- Ends a text with exactly one newline. -/
def endLine (text : String) : String :=
  String.ofList (Text.dropEnd (· == '\n') text.toList ++ ['\n'])

/-- The whole text of a script. -/
def assemble (s : Script) (settings : Settings) (source : String) : String :=
  endLine <| Text.unlines <|
    importLines settings ++ s.hostLines settings ++ s.helperLines settings ++ s.bodyLines ++
      s.exportLines settings ++ sourceLines settings source

end Script
end RecordView
