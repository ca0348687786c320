import RecordView.Declaration.Description
import RecordView.Token.Scanner

/-! From a description to a script. -/
namespace RecordView

/-- Options of a compilation: the name of the description in messages, settings given from outside,
the mark of padding fields, and the number of errors at which the reading stops. -/
structure Options where
  file : String := "<input>"
  overrides : Keyed String := {}
  padding : String := "__"
  maxErrors : Int := 100
  padding_ne : padding ≠ "" := by decide

/-- Why options are refused. -/
def Options.emptyPadding : String := "padding_prefix must not be empty"

/-- A finished compilation. -/
structure Compilation where
  code : String
  report : Report
  language : Language
  platform : Platform
  deriving DecidableEq, Repr

namespace Compilation

def success (c : Compilation) : Bool := c.report.errors.isEmpty

/-- Errors and warnings as a comment, which may stand in front of the code. -/
def diagnostics (c : Compilation) : String := c.report.text

/-- The text of the output file. -/
def text (c : Compilation) : String := c.diagnostics ++ c.code

end Compilation

/-- A compilation with the remarks on its progress; it may fail. -/
structure Progress where
  notes : List Note
  result : Except Failure Compilation

namespace Compiler
open Declaration

/-- Applies a setting from outside. A refused one is an error without a place. -/
def override (s : State) (name value : String) : State :=
  if name = "inject" then { s with script := s.script.verbatim value }
  else
    match Settings.change name value false s.settings with
    | .ok _ settings => { s with settings }
    | .error r settings => { s with settings, report := s.report.add ⟨.setting r, none, none⟩ }

/-- The tokens of a description. If it cannot be split into tokens, that is the only error in it. -/
def tokens (s : State) (file source : String) : State :=
  match Token.scan file source with
  | .ok ts => { s with unread := ts }
  | .error d =>
    { s with
      unread := [⟨.eof, "", file, 1, 1⟩]
      report := s.report.add d
      notes := s.notes ++ [.scanFailed d.problem.message] }

/-- The lines of a description by number. -/
def lineOf (source : String) : Int → String :=
  let lines := Text.lines source
  fun n => Text.lineAt lines n

/-- The state before the first token is read. -/
def start (o : Options) (source : String) : State :=
  let fresh : State := { unread := [], report := { limit := o.maxErrors } }
  tokens (o.overrides.entries.foldl (fun s e => override s e.1 e.2) fresh) o.file source

def finish (o : Options) (source : String) (s : State) : Progress :=
  { notes := s.notes ++ [.finished o.file s.registry.types.length s.report.errors.length]
    result :=
      .ok ⟨s.script.assemble s.settings source, s.report, s.settings.language, s.settings.platform⟩ }

end Compiler

open Declaration in
/-- Compiles a description. -/
def compile (o : Options) (source : String) : Progress :=
  match Declaration.read ⟨o.padding, Compiler.lineOf source⟩ (Compiler.start o source) with
  | (s, none) => Compiler.finish o source s
  | (s, some f) => ⟨s.notes, .error f⟩

end RecordView
