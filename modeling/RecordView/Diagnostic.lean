import RecordView.Problem
import RecordView.Text.Blank

/-! Diagnostics with their places, and the report that collects them. -/
namespace RecordView

/-- A problem, where it is, and the source line it is on. -/
structure Diagnostic where
  problem : Problem
  location : Option Location := none
  line : Option String := none
  deriving DecidableEq, Repr

namespace Diagnostic

/-- Supplies a place and a line where they are still missing. -/
def fill (d : Diagnostic) (location : Option Location) (line : Option String) : Diagnostic :=
  { d with location := d.location <|> location, line := d.line <|> line }

/-- The quoted source line and a caret below the column. -/
def quotation (d : Diagnostic) : List String :=
  match d.line, d.location with
  | some line, some l =>
    let caret :=
      if 0 < l.column then [String.ofList (List.replicate (l.column + 3).toNat ' ') ++ "^"] else []
    ("    " ++ line) :: caret
  | _, _ => []

def hintLine (d : Diagnostic) : List String :=
  match d.problem.hint with
  | some h => if h.isEmpty then [] else ["hint: " ++ h]
  | none => []

def headline (d : Diagnostic) : String :=
  match d.location with
  | some l => l.text ++ ": error: " ++ d.problem.message
  | none => "error: " ++ d.problem.message

/-- The message with its place, the quoted line and the hint. -/
def text (d : Diagnostic) : String := Text.unlines (d.headline :: d.quotation ++ d.hintLine)

end Diagnostic

/-- Something suspicious that is no error. -/
structure Warning where
  message : String
  location : Option Location := none
  deriving DecidableEq, Repr

def Warning.text (w : Warning) : String :=
  match w.location with
  | some l => l.text ++ ": warning: " ++ w.message
  | none => "warning: " ++ w.message

/-- The errors and warnings of one run, in order, and the number of errors at which it gives up. -/
structure Report where
  limit : Int := 100
  errors : List Diagnostic := []
  warnings : List Warning := []
  deriving DecidableEq, Repr

namespace Report

def add (r : Report) (d : Diagnostic) : Report := { r with errors := r.errors ++ [d] }

def addAll (r : Report) (ds : List Diagnostic) : Report := { r with errors := r.errors ++ ds }

def warn (r : Report) (w : Warning) : Report := { r with warnings := r.warnings ++ [w] }

/-- Whether the limit is reached. -/
def full (r : Report) : Bool := r.limit ≤ r.errors.length

/-- Puts a blank into every end-of-comment mark, so that the text may stand in a comment. -/
def defuse : List Char → List Char
  | '*' :: '/' :: cs => '*' :: ' ' :: '/' :: defuse cs
  | c :: cs => c :: defuse cs
  | [] => []

def inComment (s : String) : String := String.ofList (defuse s.toList)

def counted (n : Nat) (noun : String) : String := if n = 1 then s!"{n} {noun}" else s!"{n} {noun}s"

/-- All errors and warnings as one block comment, empty if there are none. -/
def text (r : Report) : String :=
  if r.errors.isEmpty && r.warnings.isEmpty then ""
  else
    Text.unlines <|
      ["/*"] ++ r.errors.flatMap (fun d => [inComment d.text, ""]) ++
        r.warnings.map (fun w => inComment w.text) ++
        [counted r.errors.length "error" ++ ", " ++ counted r.warnings.length "warning", "*/", ""]

end Report
end RecordView
