import RecordView.Command.Source

/-! A run of the command on a file tree: what it prints, how it ends, and the files after it. -/
namespace RecordView.Command

/-- How a run ends. -/
inductive Exit where
  | success
  /-- The description has errors; the output is written nevertheless. -/
  | errors
  | usage
  | internal
  deriving DecidableEq, Repr

def Exit.code : Exit → Nat
  | success => 0
  | errors => 1
  | usage => 2
  | internal => 3

structure Outcome where
  exit : Exit
  output : String := ""
  errors : String := ""
  files : FileTree
  deriving DecidableEq, Repr

/-- What stops a run after its arguments have been accepted. -/
inductive Trouble where
  | diagnostic (d : Diagnostic)
  | unusable (message : String)
  | internal (message : String)
  deriving DecidableEq, Repr

namespace Trouble

def exit : Trouble → Exit
  | diagnostic _ => .errors
  | unusable _ => .usage
  | internal _ => .internal

/-- What is printed. A verbose run shows where an internal error comes from. -/
def text (t : Trouble) (verbose : Bool) : String :=
  match t with
  | diagnostic d => d.text ++ "\n"
  | unusable message => "Error: " ++ message ++ "\n"
  | internal message =>
    "Internal error: " ++ message ++ "\n" ++ if verbose then "NoneType: None\n" else ""

/-- A directory in place of a file, no file, or one that is protected is a matter of the arguments; a file in
place of a directory, or no space, is not foreseen. -/
def ofFileError (e : FileError) (p : Path) : Trouble :=
  match e with
  | .noEntry | .isDirectory | .denied => .unusable (e.message p)
  | .notDirectory | .noSpace => .internal (e.message p)

def ofSourceError (e : SourceError) (p : Path) : Trouble :=
  match e with
  | .file e => ofFileError e p
  | .text m => .unusable m.message

end Trouble

/-- A command whose arguments have been accepted. -/
structure Request where
  input : Path
  output : Option Path
  overrides : Keyed String
  verbose : Bool
  deriving DecidableEq, Repr

def Request.options (r : Request) : Options := { overrides := r.overrides }

def Request.target (r : Request) (c : Compilation) : Path := r.output.getD (r.input.withSuffix c.language.suffix)

/-- What the reading of the arguments comes to. -/
inductive Reading where
  | informs (text : String)
  | refused (text : String)
  | accepts (r : Request)
  deriving DecidableEq, Repr

/-- What a run is given by its surroundings: a reader of arguments, which is told how to read the settings
among them, and the characters that stand for bytes of arguments which are no text. -/
structure System where
  parse : (List String → Except String (Keyed String)) → List String → FileTree → Reading
  stray : Char → Option UInt8 := fun _ => none

/-- A text before its first equals sign, and after it if there is one. -/
def atEquals (cs : List Char) : String × Option String :=
  (String.ofList (cs.takeWhile (· != '=')),
   match cs.dropWhile (· != '=') with
   | [] => none
   | _ :: v => some (String.ofList v))

/-- The settings by name; a name given twice takes its last value. -/
def overrides (items : List String) : Except String (Keyed String) :=
  items.foldlM
    (fun k item =>
      let (name, value) := atEquals item.toList
      match value with
      | some v =>
        if (Text.trim name).isEmpty then refuse item else .ok (k.set (Text.trim name) (Text.trim v))
      | none => refuse item)
    {}
where
  refuse (item : String) : Except String (Keyed String) := .error s!"expected NAME=VALUE, got '{item}'"

/-- The remarks that are shown: all of them with their level in a verbose run, else the warnings. -/
def logText (verbose : Bool) (notes : List Note) : String :=
  "".intercalate <|
    if verbose then
      notes.map fun n => (if n.isWarning then "WARNING: " else "DEBUG: ") ++ n.text ++ "\n"
    else (notes.filter (·.isWarning)).map fun n => n.text ++ "\n"

/-- What a compilation prints: the code is counted in characters. -/
def summary (r : Request) (c : Compilation) (output : Path) : String :=
  if r.verbose then
    s!"Wrote {c.code.length} bytes to {output.text}\n" ++
      s!"Language: {c.language.suffix}, platform: {c.platform.name}\n"
  else ""

/-- Writes the result of a compilation to the output, which is never the input. The output is open when the
result is encoded. -/
def deliver (stray : Char → Option UInt8) (r : Request) (c : Compilation) : EStateM Trouble FileTree Path := do
  let here := (← get).here
  let output := r.target c
  if output.place here = r.input.place here then
    throw (.unusable s!"output file would overwrite the input '{r.input.text}'")
  let p ← (FileTree.openEmpty output).adaptExcept (.ofFileError · output)
  match Utf8.encode stray c.text with
  | .error u => throw (.internal u.message)
  | .ok bytes => (FileTree.store p bytes).adaptExcept (.ofFileError · output)
  return output

/-- The end of a run whose output is written. -/
def conclude (t : FileTree) (r : Request) (c : Compilation) (output : Path) (log : String) :
    Outcome :=
  let line := s!"Compiled {r.input.text} -> {output.text}"
  if c.success then ⟨.success, summary r c output ++ line ++ "\n", log, t⟩
  else ⟨.errors, summary r c output, log ++ c.diagnostics ++ line ++ " with errors\n", t⟩

/-- Carries out an accepted command. -/
def execute (stray : Char → Option UInt8) (r : Request) (t : FileTree) : Outcome :=
  let stop (trouble : Trouble) (log : String) (t : FileTree) : Outcome :=
    ⟨trouble.exit, "", log ++ trouble.text r.verbose, t⟩
  match compileFile t r.options r.input with
  | .error e => stop (.ofSourceError e r.input) "" t
  | .ok p =>
    let log := logText r.verbose p.notes
    match p.result with
    | .error f => stop (.internal f.message) log t
    | .ok c =>
      match deliver stray r c t with
      | .error trouble t => stop trouble log t
      | .ok output t => conclude t r c output log

/-- Runs the command. -/
def run (system : System) (args : List String) (t : FileTree) : Outcome :=
  match system.parse overrides args t with
  | .informs text => ⟨.success, text, "", t⟩
  | .refused text => ⟨.usage, "", text, t⟩
  | .accepts r => execute system.stray r t

end RecordView.Command
