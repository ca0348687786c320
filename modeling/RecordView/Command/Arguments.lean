import RecordView.Command.Run
import RecordView.Text.Similarity

/-! The arguments of the command, as a shell gives them. -/
namespace RecordView.Command

/-- Why a command cannot be carried out as it is given. -/
inductive UsageError where
  | noSuchOption (name : String) (similar : List String)
  | needsArgument (name : String)
  | takesNoValue (name : String)
  | missing (argument : String)
  | invalid (parameter message : String)
  | unexpected (arguments : List String)
  deriving DecidableEq, Repr

def synopsis : String := "Usage: cdvc [OPTIONS] INPUT_FILE [OUTPUT_FILE]"

namespace UsageError

def message : UsageError → String
  | noSuchOption name similar =>
    let base := "No such option: " ++ name
    match similar with
    | [] => base
    | [s] => base ++ " Did you mean " ++ s ++ "?"
    | _ =>
      base ++ " (Possible options: " ++ ", ".intercalate (similar.mergeSort fun a b => decide (a ≤ b)) ++ ")"
  | needsArgument name => "Option " ++ Text.display name ++ " requires an argument."
  | takesNoValue name => "Option " ++ Text.display name ++ " does not take a value."
  | missing argument => s!"Missing argument '{argument}'."
  | invalid parameter message => s!"Invalid value for {parameter}: {message}"
  | unexpected arguments =>
    let noun := if arguments.length = 1 then "argument" else "arguments"
    let shown := " ".intercalate arguments
    s!"Got unexpected extra {noun} ({shown})"

/-- Whether the synopsis is shown with the message. -/
def showsSynopsis : UsageError → Bool
  | needsArgument _ | takesNoValue _ => false
  | _ => true

def text (e : UsageError) : String :=
  let head := if e.showsSynopsis then synopsis ++ "\nTry 'cdvc --help' for help.\n\n" else ""
  head ++ "Error: " ++ e.message ++ "\n"

end UsageError

/-- Options that end the command at once. -/
inductive Information where
  | version
  | help
  deriving DecidableEq, Repr

/-- The arguments, sorted: what is in no option, the settings in order, and the options that are on.
-/
structure Arguments where
  positional : List String := []
  settings : List String := []
  verbose : Bool := false
  information : Option Information := none
  deriving DecidableEq, Repr

/-- The options with long names. -/
inductive LongOption where
  | setting
  | verbose
  | information (i : Information)
  deriving DecidableEq, Repr

def LongOption.names : List (String × LongOption) :=
  [("--pragma", .setting), ("--verbose", .verbose), ("--version", .information .version),
   ("--help", .information .help)]

namespace Arguments

/-- The value of an option: what is attached to it, or else the next argument. Tells also how many
arguments it takes. -/
def value (name : String) (attached : Option String) (rest : List String) :
    Except UsageError (String × Nat) :=
  match attached, rest with
  | some v, _ => .ok (v, 0)
  | none, v :: _ => .ok (v, 1)
  | none, [] => .error (.needsArgument name)

def addSetting (a : Arguments) (v : String) : Arguments := { a with settings := a.settings ++ [v] }

/-- Options of one letter, several of which may share a dash. -/
def short (a : Arguments) (rest : List String) : List Char → Except UsageError (Arguments × Nat)
  | [] => .ok (a, 0)
  | 'v' :: cs => short { a with verbose := true } rest cs
  | 'p' :: cs => do
    let (v, n) ← value "-p" (if cs.isEmpty then none else some (String.ofList cs)) rest
    return (a.addSetting v, n)
  | c :: _ => .error (.noSuchOption (String.ofList ['-', c]) [])

/-- An option of a long name. The first one that asks for information counts. -/
def long (a : Arguments) (option : LongOption) (name : String) (attached : Option String)
    (rest : List String) : Except UsageError (Arguments × Nat) :=
  match option with
  | .setting => do
    let (v, n) ← value name attached rest
    return (a.addSetting v, n)
  | .verbose =>
    if attached.isSome then .error (.takesNoValue name) else .ok ({ a with verbose := true }, 0)
  | .information i =>
    if attached.isSome then .error (.takesNoValue name)
    else .ok ({ a with information := a.information <|> some i }, 0)

/-- An argument that starts with a dash. -/
def option (a : Arguments) (arg : String) (rest : List String) :
    Except UsageError (Arguments × Nat) :=
  let (name, attached) := atEquals arg.toList
  match LongOption.names.lookup name with
  | some o => a.long o name attached rest
  | none =>
    if arg.toList.take 2 = ['-', '-'] then
      .error (.noSuchOption name (Text.similar name (LongOption.names.map (·.1))))
    else a.short rest (arg.toList.drop 1)

/-- Sorts the arguments. After two dashes all are positional, and so is a single dash. -/
def scan (a : Arguments) (args : List String) : Except UsageError Arguments :=
  match args with
  | [] => .ok a
  | arg :: rest =>
    if arg = "--" then .ok { a with positional := a.positional ++ rest }
    else if arg.toList.head? = some '-' ∧ arg ≠ "-" then
      match a.option arg rest with
      | .error e => .error e
      | .ok (a, n) => scan a (rest.drop n)
    else scan { a with positional := a.positional ++ [arg] } rest
termination_by args.length
decreasing_by all_goals simp only [List.length_drop, List.length_cons]; omega

/-- A path of a file, which has to be there if it is the input. -/
def file (t : FileTree) (parameter : String) (required : Bool) (text : String) : Except UsageError Path :=
  let refuse (what : String) := .error (.invalid parameter ("File " ++ Text.display text ++ what))
  match t.status text with
  | .error _ => if required then refuse " does not exist." else .ok (.ofText text)
  | .ok (p, c) =>
    if c = .directory then refuse " is a directory."
    else if t.readable p then .ok (.ofText text)
    else refuse " is not readable."

/-- Accepts sorted arguments. The settings come first, then the input, the output, and what is left
over. -/
def request (a : Arguments) (settings : List String → Except String (Keyed String)) (t : FileTree) :
    Except UsageError Request := do
  let overrides ← (settings a.settings).mapError (.invalid "'-p' / '--pragma'")
  let input ←
    match a.positional.head? with
    | none => throw (.missing "INPUT_FILE")
    | some text => file t "'INPUT_FILE'" true text
  let output ← a.positional[1]?.mapM (file t "'[OUTPUT_FILE]'" false)
  let extra := a.positional.drop 2
  if extra.isEmpty then return ⟨input, output, overrides, a.verbose⟩ else throw (.unexpected extra)

end Arguments

def versionText : String := "cdvc, version 1.0.0\n"

def helpText : String :=
  synopsis ++ "\n\n  Compile a binary layout description to DataView classes.\n\n" ++
  "  INPUT_FILE is the description to compile. OUTPUT_FILE defaults to INPUT_FILE\n" ++
  "  with a .js or .ts suffix, depending on the language pragma.\n\n" ++
  "Options:\n" ++
  "  -p, --pragma NAME=VALUE  Set a pragma before the source is read (can be\n" ++
  "                           repeated)\n" ++
  "  -v, --verbose            Verbose output\n" ++
  "  --version                Show the version and exit.\n" ++
  "  --help                   Show this message and exit.\n"

/-- The command in a shell that gives only text. -/
def shell : System where
  parse settings args t :=
    match Arguments.scan {} args with
    | .error e => .refused e.text
    | .ok a =>
      match a.information with
      | some .version => .informs versionText
      | some .help => .informs helpText
      | none =>
        match a.request settings t with
        | .error e => .refused e.text
        | .ok r => .accepts r

/-- The texts of the paths that a run may look at or write. -/
def reach (args : List String) : List String :=
  match Arguments.scan {} args with
  | .error _ => []
  | .ok a =>
    a.positional.take 2 ++
      (a.positional.take 1).flatMap fun text =>
        ["js", "ts"].map fun s => ((Path.ofText text).withSuffix s).text

end RecordView.Command
