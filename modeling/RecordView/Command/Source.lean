import RecordView.Command.FileTree
import RecordView.Command.Utf8
import RecordView.Compiler

/-! Descriptions in files. -/
namespace RecordView.Command

/-- Why a description cannot be read. -/
inductive SourceError where
  | file (e : FileError)
  | text (m : Utf8.Malformed)
  deriving DecidableEq, Repr

/-- Every way to end a line becomes a newline. -/
def plainLines : List Char → List Char
  | '\r' :: '\n' :: cs => '\n' :: plainLines cs
  | '\r' :: cs => '\n' :: plainLines cs
  | c :: cs => c :: plainLines cs
  | [] => []

def readSource (t : FileTree) (path : Path) : Except SourceError String := do
  let bytes ← (t.read path).mapError .file
  let cs ← (Utf8.decode bytes).mapError .text
  return String.ofList (plainLines cs)

/-- The message when there is no such file; it shows the path as given. -/
def notFound (given : String) : String := s!"Source file not found: {given}"

/-- Compiles the description in a file, whose path is its name in messages. -/
def compileFile (t : FileTree) (o : Options) (path : Path) : Except SourceError Progress := do
  return compile { o with file := path.text } (← readSource t path)

end RecordView.Command
