import RecordView.Declaration.Enumeration

/-! A whole description: declarations, directives and comments in any order. -/
namespace RecordView.Declaration
namespace Reader

def typedef : Reader Unit := do
  let _ ← advance
  let t ← peek
  if t.isWord "struct" then aggregate .struct true
  else if t.isWord "union" then aggregate .union true
  else refuse t.location (.malformed .typedefTarget)

/-- One statement of a description. -/
def statement : Reader Unit := do
  let t ← peek
  if t.kind = .comment then
    let _ ← advance
    comment t
  else if t.kind = .directive then directive
  else if t.isSymbol ";" then
    let _ ← advance
  else if t.isWord "struct" then aggregate .struct false
  else if t.isWord "union" then aggregate .union false
  else if t.isWord "enum" then enumeration
  else if t.isWord "typedef" then typedef
  else if t.kind = .other then refuse t.location (.malformed (.strayCharacter t.text))
  else refuse t.location (.malformed (.strayToken t.text))

def statementAt (t : Token) (start : Nat) : Reader (Round Unit Unit) := do
  if t.kind = .eof then return .done ()
  attempt t start false () statement
  return .again ()

/-- One statement, unless the input ends or there are too many errors. -/
def statementRound (_ : Unit) : Reader (Round Unit Unit) := do
  if (← get).report.full then return .done ()
  let t ← peek
  statementAt t (← get).taken

/-- All statements, up to the end of the input or the limit of errors. -/
def description : Reader Unit := rounds statementRound ()

end Reader

/-- Reads a whole description; gives the state at the end, and the failure if there was one. -/
def read (env : Env) (s : State) : State × Option Failure :=
  match Reader.description env s with
  | .ok () s' => (s', none)
  | .error (.failed f) s' => (s', some f)
  | .error (.refused _) s' => (s', none)

end RecordView.Declaration
