import RecordView.Settings

/-! Lines of script text. -/
namespace RecordView.Script

/-- One step of indentation. -/
def tab : String := "   "

def indent (lines : List String) : List String := lines.map (tab ++ ·)

/-- A head, an indented body in braces, and what follows the closing brace. -/
def braced (head : String) (body : List String) (tail : String := "") : List String :=
  (head ++ " \x7b") :: (indent body ++ ["\x7d" ++ tail])

/-- A type after a name, which only one of the languages writes. -/
def typeClause (language : Language) (type : String) : String :=
  match language with
  | .javascript => ""
  | .typescript => if type.isEmpty then "" else ": " ++ type

/-- A generic class with its argument. -/
def generic (language : Language) (name argument : String) : String :=
  match language with
  | .javascript => name
  | .typescript => name ++ "<" ++ argument ++ ">"

/-- The variable that holds the byte order of the machine. -/
def hostVariable : String := "hostLittleEndian"

def hostDeclaration (language : Language) : String :=
  "let " ++ hostVariable ++ typeClause language "boolean | undefined" ++ ";"

end RecordView.Script
