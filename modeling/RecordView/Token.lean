import RecordView.Location
import RecordView.Text.Quoted

/-! Tokens of a description. -/
namespace RecordView

inductive Token.Kind where
  | eof
  | newline
  | identifier
  | number
  | string
  | directive
  | blob
  | comment
  | leftBrace
  | rightBrace
  | leftBracket
  | rightBracket
  | leftParen
  | rightParen
  | colon
  | semicolon
  | comma
  | assign
  | question
  | operator
  | other
  deriving DecidableEq, Repr

/-- The kinds with the names by which they are shown. -/
def Token.Kind.names : List (Token.Kind × String) :=
  [(.eof, "EOF"), (.newline, "NEWLINE"), (.identifier, "IDENTIFIER"), (.number, "NUMBER"),
   (.string, "STRING"), (.directive, "DIRECTIVE"), (.blob, "BLOB"), (.comment, "COMMENT"),
   (.leftBrace, "LBRACE"), (.rightBrace, "RBRACE"), (.leftBracket, "LBRACKET"),
   (.rightBracket, "RBRACKET"), (.leftParen, "LPAREN"), (.rightParen, "RPAREN"), (.colon, "COLON"),
   (.semicolon, "SEMICOLON"), (.comma, "COMMA"), (.assign, "ASSIGN"), (.question, "QUESTION"),
   (.operator, "OPERATOR"), (.other, "OTHER")]

def Token.Kind.name (k : Token.Kind) : String := (Token.Kind.names.lookup k).getD ""

/-- A token: its kind, its text (the decoded content of a string or blob), and the place where it
starts. -/
structure Token where
  kind : Token.Kind
  text : String
  file : String
  line : Nat
  column : Nat
  deriving DecidableEq, Repr

namespace Token

def location (t : Token) : Location := ⟨t.file, t.line, t.column⟩

/-- The word of a directive, without its mark. -/
def directive? (t : Token) : Option String :=
  if t.kind = .directive then some (String.ofList (t.text.toList.drop 1)) else none

/-- Kinds whose text is content; a token of any other kind is the symbol that its text spells. -/
def Kind.isContent : Kind → Bool
  | .identifier | .number | .string | .comment | .blob => true
  | _ => false

/-- Whether the token is the given symbol. -/
def isSymbol (t : Token) (text : String) : Bool := !t.kind.isContent && t.text == text

/-- Whether the token is the given word. -/
def isWord (t : Token) (text : String) : Bool := t.kind == .identifier && t.text == text

/-- The token as it is shown to someone who debugs a description. -/
def display (t : Token) : String :=
  let place := s!"{t.line}:{t.column}"
  if t.kind = .eof then s!"Token(EOF, {place})"
  else
    let kind := t.kind.name
    let text := Text.display t.text
    s!"Token({kind}, {text}, {place})"

end Token
end RecordView
