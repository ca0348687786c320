import RecordView.Diagnostic
import RecordView.Token

/-! From text to tokens. Every function that recognises something says how many characters it takes.
-/
namespace RecordView.Token

/-! ## Positions and character classes -/

/-- A line and a column, counted from one. -/
structure Position where
  line : Nat
  column : Nat
  deriving DecidableEq, Repr

namespace Position

def start : Position := ⟨1, 1⟩

def step (p : Position) (c : Char) : Position :=
  if c = '\n' then ⟨p.line + 1, 1⟩ else ⟨p.line, p.column + 1⟩

/-- The position after some text. -/
def after (p : Position) (cs : List Char) : Position := cs.foldl step p

end Position

/-- Characters between tokens that are no newline. -/
def isGap (c : Char) : Bool := c == ' ' || c == '\t' || c == '\r' || c.toNat == 12 || c.toNat == 11

/-- Blanks inside a directive. -/
def isInlineBlank (c : Char) : Bool := c == ' ' || c == '\t'

def isDigit (c : Char) : Bool := '0' ≤ c && c ≤ '9'

def isIdentStart (c : Char) : Bool :=
  ('a' ≤ c && c ≤ 'z') || ('A' ≤ c && c ≤ 'Z') || c == '_' || c == '$'

def isIdentChar (c : Char) : Bool := isIdentStart c || isDigit c

/-- How many characters at the head satisfy `p`. -/
def runLength (p : Char → Bool) (cs : List Char) : Nat := (cs.takeWhile p).length

/-! ## Parts of tokens -/

/-- The length of a block comment's rest through its end mark, if there is one. -/
def commentLength? : List Char → Option Nat
  | '*' :: '/' :: _ => some 2
  | _ :: cs => (commentLength? cs).map (· + 1)
  | [] => none

/-- The character that a backslash and `c` stand for in a string. -/
def unescape (c : Char) : Char :=
  if c = 'n' then '\n'
  else if c = 'r' then '\r'
  else if c = 't' then '\t'
  else if c = '0' then Char.ofNat 0
  else c

/-- The content of a string after its opening quote, and how many characters it takes with the
closing one. A string that is not closed ends before the newline. -/
def stringBody (quote : Char) : List Char → List Char × Nat
  | [] => ([], 0)
  | c :: cs =>
    if c = '\n' then ([], 0)
    else if c = quote then ([], 1)
    else if c = '\\' then
      match cs with
      | [] => ([], 1)
      | d :: ds =>
        let (text, n) := stringBody quote ds
        (unescape d :: text, n + 2)
    else
      let (text, n) := stringBody quote cs
      (c :: text, n + 1)

/-- The length of a fraction: a point and at least one digit. -/
def fractionLength : List Char → Nat
  | '.' :: cs => if runLength isDigit cs = 0 then 0 else 1 + runLength isDigit cs
  | _ => 0

/-- The length of an exponent: a mark, perhaps a sign, and at least one digit. -/
def exponentLength : List Char → Nat
  | c :: cs =>
    if c = 'e' ∨ c = 'E' then
      let sign := match cs with
        | d :: _ => if d = '+' ∨ d = '-' then 1 else 0
        | [] => 0
      let digits := runLength isDigit (cs.drop sign)
      if digits = 0 then 0 else 1 + sign + digits
    else 0
  | [] => 0

/-- Whether a number starts with the mark of another base. -/
def hasBaseMark : List Char → Bool
  | '0' :: c :: _ => "xXbBoO".toList.contains c
  | _ => false

def isHexOrSeparator (c : Char) : Bool := Text.isHexDigit c || c == '_'

def isDigitOrSeparator (c : Char) : Bool := isDigit c || c == '_'

/-- The length of a number, without a suffix. -/
def numberLength (cs : List Char) : Nat :=
  if hasBaseMark cs then 2 + runLength isHexOrSeparator (cs.drop 2)
  else
    let whole := runLength isDigitOrSeparator cs
    let fraction := fractionLength (cs.drop whole)
    whole + fraction + exponentLength (cs.drop (whole + fraction))

def isSuffix (c : Char) : Bool := "uUlL".toList.contains c

/-- The rest of a line, up to a line comment. -/
def restOfLineLength : List Char → Nat
  | [] => 0
  | c :: cs =>
    if c = '\n' then 0
    else if c = '/' && cs.head? == some '/' then 0
    else restOfLineLength cs + 1

def isQuote (c : Char) : Bool := c.toNat == 34 || c.toNat == 39 || c.toNat == 96

/-- Measures a pragma value after its opening parenthesis: whether the parenthesis that matches is
found on the line, and how many characters stand before it. Quoted parts count as one piece; a
backslash in them takes the next character along, whatever it is. -/
def valueLength (depth : Nat) (quote : Option Char) : List Char → Bool × Nat
  | [] => (false, 0)
  | c :: cs =>
    if c = '\n' then (false, 0)
    else
      match quote with
      | some q =>
        if c = '\\' then
          match cs with
          | [] => (false, 1)
          | _ :: ds =>
            let (closed, n) := valueLength depth quote ds
            (closed, n + 2)
        else
          let (closed, n) := valueLength depth (if c = q then none else some q) cs
          (closed, n + 1)
      | none =>
        if c = ')' ∧ depth = 0 then (true, 0)
        else
          let depth := if c = '(' then depth + 1 else if c = ')' then depth - 1 else depth
          let (closed, n) := valueLength depth (if isQuote c then some c else none) cs
          (closed, n + 1)

def delimiters : List (Char × Kind) :=
  [('{', .leftBrace), ('}', .rightBrace), ('[', .leftBracket), (']', .rightBracket),
   ('(', .leftParen), (')', .rightParen), (':', .colon), (';', .semicolon), (',', .comma),
   ('?', .question)]

/-- Operators, the longer ones before their beginnings. -/
def operators : List String :=
  [">>>", "==", "!=", "&&", "||", "<<", ">>", "<=", ">=", "+", "-", "*", "/", "%", "^", "!", "~",
   "&", "|", "<", ">"]

/-! ## Lexemes -/

/-- A recognised token: its kind and text, and how many characters it takes after its first. -/
structure Lexeme where
  kind : Kind
  text : List Char
  more : Nat
  deriving DecidableEq, Repr

/-- The token that starts with `c` and goes on in `cs`. -/
def lexeme (c : Char) (cs : List Char) : Lexeme :=
  if isIdentStart c then
    let rest := cs.takeWhile isIdentChar
    ⟨.identifier, c :: rest, rest.length⟩
  else if isDigit c || (c == '.' && (cs.head?.map isDigit).getD false) then
    let n := numberLength (c :: cs)
    ⟨.number, (c :: cs).take n, n - 1 + runLength isSuffix ((c :: cs).drop n)⟩
  else if c == '\"' || c == Text.apostrophe then
    let (text, n) := stringBody c cs
    ⟨.string, text, n⟩
  else
    match delimiters.lookup c with
    | some kind => ⟨kind, [c], 0⟩
    | none =>
      match operators.find? (·.toList.isPrefixOf (c :: cs)) with
      | some op => ⟨.operator, op.toList, op.length - 1⟩
      | none => ⟨if c = '=' then .assign else .other, [c], 0⟩

/-! ## Directives -/

def make (file : String) (kind : Kind) (text : List Char) (p : Position) : Token :=
  ⟨kind, String.ofList text, file, p.line, p.column⟩

/-- The value of a pragma at an opening parenthesis, and how many characters it takes. A value that
is not closed on its line is left as it stands, with its parenthesis, for the statement to reject.
-/
def pragmaValue (file : String) (p : Position) (cs : List Char) : List Token × Nat :=
  match cs with
  | '(' :: rest =>
    let (closed, n) := valueLength 0 none rest
    if closed then ([make file .blob (Text.trimChars (rest.take n)) p], n + 2)
    else ([make file .other ('(' :: rest.take n) p], n + 1)
  | _ => ([], 0)

/-- The name of a pragma and its value. -/
def pragmaTokens (file : String) (p : Position) (cs : List Char) : List Token × Nat :=
  let skipped := runLength isInlineBlank cs
  let body := cs.drop skipped
  let p := p.after (cs.take skipped)
  match body with
  | c :: _ =>
    if isIdentStart c then
      let name := body.takeWhile isIdentChar
      let gap := runLength isInlineBlank (body.drop name.length)
      let taken := name.length + gap
      let (value, n) := pragmaValue file (p.after (body.take taken)) (body.drop taken)
      (make file .identifier name p :: value, skipped + taken + n)
    else ([], skipped)
  | [] => ([], skipped)

/-- The tokens of a directive after its mark, and how many characters they take. -/
def directiveTokens (file : String) (p : Position) (cs : List Char) : List Token × Nat :=
  let gap := runLength isInlineBlank cs
  let word := (cs.drop gap).takeWhile isIdentChar
  let taken := gap + word.length
  let rest := cs.drop taken
  let q := p.after ('#' :: cs.take taken)
  let head := make file .directive ('#' :: word) p
  if word = "error".toList then
    let n := restOfLineLength rest
    ([head, make file .blob (Text.trimChars (rest.take n)) q], taken + n)
  else if word = "pragma".toList then
    let (tokens, n) := pragmaTokens file q rest
    (head :: tokens, taken + n)
  else ([head], taken)

/-! ## The whole text -/

/-- What the scanner keeps between tokens: whether a directive line is open, and whether only blanks
and comments have been met on the line. -/
structure Mode where
  inDirective : Bool := false
  atLineStart : Bool := true
  deriving DecidableEq, Repr

/-- The tokens of a text, or the position of a block comment that is never closed. -/
def scanFrom (file : String) (p : Position) (mode : Mode) : List Char → Except Position (List Token)
  | [] =>
    let last := [make file .eof [] p]
    .ok (if mode.inDirective then make file .newline ['\n'] p :: last else last)
  | c :: cs =>
    if c = '\n' then do
      let rest ← scanFrom file (p.step c) {} cs
      return if mode.inDirective then make file .newline [c] p :: rest else rest
    else if isGap c then scanFrom file (p.step c) mode cs
    else if c = '/' ∧ cs.head? = some '/' then
      let n := runLength (· != '\n') cs
      scanFrom file (p.after (c :: cs.take n)) mode (cs.drop n)
    else if c = '/' ∧ cs.head? = some '*' then
      match commentLength? (cs.drop 1) with
      | none => .error p
      | some n => do
        let text := c :: cs.take (n + 1)
        let rest ← scanFrom file (p.after text) mode (cs.drop (n + 1))
        return make file .comment text p :: rest
    else if c = '#' ∧ mode.atLineStart then do
      let (tokens, n) := directiveTokens file p cs
      let rest ← scanFrom file (p.after (c :: cs.take n)) ⟨true, false⟩ (cs.drop n)
      return tokens ++ rest
    else do
      let l := lexeme c cs
      let inLine := { mode with atLineStart := false }
      let rest ← scanFrom file (p.after (c :: cs.take l.more)) inLine (cs.drop l.more)
      return make file l.kind l.text p :: rest
termination_by cs => cs.length
decreasing_by all_goals simp only [List.length_cons, List.length_drop]; omega

/-- Cuts a description into tokens; only a block comment without end is an error. -/
def scan (file source : String) : Except Diagnostic (List Token) :=
  match scanFrom file .start {} source.toList with
  | .ok tokens => .ok tokens
  | .error p =>
    let line := Text.lineAt (Text.lines source) p.line
    .error ⟨.unclosedComment, some ⟨file, p.line, p.column⟩, some line⟩

/-- The texts of the tokens with the lines they start on, without the end of input. -/
def split (source : String) : Except Diagnostic (List (String × Nat)) := do
  let tokens ← scan "<input>" source
  return (tokens.takeWhile (·.kind != .eof)).map fun t => (t.text, t.line)

end RecordView.Token
