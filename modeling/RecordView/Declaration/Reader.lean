import RecordView.Condition
import RecordView.Layout.Statement
import RecordView.Script

/-! Reading declarations from tokens: the state of the reading, how tokens are taken, and how it
goes on after an error. -/
namespace RecordView.Declaration

/-- What stays the same: the mark of padding fields and the lines of the description. -/
structure Env where
  padding : String
  sourceLine : Int → String

/-- The state of the reading. Tokens are drawn from `unread` through the conditions into `ahead`,
and taken from there. -/
structure State where
  unread : List Token
  frames : Frames := []
  ahead : List Token := []
  /-- The end of the input, once it has been drawn. -/
  eof : Option Token := none
  /-- The token taken last. -/
  last : Option Token := none
  /-- How many tokens have been taken. -/
  taken : Nat := 0
  /-- Whether a type has been declared. -/
  declared : Bool := false
  commentSeen : Bool := false
  constants : Scope := {}
  settings : Settings := {}
  registry : Registry := {}
  script : Script := {}
  report : Report := {}
  notes : List Note := []

/-- The number of tokens that are still to be drawn or taken. -/
def State.left (s : State) : Nat := s.ahead.length + s.unread.length

/-- A reading that is refused or fails keeps its state. -/
abbrev Reader := ReaderT Env (EStateM (Halt Diagnostic) State)

namespace Reader

/-! ## Results -/

def refuse {α : Type} (location : Location) (p : Problem) : Reader α :=
  throw (.refused ⟨p, some location, none⟩)

def fail {α : Type} (f : Failure) : Reader α := throw (.failed f)

def orFail {α : Type} : Except Failure α → Reader α
  | .ok a => pure a
  | .error f => fail f

def orThrow {α : Type} : Except (Halt Diagnostic) α → Reader α
  | .ok a => pure a
  | .error h => throw h

def log (n : Note) : Reader Unit :=
  if n.writable then modify fun s => { s with notes := s.notes ++ [n] } else fail .tooManyDigits

/-- Records an error of which the place is known. -/
def report (location : Location) (p : Problem) : Reader Unit := do
  let env ← read
  let d : Diagnostic := ⟨p, some location, some (env.sourceLine location.line)⟩
  modify fun s => { s with report := s.report.add d }

/-- Records an error of a statement that starts with the given token. -/
def record (d : Diagnostic) (t : Token) : Reader Unit := do
  let env ← read
  let location := d.location.getD t.location
  let d := d.fill (some location) (some (env.sourceLine location.line))
  modify fun s => { s with report := s.report.add d }

/-! ## Tokens -/

/-- The end of a stream that has no end of its own. -/
def endOfStream : Token := ⟨.eof, "", "<input>", 0, 0⟩

/-- Draws one more token if no more than `n` are ahead and the end has not been drawn. -/
def draw (n : Nat) : Reader Unit := do
  let env ← read
  let s ← get
  if s.ahead.length ≤ n ∧ s.eof.isNone then
    let d := Frames.draw s.settings.flags env.sourceLine s.frames s.unread
    let s :=
      { s with
        unread := d.rest
        frames := d.frames
        report := s.report.addAll d.errors
        notes := s.notes ++ d.notes }
    set s
    match ← orFail d.found with
    | some t =>
      if t.kind = .eof then set { s with eof := some t } else set { s with ahead := s.ahead ++ [t] }
    | none => set { s with eof := some endOfStream }

/-- The token at a place ahead; past the end, the end. -/
def ahead (n : Nat) : Reader Token := do
  let s ← get
  return (s.ahead[n]? <|> s.eof).getD endOfStream

/-- The next token. -/
def peek : Reader Token := do
  draw 0
  ahead 0

/-- The token after the next one. -/
def peekSecond : Reader Token := do
  draw 0
  draw 1
  ahead 1

/-- Takes the next token; the end is never taken. -/
def advance : Reader Token := do
  let t ← peek
  if t.kind ≠ .eof then
    modify fun s => { s with ahead := s.ahead.drop 1, taken := s.taken + 1, last := some t }
  return t

/-- Whether the next token is the given symbol. -/
def check (symbol : String) : Reader Bool := do return (← peek).isSymbol symbol

/-- Takes the next token if it is the given symbol. -/
def accept (symbol : String) : Reader Bool := do
  if ← check symbol then
    let _ ← advance
    return true
  else return false

def found (t : Token) : Found :=
  match t.kind with
  | .eof => .endOfFile
  | .newline => .endOfLine
  | _ => .text t.text

def unexpected {α : Type} (t : Token) (wanted : Wanted) : Reader α :=
  refuse t.location (.malformed (.expected wanted (found t)))

/-- Takes the given symbol. -/
def expectAs (symbol : String) (wanted : Wanted) : Reader Token := do
  if ← check symbol then advance else unexpected (← peek) wanted

def expect (symbol : String) : Reader Token := expectAs symbol (.symbol symbol)

/-- Takes a name. -/
def expectName (wanted : Wanted) : Reader Token := do
  let t ← peek
  if t.kind = .identifier then advance else unexpected t wanted

/-! ## Loops -/

/-- What a step of a loop says: go on, or end with a result. -/
inductive Round (β α : Type) where
  | again (b : β)
  | done (a : α)

/-- Repeats a step until it is done. Every step that goes on takes a token. -/
def rounds {α β : Type} (step : β → Reader (Round β α)) (b : β) : Reader α := fun env s =>
  match step b env s with
  | .error e s' => .error e s'
  | .ok (.done a) s' => .ok a s'
  | .ok (.again b') s' =>
    if s'.left < s.left then rounds step b' env s' else .error (.failed .stalled) s'
termination_by _ s => s.left

/-- A token of an expression, after the tokens `ts` and in so many brackets. -/
def collectRound (stops : List String) :
    Nat × List Token → Reader (Round (Nat × List Token) (List Token))
  | (depth, ts) => do
    let t ← peek
    if t.kind = .eof ∨ t.kind = .directive ∨ t.kind = .newline then return .done ts
    else if depth = 0 ∧ stops.any t.isSymbol then return .done ts
    else
      let _ ← advance
      let deeper :=
        if t.isSymbol "(" || t.isSymbol "[" then depth + 1
        else if t.isSymbol ")" || t.isSymbol "]" then depth - 1
        else depth
      return .again (deeper, ts ++ [t])

/-- Takes the tokens of an expression up to a stop that is in no brackets, a directive or the end of
the line or input. -/
def collect (stops : List String) : Reader (List Token) := rounds (collectRound stops) (0, [])

/-! ## Recovery -/

/-- A token of a statement that is skipped. -/
def skipRound (line : Nat) (commaEnds : Bool) (_ : Unit) : Reader (Round Unit Unit) := do
  let t ← peek
  if t.kind = .eof ∨ t.kind = .directive ∨ line < t.line then return .done ()
  else if t.isSymbol ";" || (commaEnds && t.isSymbol ",") then
    let _ ← advance
    return .done ()
  else if t.isSymbol "\x7d" then return .done ()
  else
    let _ ← advance
    return .again ()

/-- Skips the rest of a statement that starts on the given line: through a terminator, or up to a
closing brace, a directive, or a token on a later line. -/
def skipStatement (line : Nat) (commaEnds : Bool) : Reader Unit := rounds (skipRound line commaEnds) ()

def endsStatement (commaEnds : Bool) (t : Token) : Bool :=
  t.isSymbol ";" || t.isSymbol "\x7d" || (commaEnds && t.isSymbol ",")

/-- Goes to the next statement after an error, where `start` tokens had been taken before the failed
one. A statement that failed after its own terminator is complete; otherwise at least one token is
skipped. -/
def synchronize (line start : Nat) (commaEnds : Bool) : Reader Unit := do
  let s ← get
  if s.taken = start then
    let _ ← advance
    skipStatement line commaEnds
  else if s.last.any (endsStatement commaEnds) then return ()
  else skipStatement line commaEnds

/-- Goes on after a statement that starts with the given token, before which `start` tokens had been
taken: a refused one is recorded and skipped, and gives the fallback. -/
def recover {α : Type} (t : Token) (start : Nat) (commaEnds : Bool) (fallback : α) :
    Halt Diagnostic → Reader α
  | .refused d => do
    record d t
    synchronize t.line start commaEnds
    return fallback
  | .failed f => fail f

/-- Reads a statement, and goes on after it if it is refused. -/
def attempt {α : Type} (t : Token) (start : Nat) (commaEnds : Bool) (fallback : α)
    (statement : Reader α) : Reader α := tryCatch statement (recover t start commaEnds fallback)

end Reader
end RecordView.Declaration
