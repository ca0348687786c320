import RecordView.Condition

/-! Nested conditional blocks, and what they select under given flags. -/
namespace RecordView

def ConditionWord.text : ConditionWord → String
  | .opening => "if"
  | .alternative => "else"
  | .closing => "endif"
  | .error => "error"

namespace Conditional

/-- A conditional line: its mark, the rest of the line, and the newline. -/
structure Line (w : ConditionWord) where
  mark : Token
  body : List Token
  ending : Token
  mark_word : mark.directive? = some w.text
  body_inLine : ∀ t ∈ body, t.kind ≠ .newline ∧ t.kind ≠ .eof
  ending_newline : ending.kind = .newline

/-- A token that is neither the end of the input nor the mark of a conditional line. -/
structure Plain where
  token : Token
  not_eof : token.kind ≠ .eof
  not_mark : ∀ w : ConditionWord, token.directive? ≠ some w.text

/-- A tree of plain tokens, `#error` lines, and `#if` lines with one or two branches. -/
inductive Block where
  | empty
  | plain (t : Plain) (next : Block)
  | error (l : Line .error) (next : Block)
  | single (c : Line .opening) (yes : Block) (close : Line .closing) (next : Block)
  | double (c : Line .opening) (yes : Block) (turn : Line .alternative) (no : Block)
      (close : Line .closing) (next : Block)

namespace Line
variable {w : ConditionWord}

def tokens (l : Line w) : List Token := l.mark :: l.body ++ [l.ending]

def diagnostic (l : Line w) (sourceLine : Int → String) (p : Problem) : Diagnostic :=
  ⟨p, some l.mark.location, some (sourceLine l.mark.line)⟩

def raised (l : Line .error) (sourceLine : Int → String) : Diagnostic :=
  l.diagnostic sourceLine
    (.condition (.raised (Text.trim (" ".intercalate (l.body.map (·.text))))))

def verdict (l : Line .opening) (flags : Scope) : Except (Halt Diagnostic) Constant :=
  Expr.evaluate flags true l.body l.mark.location

/-- A condition without a value counts as false. -/
def holds (l : Line .opening) (flags : Scope) : Bool :=
  match l.verdict flags with
  | .ok c => c.truthy
  | .error _ => false

def complaints (l : Line .opening) (flags : Scope) (sourceLine : Int → String) : List Diagnostic :=
  match l.verdict flags with
  | .error (.refused d) => [l.diagnostic sourceLine d.problem]
  | _ => []

def failure? (l : Line .opening) (flags : Scope) : Option Failure :=
  match l.verdict flags with
  | .error (.failed f) => some f
  | _ => none

end Line

namespace Block

def tokens : Block → List Token
  | empty => []
  | plain t next => t.token :: next.tokens
  | error l next => l.tokens ++ next.tokens
  | single c yes close next => c.tokens ++ (yes.tokens ++ (close.tokens ++ next.tokens))
  | double c yes turn no close next =>
    c.tokens ++ (yes.tokens ++ (turn.tokens ++ (no.tokens ++ (close.tokens ++ next.tokens))))

/-- The plain tokens of the selected branches. -/
def seen (flags : Scope) : Block → List Token
  | empty => []
  | plain t next => t.token :: next.seen flags
  | error _ next => next.seen flags
  | single c yes _ next => (if c.holds flags then yes.seen flags else []) ++ next.seen flags
  | double c yes _ no _ next =>
    (if c.holds flags then yes.seen flags else no.seen flags) ++ next.seen flags

/-- The errors of the selected branches and of the conditions that choose them. -/
def errors (flags : Scope) (sourceLine : Int → String) : Block → List Diagnostic
  | empty => []
  | plain _ next => next.errors flags sourceLine
  | error l next => l.raised sourceLine :: next.errors flags sourceLine
  | single c yes _ next =>
    c.complaints flags sourceLine ++ (if c.holds flags then yes.errors flags sourceLine else []) ++
      next.errors flags sourceLine
  | double c yes _ no _ next =>
    c.complaints flags sourceLine ++
      (if c.holds flags then yes.errors flags sourceLine else no.errors flags sourceLine) ++
      next.errors flags sourceLine

/-- The conditions that are evaluated: those in selected branches. -/
def conditions (flags : Scope) : Block → List (Line .opening)
  | empty => []
  | plain _ next => next.conditions flags
  | error _ next => next.conditions flags
  | single c yes _ next =>
    c :: ((if c.holds flags then yes.conditions flags else []) ++ next.conditions flags)
  | double c yes _ no _ next =>
    c :: ((if c.holds flags then yes.conditions flags else no.conditions flags) ++
      next.conditions flags)

def failure? (b : Block) (flags : Scope) : Option Failure :=
  (b.conditions flags).findSome? (·.failure? flags)

end Block
end Conditional
end RecordView
