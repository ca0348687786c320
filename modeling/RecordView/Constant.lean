import RecordView.Failure
import RecordView.Keyed
import RecordView.Number.Decimal
import RecordView.Number.Word
import RecordView.Problem
import RecordView.Text.Quoted

/-! Constants: their truth, their value as numbers, their texts, and the names bound to them. -/
namespace RecordView

/-- The value of a constant expression. `absent` is the value of a name that is bound to nothing. -/
inductive Constant where
  | int (n : Int)
  | real (x : Float)
  | text (s : String)
  | bool (b : Bool)
  | absent
  deriving DecidableEq, Repr

abbrev Evaluation := Except (Halt ExprProblem)

namespace Constant

def ofNumber : Number → Constant
  | .int n => .int n
  | .real x => .real x

/-- Zero, the empty text, `false` and an absent value are false. -/
def truthy : Constant → Bool
  | int n => n != 0
  | real x => x != 0.0
  | text s => !s.isEmpty
  | bool b => b
  | absent => false

/-- Doubles are written with the fewest digits that read back, positionally from `10 ^ -4` up to
below `10 ^ 16`. -/
def style : Decimal.Style := ⟨-4, 16, 2⟩

/-- The decimal text of an integer. -/
def decimal (n : Int) : Except Failure String :=
  if Decimal.writable n then .ok (toString n) else .error .tooManyDigits

/-- A constant as an operand of arithmetic. A text is read as a number; a blank one is zero. -/
def number : Constant → Evaluation Number
  | int n => .ok (.int n)
  | real x => .ok (.real x)
  | bool b => .ok (.int (if b then 1 else 0))
  | text s =>
    if (Text.trim s).isEmpty then .ok (.int 0)
    else
      match Decimal.readReal? s with
      | some x => .ok (Number.ofReal x)
      | none => .error (.refused (.notNumber s))
  | absent => .error (.failed .absentOperand)

/-- A constant as a part of a concatenated text. -/
def inText : Constant → Except Failure String
  | int n => decimal n
  | real x =>
    match Binary64.integer? x with
    | some n => decimal n
    | none => .ok (style.text x)
  | text s => .ok s
  | bool b => .ok (if b then "true" else "false")
  | absent => .ok "None"

/-- A constant as a message shows it. -/
def shown : Constant → Except Failure String
  | int n => decimal n
  | real x => .ok (style.text x)
  | text s => .ok s
  | bool b => .ok (if b then "True" else "False")
  | absent => .ok "None"

/-- The value of a numeric literal. Separators are ignored; a mark selects the base; a point or
exponent makes a double. -/
def literal? (written : String) : Option Constant :=
  let cs := written.toList.filter (· != '_')
  let based (b : Nat) (ds : List Char) : Option Constant := (Text.numeral? b ds).map fun n => .int n
  match cs with
  | '0' :: 'x' :: ds | '0' :: 'X' :: ds => based 16 ds
  | '0' :: 'b' :: ds | '0' :: 'B' :: ds => based 2 ds
  | '0' :: 'o' :: ds | '0' :: 'O' :: ds => based 8 ds
  | _ =>
    if cs.any (fun c => c == '.' || c == 'e' || c == 'E') then (Decimal.unsigned? false cs).map .real
    else if cs.length ≤ Decimal.maxDigits then based 10 cs
    else none

end Constant

/-- Names with their constants. -/
abbrev Scope := Keyed Constant

end RecordView
