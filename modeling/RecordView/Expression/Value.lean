import RecordView.Constant
import RecordView.Diagnostic
import RecordView.Expression

/-! The value of a constant expression. All parts are evaluated, from left to right, also those that
the result does not need; the first part without a value decides what is reported. -/
namespace RecordView

/-- A result that is too large for a double. -/
def finite : Option Number → Evaluation Constant
  | some n => .ok (.ofNumber n)
  | none => .error (.refused .notFinite)

def Failure.raise {ε α : Type} : Except Failure α → Except (Halt ε) α
  | .ok a => .ok a
  | .error f => .error (.failed f)

def UnaryOp.apply (op : UnaryOp) (v : Constant) : Evaluation Constant :=
  match op with
  | .plus => v.number.map .ofNumber
  | .minus => v.number.map fun n => .ofNumber n.neg
  | .complement => v.number.map fun n => .ofNumber n.complement
  | .not => .ok (.bool !v.truthy)

namespace BinaryOp

/-- Texts compare by their characters, everything else by number; nothing compares with what is no
number. -/
def order? : Constant → Constant → Evaluation (Option Ordering)
  | .text s, .text t => .ok (some (compare s t))
  | a, b => do
    let x ← a.number
    let y ← b.number
    return x.compare? y

/-- Both operands as numbers, the left one first. -/
def leftFirst (a b : Constant) : Evaluation (Number × Number) := do
  let x ← a.number
  let y ← b.number
  return (x, y)

/-- Both operands as numbers, the right one first. -/
def rightFirst (a b : Constant) : Evaluation (Number × Number) := do
  let y ← b.number
  let x ← a.number
  return (x, y)

/-- A sum joins texts as soon as one side is a text. -/
def sum : Constant → Constant → Evaluation Constant
  | .text s, b => do
    let t ← Failure.raise b.inText
    return .text (s ++ t)
  | a, .text t => do
    let s ← Failure.raise a.inText
    return .text (s ++ t)
  | a, b => do
    let (x, y) ← leftFirst a b
    finite (x.add y)

def remainder (x y : Number) : Evaluation Constant :=
  if y.isZero then .error (.refused .moduloByZero)
  else
    match x.rem y with
    | .ok r => .ok (.ofNumber r)
    | .error .overflow => .error (.refused .notFinite)
    | .error .infiniteDividend => .error (.failed .infiniteDividend)

/-- The value of an operator on two values. The logical operators give the operand that decides. -/
def apply (op : BinaryOp) (a b : Constant) : Evaluation Constant :=
  let word (f : Number → Number → Number)
      (operands : Constant → Constant → Evaluation (Number × Number)) :=
    (operands a b).map fun (x, y) => .ofNumber (f x y)
  let test (p : Ordering → Bool) : Evaluation Constant := (order? a b).map fun o => .bool (o.any p)
  match op with
  | or => .ok (if a.truthy then a else b)
  | and => .ok (if a.truthy then b else a)
  | bitOr => word Number.bitOr leftFirst
  | bitXor => word Number.bitXor leftFirst
  | bitAnd => word Number.bitAnd leftFirst
  | equal => test (· == .eq)
  | unequal => (order? a b).map fun o => .bool (o != some .eq)
  | less => test Ordering.isLT
  | lessEqual => test Ordering.isLE
  | greater => test Ordering.isGT
  | greaterEqual => test Ordering.isGE
  | shiftLeft => word Number.shiftLeft rightFirst
  | shiftRight => word Number.shiftRight rightFirst
  | shiftRightZero => word Number.shiftRightZero rightFirst
  | add => sum a b
  | sub => do
    let (x, y) ← leftFirst a b
    finite (x.sub y)
  | mul => do
    let (x, y) ← rightFirst a b
    finite (x.mul y)
  | div => do
    let (x, y) ← rightFirst a b
    if y.isZero then .error (.refused .divisionByZero) else finite (x.div y)
  | mod => do
    let (x, y) ← rightFirst a b
    remainder x y

end BinaryOp

namespace Expr

def refuse {α : Type} (p : ExprProblem) : Evaluation α := .error (.refused p)

/-- The value of a tree. -/
def value (scope : Scope) : Expr → Evaluation Constant
  | number written =>
    match Constant.literal? written with
    | some c => .ok c
    | none => refuse (.badNumber written)
  | text s => .ok (.text s)
  | truth b => .ok (.bool b)
  | name n =>
    match scope.find? n with
    | some c => .ok c
    | none => refuse (.undefined n)
  | defined n => .ok (.bool (scope.contains n))
  | group e => value scope e
  | unary op e => do op.apply (← value scope e)
  | binary op l r => do
    let a ← value scope l
    let b ← value scope r
    op.apply a b
  | choice c yes no => do
    let c ← value scope c
    let a ← value scope yes
    let b ← value scope no
    return if c.truthy then a else b
  | fault f => refuse (.fault f)
  | broken e f => do
    let _ ← value scope e
    refuse (.fault f)

/-- A whole result is finite, and an integer where it can be one. -/
def settle : Constant → Evaluation Constant
  | .real x =>
    if Binary64.isFinite x then .ok (.ofNumber (Number.ofReal x)) else refuse .notFinite
  | .absent => refuse .notScalar
  | c => .ok c

/-- The tokens that belong to an expression. -/
def content (ts : List Token) : List Token :=
  ts.filter fun t => t.kind != .comment && t.kind != .eof

/-- Where a problem of an expression is: the given place, or else that of its first token. -/
def place (location : Option Location) (ts : List Token) : Option Location :=
  location <|> (content ts).head?.map (·.location)

def located {α : Type} (location : Option Location) (ts : List Token) (r : Evaluation α) :
    Except (Halt Diagnostic) α :=
  r.mapError fun h => h.map fun p => ⟨.expression p, place location ts, none⟩

/-- The value of the expression that some tokens spell. -/
def evaluate (scope : Scope) (allowDefined : Bool) (ts : List Token)
    (location : Option Location := none) : Except (Halt Diagnostic) Constant :=
  located location ts <|
    if (content ts).isEmpty then refuse .empty
    else do settle (← (read allowDefined (content ts)).value scope)

/-- The largest count. -/
def maxCount : Int := 2147483647

/-- A count is an integer from one to the largest count. -/
def count (what : String) : Constant → Evaluation Nat
  | .int n =>
    if n ≤ 0 then do
      let _ ← Failure.raise (Constant.decimal n)
      refuse (.countLow what n)
    else if maxCount < n then do
      let _ ← Failure.raise (Constant.decimal n)
      refuse (.countHigh what n)
    else .ok n.toNat
  | c => do
    let shown ← Failure.raise c.shown
    refuse (.countKind what shown)

/-- The value of an expression that gives a count. -/
def evaluateCount (scope : Scope) (allowDefined : Bool) (ts : List Token)
    (location : Option Location := none) (what : String := "array count") : Except (Halt Diagnostic) Nat := do
  let c ← evaluate scope allowDefined ts location
  located location ts (count what c)

end Expr
end RecordView
