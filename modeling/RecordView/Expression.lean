import RecordView.Problem
import RecordView.Token

/-! Constant expressions as trees, and the reading of a tree from tokens. Reading never fails: where
the grammar is broken the tree has a fault, and everything read before it stands before it in the
tree. -/
namespace RecordView

inductive UnaryOp where
  | plus
  | minus
  | complement
  | not
  deriving DecidableEq, Repr

inductive BinaryOp where
  | or
  | and
  | bitOr
  | bitXor
  | bitAnd
  | equal
  | unequal
  | less
  | lessEqual
  | greater
  | greaterEqual
  | shiftLeft
  | shiftRight
  | shiftRightZero
  | add
  | sub
  | mul
  | div
  | mod
  deriving DecidableEq, Repr

def UnaryOp.ofText? : String → Option UnaryOp
  | "+" => some .plus
  | "-" => some .minus
  | "~" => some .complement
  | "!" => some .not
  | _ => none

namespace BinaryOp

def ofText? : String → Option BinaryOp
  | "||" => some or
  | "&&" => some and
  | "|" => some bitOr
  | "^" => some bitXor
  | "&" => some bitAnd
  | "==" => some equal
  | "!=" => some unequal
  | "<" => some less
  | "<=" => some lessEqual
  | ">" => some greater
  | ">=" => some greaterEqual
  | "<<" => some shiftLeft
  | ">>" => some shiftRight
  | ">>>" => some shiftRightZero
  | "+" => some add
  | "-" => some sub
  | "*" => some mul
  | "/" => some div
  | "%" => some mod
  | _ => none

/-- Operators of a lower level bind more tightly; those of one level group to the left. -/
def level : BinaryOp → Nat
  | mul | div | mod => 1
  | add | sub => 2
  | shiftLeft | shiftRight | shiftRightZero => 3
  | less | lessEqual | greater | greaterEqual => 4
  | equal | unequal => 5
  | bitAnd => 6
  | bitXor => 7
  | bitOr => 8
  | and => 9
  | or => 10

/-- The level of the operator that binds least. -/
def loosest : Nat := 10

end BinaryOp

inductive Expr where
  | number (written : String)
  | text (s : String)
  | truth (b : Bool)
  | name (n : String)
  | defined (n : String)
  | group (e : Expr)
  | unary (op : UnaryOp) (e : Expr)
  | binary (op : BinaryOp) (l r : Expr)
  | choice (cond yes no : Expr)
  /-- Here the reading stopped. -/
  | fault (f : ExprFault)
  /-- After this part the reading stopped. -/
  | broken (e : Expr) (f : ExprFault)
  deriving DecidableEq, Repr

namespace Expr

/-- What is left of some tokens. -/
abbrev Rest (ts : List Token) := { r : List Token // r.length ≤ ts.length }

/-- Stops the reading: nothing is left. -/
def stop (ts : List Token) (e : Expr) : Expr × Rest ts := (e, ⟨[], Nat.zero_le _⟩)

def unaryOp? (t : Token) : Option UnaryOp :=
  if t.kind.isContent then none else UnaryOp.ofText? t.text

/-- The binary operator of the given level that a token is. -/
def binaryOp? (level : Nat) (t : Token) : Option BinaryOp :=
  if t.kind.isContent then none else (BinaryOp.ofText? t.text).filter (·.level == level)

/-- The operand of `defined`: a name, or a name in parentheses. -/
def readDefined (ts : List Token) : Expr × Rest ts :=
  match ts with
  | [] => stop [] (.fault .definedName)
  | t :: rest =>
    if t.isSymbol "(" then
      match rest with
      | [] => stop [t] (.fault .definedName)
      | n :: rest =>
        if n.kind = .identifier then
          match rest with
          | [] => stop [t, n] (.fault .definedClose)
          | close :: rest =>
            if close.isSymbol ")" then (.defined n.text, ⟨rest, by simp only [List.length_cons]; omega⟩)
            else stop (t :: n :: close :: rest) (.fault .definedClose)
        else stop (t :: n :: rest) (.fault .definedName)
    else if t.kind = .identifier then (.defined t.text, ⟨rest, by simp⟩)
    else stop (t :: rest) (.fault .definedName)

-- The measure of a call is one number, in which a token weighs more than all levels together.
mutual

/-- A choice `c ? a : b`, grouping to the right, or an expression of binary operators. -/
def readChoice (allowDefined : Bool) (ts : List Token) : Expr × Rest ts :=
  match readLevel allowDefined BinaryOp.loosest ts with
  | (c, ⟨[], h⟩) => (c, ⟨[], h⟩)
  | (c, ⟨t :: r, h⟩) =>
    if t.isSymbol "?" then
      have hr : r.length < ts.length := by simp only [List.length_cons] at h; omega
      match readChoice allowDefined r with
      | (a, ⟨[], _⟩) => stop ts (.choice c a (.fault .colonExpected))
      | (a, ⟨u :: s, hs⟩) =>
        if u.isSymbol ":" then
          have hs' : s.length < ts.length := by simp only [List.length_cons] at hs; omega
          match readChoice allowDefined s with
          | (b, ⟨q, hq⟩) => (.choice c a b, ⟨q, by omega⟩)
        else stop ts (.choice c a (.fault .colonExpected))
    else (c, ⟨t :: r, h⟩)
termination_by 16 * ts.length + 13
decreasing_by
  · exact Nat.add_lt_add_left (by decide) _
  · omega
  · omega

/-- An expression whose binary operators are of the given level or bind more tightly. -/
def readLevel (allowDefined : Bool) (level : Nat) (ts : List Token) : Expr × Rest ts :=
  match level with
  | 0 => readUnary allowDefined ts
  | k + 1 =>
    match readLevel allowDefined k ts with
    | (left, ⟨r, h⟩) =>
      match readMore allowDefined k left r with
      | (e, ⟨q, hq⟩) => (e, ⟨q, by omega⟩)
termination_by 16 * ts.length + (level + 2)
decreasing_by all_goals omega

/-- Further operands of level `k + 1` after the left one. -/
def readMore (allowDefined : Bool) (k : Nat) (left : Expr) (ts : List Token) : Expr × Rest ts :=
  match ts with
  | [] => (left, ⟨[], Nat.le_refl _⟩)
  | t :: r =>
    match binaryOp? (k + 1) t with
    | none => (left, ⟨t :: r, Nat.le_refl _⟩)
    | some op =>
      match readLevel allowDefined k r with
      | (right, ⟨q, hq⟩) =>
        have : q.length < (t :: r).length := by simp only [List.length_cons]; omega
        match readMore allowDefined k (.binary op left right) q with
        | (e, ⟨p, hp⟩) => (e, ⟨p, by omega⟩)
termination_by 16 * ts.length + (k + 2)
decreasing_by all_goals simp only [List.length_cons] at *; omega

/-- Unary operators before a primary expression. -/
def readUnary (allowDefined : Bool) (ts : List Token) : Expr × Rest ts :=
  match ts with
  | [] => stop [] (.fault .endOfExpression)
  | t :: r =>
    match unaryOp? t with
    | some op =>
      match readUnary allowDefined r with
      | (e, ⟨q, hq⟩) => (.unary op e, ⟨q, by simp only [List.length_cons]; omega⟩)
    | none => readPrimary allowDefined t r
termination_by 16 * ts.length + 1
decreasing_by all_goals simp only [List.length_cons]; omega

/-- A literal, a name, or an expression in parentheses, which starts with `t`. -/
def readPrimary (allowDefined : Bool) (t : Token) (r : List Token) : Expr × Rest (t :: r) :=
  let after (e : Expr) : Expr × Rest (t :: r) := (e, ⟨r, by simp⟩)
  match t.kind with
  | .number => after (.number t.text)
  | .string => after (.text t.text)
  | .identifier =>
    if t.text = "true" then after (.truth true)
    else if t.text = "false" then after (.truth false)
    else if t.text = "defined" ∧ allowDefined then
      match readDefined r with
      | (e, ⟨q, hq⟩) => (e, ⟨q, by simp only [List.length_cons]; omega⟩)
    else after (.name t.text)
  | .leftParen =>
    match readChoice allowDefined r with
    | (e, ⟨[], _⟩) => stop (t :: r) (.broken e .closeExpected)
    | (e, ⟨u :: s, hs⟩) =>
      if u.isSymbol ")" then (.group e, ⟨s, by simp only [List.length_cons] at hs ⊢; omega⟩)
      else stop (t :: r) (.broken e .closeExpected)
  | _ => stop (t :: r) (.fault (.valueExpected t.text))
termination_by 16 * (t :: r).length
decreasing_by simp only [List.length_cons]; omega

end

/-- Reads a whole list of tokens; a token that is left over is a fault after all the rest. -/
def read (allowDefined : Bool) (ts : List Token) : Expr :=
  match readChoice allowDefined ts with
  | (e, ⟨[], _⟩) => e
  | (e, ⟨t :: _, _⟩) => .broken e (.unexpected t.text)

end Expr
end RecordView
