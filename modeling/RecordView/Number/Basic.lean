import RecordView.Number.Binary64

/-! Numbers of constant expressions: integers of any size and doubles. -/
namespace RecordView

inductive Number where
  | int (n : Int)
  | real (x : Float)
  deriving DecidableEq, Repr

namespace Number
open Binary64

/-- A number as a double; none when an integer is too large for one. -/
def toReal? : Number → Option Float
  | .real x => some x
  | .int n =>
    let x := ofInt n
    if isFinite x then some x else none

/-- A double that is an integer becomes that integer. -/
def ofReal (x : Float) : Number :=
  match integer? x with
  | some n => .int n
  | none => .real x

def isZero : Number → Bool
  | .int n => n == 0
  | .real x => x == 0.0

/-- Exact on integers, double arithmetic as soon as one side is a double. -/
def arith (onInt : Int → Int → Int) (onReal : Float → Float → Float) : Number → Number → Option Number
  | .int a, .int b => some (.int (onInt a b))
  | a, b => do
    let x ← a.toReal?
    let y ← b.toReal?
    some (.real (onReal x y))

def add : Number → Number → Option Number := arith (· + ·) (· + ·)

def sub : Number → Number → Option Number := arith (· - ·) (· - ·)

def mul : Number → Number → Option Number := arith (· * ·) (· * ·)

def neg : Number → Number
  | .int n => .int (-n)
  | .real x => .real (-x)

/-- Division by a number that is not zero. An integer quotient stays an integer when it is exact;
otherwise it is the double nearest to the ratio, and none if that is infinite. -/
def div : Number → Number → Option Number
  | .int a, .int b =>
    if a % b = 0 then some (.int (a / b))
    else
      let x := ofRatio (decide (a < 0) != decide (b < 0)) a.natAbs b.natAbs
      if isFinite x then some (.real x) else none
  | a, b => do
    let x ← a.toReal?
    let y ← b.toReal?
    some (.real (x / y))

/-- Why a remainder has no value. -/
inductive RemError where
  | overflow
  | infiniteDividend
  deriving DecidableEq, Repr

/-- The remainder of two doubles, for a divisor that is not zero. -/
def rem (a b : Number) : Except RemError Number :=
  match a.toReal?, b.toReal? with
  | some x, some y =>
    if !isFinite x && !isNaN x && !isNaN y then .error .infiniteDividend
    else .ok (ofReal (remainder x y))
  | _, _ => .error .overflow

/-- Compares an integer with a finite double exactly. -/
def compareReal (n : Int) (x : Float) : Ordering :=
  match decode x with
  | .finite .. =>
    match ratio? x with
    | some (a, d) => compare (n * d) a
    | none => .eq
  | .infinite negative => if negative then .gt else .lt
  | .nan => .eq

/-- How two numbers compare; none when one of them is no number. -/
def compare? : Number → Number → Option Ordering
  | .int a, .int b => some (compare a b)
  | .int a, .real y => if isNaN y then none else some (compareReal a y)
  | .real x, .int b => if isNaN x then none else some (compareReal b x).swap
  | .real x, .real y =>
    if isNaN x || isNaN y then none else some (if x < y then .lt else if x == y then .eq else .gt)

end Number
end RecordView
