import RecordView.Number.Binary64
import RecordView.Text.Blank
import RecordView.Text.Digit

/-! Decimal texts: the shortest digits of a double, their layout, and the reading of numbers. -/
namespace RecordView.Decimal
open RecordView.Binary64

/-! ## Writing -/

def digitCount (n : Nat) : Nat := (Nat.toDigits 10 n).length

/-- The exponent of the leading decimal digit of a positive ratio. -/
def leadingExponent (num den : Nat) : Int :=
  if den ≤ num then digitCount (num / den) - 1
  else -(digitCount ((den + num - 1) / num - 1) : Int)

/-- Multiplies a ratio by `10 ^ (-k)`. -/
def scaleDown (num den : Nat) (k : Int) : Nat × Nat :=
  if 0 ≤ k then (num, den * Nat.pow 10 k.toNat) else (num * Nat.pow 10 (-k).toNat, den)

/-- The reals that round to `m * 2 ^ e`, in quarter units: the lower half gap is smaller above a
power of two. The ends belong to the interval when `m` is even. -/
def roundsBack (m : Nat) (e : Int) (num den : Nat) : Bool :=
  let low := if m = exponentUnit ∧ -1074 < e then 4 * m - 1 else 4 * m - 2
  let high := 4 * m + 2
  let (a, b) := Binary64.scaleDown num den (e - 2)
  if m % 2 = 0 then low * b ≤ a && a ≤ high * b else low * b < a && a < high * b

/-- The neighbour of `a / b` on the integers that `ok` accepts; of two the nearer, at a midpoint the
even one. -/
def pick (a b : Nat) (ok : Nat → Bool) : Option Nat :=
  let q := a / b
  match ok q, ok (q + 1) with
  | true, true => some (Binary64.roundDiv a b)
  | true, false => some q
  | false, true => some (q + 1)
  | false, false => none

/-- Tries grids of one, two, ... significant digits; the first that holds a number rounding back
wins. -/
def shortestFrom (m : Nat) (e : Int) (num den : Nat) (top : Int) : Nat → Nat → Nat × Int
  | 0, n => (roundDiv (scaleDown num den (top - n)).1 (scaleDown num den (top - n)).2, top - n)
  | left + 1, n =>
    let k := top - n
    let (a, b) := scaleDown num den k
    let ok (d : Nat) : Bool :=
      if 0 ≤ k then roundsBack m e (d * Nat.pow 10 k.toNat) 1
      else roundsBack m e d (Nat.pow 10 (-k).toNat)
    match pick a b ok with
    | some d => (d, k)
    | none => shortestFrom m e num den top left (n + 1)

/-- Digits and exponent of the shortest decimal that rounds to the positive double `m * 2 ^ e`.
Seventeen digits always do. -/
def shortest (m : Nat) (e : Int) : Nat × Int :=
  let (num, den) := Binary64.scaleDown m 1 (-e)
  shortestFrom m e num den (leadingExponent num den) 17 0

/-- How a double is laid out: the exponents written positionally, and the least number of exponent
digits. -/
structure Style where
  fixedFrom : Int
  fixedBelow : Int
  exponentDigits : Nat

def zeros (n : Nat) : List Char := List.replicate n '0'

/-- Lays out the digits `ds`, the first of which has the weight `10 ^ e`. -/
def Style.layout (style : Style) (ds : List Char) (e : Int) : List Char :=
  if e < style.fixedFrom ∨ style.fixedBelow ≤ e then
    let mantissa := match ds with
      | d :: [] => [d]
      | d :: rest => d :: '.' :: rest
      | [] => []
    let power := Nat.toDigits 10 e.natAbs
    let sign := if e < 0 then '-' else '+'
    mantissa ++ 'e' :: sign :: zeros (style.exponentDigits - power.length) ++ power
  else if e < 0 then '0' :: '.' :: zeros ((-e).toNat - 1) ++ ds
  else
    let whole := e.toNat + 1
    let fraction := ds.drop whole
    ds.take whole ++ zeros (whole - ds.length) ++ '.' :: (if fraction.isEmpty then ['0'] else fraction)

/-- The text of a double: the fewest digits that read back, in the given style. -/
def Style.text (style : Style) (x : Float) : String :=
  match decode x with
  | .nan => "nan"
  | .infinite negative => if negative then "-inf" else "inf"
  | .finite negative m e =>
    let sign := if negative then ['-'] else []
    if m = 0 then String.ofList (sign ++ style.layout ['0'] 0)
    else
      let (d, k) := shortest m e
      let written := Nat.toDigits 10 d
      let significant := Text.dropEnd (· == '0') written
      String.ofList (sign ++ style.layout significant (k + written.length - 1))

/-! ## Reading -/

/-- Blanks that may surround a number. -/
def isNumberBlank (c : Char) : Bool := Text.isBlank c && !(28 ≤ c.toNat && c.toNat ≤ 31)

def isDigit (c : Char) : Bool := '0' ≤ c && c ≤ '9'

/-- Digits of every script written as ASCII digits. -/
def plainDigit (c : Char) : Char :=
  match Text.decimalDigit? c with
  | some d => Nat.digitChar d
  | none => c

/-- Removes separators; each stands between two digits. -/
def dropSeparators? (before : Bool) : List Char → Option (List Char)
  | [] => some []
  | '_' :: c :: cs =>
    if before && isDigit c then (dropSeparators? true cs).map (c :: ·) else none
  | c :: cs => if c = '_' then none else (dropSeparators? (isDigit c) cs).map (c :: ·)

/-- The sign at the head of a text, and what follows it. -/
def takeSign : List Char → Bool × List Char
  | '-' :: cs => (true, cs)
  | '+' :: cs => (false, cs)
  | cs => (false, cs)

/-- The double nearest to `m * 10 ^ k`. Far outside the range the powers are not computed. -/
def ofScaled (negative : Bool) (m : Nat) (k : Int) : Float :=
  let size := k + digitCount m
  if m = 0 ∨ size < -400 then ofRatio negative 0 1
  else if 400 < size then infinity negative
  else if 0 ≤ k then ofRatio negative (m * Nat.pow 10 k.toNat) 1
  else ofRatio negative m (Nat.pow 10 (-k).toNat)

/-- An exponent part, if the whole rest is one. -/
def exponent? : List Char → Option Int
  | [] => some 0
  | c :: cs =>
    if c = 'e' ∨ c = 'E' then
      let (negative, ds) := takeSign cs
      if ds.all isDigit then
        (Text.numeral? 10 ds).map fun n => if negative then -(n : Int) else n
      else none
    else none

/-- A decimal number without sign: digits, a fraction, an exponent. -/
def unsigned? (negative : Bool) (cs : List Char) : Option Float :=
  let whole := cs.takeWhile isDigit
  let rest := cs.dropWhile isDigit
  let (fraction, rest) := match rest with
    | '.' :: more => (more.takeWhile isDigit, more.dropWhile isDigit)
    | _ => ([], rest)
  match Text.numeral? 10 (whole ++ fraction), exponent? rest with
  | some m, some k => some (ofScaled negative m (k - fraction.length))
  | _, _ => none

/-- A signed number, infinity or the absent number in any case of letters. -/
def signed? (cs : List Char) : Option Float :=
  let (negative, body) := takeSign cs
  let word := body.map Char.toLower
  if word = "inf".toList ∨ word = "infinity".toList then some (infinity negative)
  else if word = "nan".toList then some nan
  else unsigned? negative body

/-- Reads a number text: blanks around it, digits of any script, single separators between digits.
-/
def readReal? (s : String) : Option Float :=
  let body := Text.dropEnd isNumberBlank (s.toList.dropWhile isNumberBlank)
  (dropSeparators? false (body.map plainDigit)).bind signed?

/-- The most digits of an integer that are read or written in base ten. -/
def maxDigits : Nat := 4300

/-- Reads an integer text under the same rules; more than `maxDigits` digits are refused. -/
def readInt? (s : String) : Option Int := do
  let body := Text.dropEnd isNumberBlank (s.toList.dropWhile isNumberBlank)
  let (negative, written) := takeSign (body.map plainDigit)
  let ds ← dropSeparators? false written
  if ds.all isDigit && ds.length ≤ maxDigits then
    let n ← Text.numeral? 10 ds
    some (if negative then -(n : Int) else n)
  else none

/-- Whether an integer has a decimal text: at most `maxDigits` digits. -/
def writable (n : Int) : Bool := n.natAbs < Nat.pow 10 maxDigits

end RecordView.Decimal
