/-! Doubles as exact multiples of powers of two, and correctly rounded ratios. -/
namespace RecordView.Binary64

/-- What a double stands for: a multiple of a power of two, an infinity, or no number. -/
inductive Exact where
  | finite (negative : Bool) (m : Nat) (e : Int)
  | infinite (negative : Bool)
  | nan
  deriving DecidableEq, Repr

/-- The weight of the sign bit. -/
def signUnit : Nat := 1 <<< 63

/-- The weight of the lowest exponent bit, above fifty-two fraction bits. -/
def exponentUnit : Nat := 1 <<< 52

/-- Sign, eleven exponent bits and fifty-two fraction bits, read as `m * 2 ^ e`. -/
def decode (x : Float) : Exact :=
  let bits := x.toBits.toNat
  let negative := bits / signUnit % 2 == 1
  let exponent : Nat := bits / exponentUnit % 2048
  let fraction := bits % exponentUnit
  if exponent = 2047 then
    if fraction = 0 then .infinite negative else .nan
  else if exponent = 0 then .finite negative fraction (-1074)
  else .finite negative (fraction + exponentUnit) ((exponent : Int) - 1075)

def infinity (negative : Bool) : Float :=
  Float.ofBits (UInt64.ofNat ((if negative then signUnit else 0) + 2047 * exponentUnit))

/-- The absent number, quiet and without payload. -/
def nan : Float := Float.ofBits (UInt64.ofNat (2047 * exponentUnit + exponentUnit / 2))

/-- The double `m * 2 ^ e` for `m` below `2 ^ 53`, normal or with `e = -1074`; infinite beyond the
largest exponent. -/
def encode (negative : Bool) (m : Nat) (e : Int) : Float :=
  let sign := if negative then signUnit else 0
  if m < exponentUnit then Float.ofBits (UInt64.ofNat (sign + m))
  else if 971 < e then infinity negative
  else Float.ofBits (UInt64.ofNat (sign + (e + 1075).toNat * exponentUnit + (m - exponentUnit)))

/-- The quotient rounded to the nearest integer, to the even one at a midpoint. -/
def roundDiv (num den : Nat) : Nat :=
  let q := num / den
  let r := num % den
  if 2 * r < den then q else if den < 2 * r then q + 1 else q + q % 2

/-- Multiplies a ratio by `2 ^ (-e)`. -/
def scaleDown (num den : Nat) (e : Int) : Nat × Nat :=
  if 0 ≤ e then (num, den <<< e.toNat) else (num <<< (-e).toNat, den)

/-- The exponent of the leading bit of a positive ratio. -/
def leadingExponent (num den : Nat) : Int :=
  let k : Int := num.log2 - den.log2
  let (a, b) := scaleDown num den k
  if b ≤ a then k else k - 1

/-- The double nearest to `num / den`, ties to even; infinite when the ratio is too large. -/
def ofRatio (negative : Bool) (num den : Nat) : Float :=
  if num = 0 then encode negative 0 (-1074)
  else
    let e := max (leadingExponent num den - 52) (-1074)
    let (a, b) := scaleDown num den e
    let m := roundDiv a b
    if m = 2 * exponentUnit then encode negative exponentUnit (e + 1) else encode negative m e

/-- The double nearest to an integer. -/
def ofInt (n : Int) : Float := ofRatio (n < 0) n.natAbs 1

/-- A finite double as a ratio of an integer and a power of two. -/
def ratio? (x : Float) : Option (Int × Nat) :=
  match decode x with
  | .finite negative m e =>
    let (a, b) := scaleDown m 1 (-e)
    some (if negative then -(a : Int) else a, b)
  | _ => none

/-- The integer part, toward zero, of a finite double. -/
def truncate? (x : Float) : Option Int :=
  (ratio? x).map fun (n, d) => n.tdiv d

/-- The value of a double that is an integer. -/
def integer? (x : Float) : Option Int :=
  (ratio? x).bind fun (n, d) => if n % d = 0 then some (n / d) else none

def isNaN (x : Float) : Bool := decode x == .nan

def isFinite (x : Float) : Bool := (ratio? x).isSome

/-- The remainder of the truncated quotient, with the sign of `x`; exact. -/
def remainder (x y : Float) : Float :=
  match decode x, decode y with
  | .finite negative m e, .finite _ n f =>
    let k := min e f
    let r := (m <<< (e - k).toNat) % (n <<< (f - k).toNat)
    let (a, b) := scaleDown r 1 (-k)
    ofRatio negative a b
  | .finite .., .infinite _ => x
  | _, _ => nan

end RecordView.Binary64
