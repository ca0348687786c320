import Mathlib.Data.Nat.Digits.Defs
import RecordView.Script.Accessor

/-! The meaning of the code of bit fields: values of a running script, literals as their digits are
read, and operators on thirty-two bits. -/
namespace RecordView

/-! ## Literals -/

namespace Text

variable {b : Nat} {f : Char → Char}

theorem numeralFrom_toDigits (hb : 1 < b) (hf : ∀ d < b, digitValue (f (Nat.digitChar d)) = d)
    (n : Nat) :
    numeralFrom b 0 ((Nat.toDigits b n).map f) = n ∧
      ∀ c ∈ (Nat.toDigits b n).map f, digitValue c < b := by
  -- the digits of a number are those of its quotient and one more
  induction n using Nat.strongRecOn with
  | ind n ih =>
    rw [Nat.toDigits_eq_if hb]
    split
    · rename_i hn
      simp [numeralFrom, hf n hn, hn]
    · rename_i hn
      have hquot : n / b < n := Nat.div_lt_self (by omega) hb
      have hrest : n % b < b := Nat.mod_lt n (by omega)
      have hmul : n / b * b + n % b = n := by
        rw [Nat.mul_comm]
        exact Nat.div_add_mod n b
      obtain ⟨hvalue, hdigits⟩ := ih (n / b) hquot
      simp only [numeralFrom] at hvalue
      constructor
      · simp [numeralFrom, hvalue, hf _ hrest, hmul]
      · intro c hc
        rw [List.map_append, List.mem_append] at hc
        rcases hc with hc | hc
        · exact hdigits c hc
        · obtain rfl := List.mem_singleton.mp hc
          rw [hf _ hrest]
          exact hrest

theorem numeral?_toDigits (hb : 1 < b) (hf : ∀ d < b, digitValue (f (Nat.digitChar d)) = d)
    (n : Nat) : numeral? b ((Nat.toDigits b n).map f) = some n := by
  obtain ⟨hvalue, hdigits⟩ := numeralFrom_toDigits hb hf n
  have hne : ((Nat.toDigits b n).map f).isEmpty = false := by
    simp [Nat.toDigits_ne_nil]
  have hlt : ((Nat.toDigits b n).map f).any (fun c => b ≤ digitValue c) = false := by
    rw [List.any_eq_false]
    intro c hc
    simpa using hdigits c hc
  rw [numeral?, hne, hlt, hvalue]
  rfl

theorem numeral?_hexUpper (n : Nat) : numeral? 16 (hexUpper n).toList = some n := by
  rw [hexUpper, String.toList_ofList]
  exact numeral?_toDigits (by decide) (by decide) n

theorem numeral?_toString (n : Nat) : numeral? 10 (toString n).toList = some n := by
  have h := numeral?_toDigits (b := 10) (f := id) (by decide) (by decide) n
  rwa [List.map_id, ← String.toList_ofList (l := Nat.toDigits 10 n),
    ← Nat.toString_eq_ofList_toDigits] at h

end Text

namespace Script

/-! ## Values -/

inductive Value where
  | number (n : Int)
  | truth (b : Bool)
  deriving DecidableEq

namespace Value

/-- The thirty-two bits that a bitwise operator sees. -/
def bits : Value → BitVec 32
  | number n => BitVec.ofInt 32 n
  | truth b => (BitVec.ofBool b).setWidth 32

/-- Bitwise operators give signed numbers. -/
def ofBits (x : BitVec 32) : Value := number x.toInt

def truthy : Value → Bool
  | number n => n != 0
  | truth b => b

def stored (bytes : Nat) : Value → Nat
  | number n => (n % 2 ^ (8 * bytes)).toNat
  | truth b => b.toNat

@[simp] theorem bits_ofBits (x : BitVec 32) : (ofBits x).bits = x := BitVec.ofInt_toInt

@[simp] theorem bits_natCast (n : Nat) : (number n).bits = BitVec.ofNat 32 n :=
  BitVec.ofInt_natCast 32 n

theorem truthy_ofBits (x : BitVec 32) : (ofBits x).truthy = (x != 0#32) := by
  have h : x.toInt = 0 ↔ x = 0#32 := by
    rw [← BitVec.toInt_inj, BitVec.toInt_zero]
  rw [ofBits, truthy, Bool.eq_iff_iff, bne_iff_ne, bne_iff_ne, Ne, Ne, h]

/-- A word holds the lowest bits of what is stored. -/
theorem stored_ofBits (x : BitVec 32) {bytes : Nat} (h : bytes ∈ [1, 2, 4]) :
    (ofBits x).stored bytes = x.toNat % 2 ^ (8 * bytes) := by
  have hdvd : 2 ^ (8 * bytes) ∣ 2 ^ 32 := by
    simp only [List.mem_cons, List.not_mem_nil, or_false] at h
    exact Nat.pow_dvd_pow 2 (by omega)
  obtain ⟨k, hk⟩ := hdvd
  -- a negative number differs from the unsigned one by a multiple of the size of the word
  have hmod : x.toInt % 2 ^ (8 * bytes) = x.toNat % 2 ^ (8 * bytes) := by
    rw [BitVec.toInt_eq_toNat_cond]
    split
    · rfl
    · rw [hk]
      push_cast
      exact Int.sub_mul_emod_self_left _ _ _
  rw [ofBits, stored, hmod]
  norm_cast

end Value

/-! ## Expressions -/

/-- The variables of an accessor: the word as it is read, what has been kept of it, and the value that
a setter is given. -/
structure Locals where
  word : Nat
  temp : Option Value := none
  value : Option Value := none

namespace BitCode

/-- The value of an expression, none if it names a variable that there is not. Literals mean what
their digits say, and shifts count modulo thirty-two. -/
def eval (x : Locals) : BitCode → Option Value
  | word => some (.number x.word)
  | temp => x.temp
  | value => x.value
  | decimal n => (Text.numeral? 10 (toString n).toList).map fun m => .number m
  | hex n => (Text.numeral? 16 (Text.hexUpper n).toList).map fun m => .number m
  | and a b => do return .ofBits ((← a.eval x).bits &&& (← b.eval x).bits)
  | or a b => do return .ofBits ((← a.eval x).bits ||| (← b.eval x).bits)
  | shiftLeft a n => do
    let m ← Text.numeral? 10 (toString n).toList
    return .ofBits ((← a.eval x).bits <<< (m % 32))
  | shiftRight a n => do
    let m ← Text.numeral? 10 (toString n).toList
    return .ofBits ((← a.eval x).bits.sshiftRight (m % 32))
  | paren a => a.eval x
  | boolean a => do return .truth (← a.eval x).truthy
  | choose c a b => do if (← c.eval x).truthy then a.eval x else b.eval x

def rank : BitCode → Nat
  | choose .. => 0
  | or .. => 1
  | and .. => 2
  | shiftLeft .. | shiftRight .. => 3
  | _ => 4

/-- The text of the expression is read as the expression: an operand that binds less tightly than
its operator is in parentheses. -/
def Grouped : BitCode → Prop
  | and a b => 2 ≤ a.rank ∧ 3 ≤ b.rank ∧ a.Grouped ∧ b.Grouped
  | or a b => 1 ≤ a.rank ∧ 2 ≤ b.rank ∧ a.Grouped ∧ b.Grouped
  | shiftLeft a _ | shiftRight a _ => 3 ≤ a.rank ∧ a.Grouped
  | paren a | boolean a => a.Grouped
  | choose c a b => 1 ≤ c.rank ∧ c.Grouped ∧ a.Grouped ∧ b.Grouped
  | _ => True

variable {x : Locals} {a b : BitCode} {u v : Value}

theorem eval_hex (n : Nat) : (hex n).eval x = some (.number n) := by
  rw [eval, Text.numeral?_hexUpper]
  rfl

theorem eval_decimal (n : Nat) : (decimal n).eval x = some (.number n) := by
  rw [eval, Text.numeral?_toString]
  rfl

theorem eval_and (ha : a.eval x = some u) (hb : b.eval x = some v) :
    (and a b).eval x = some (.ofBits (u.bits &&& v.bits)) := by
  rw [eval, ha, hb]
  rfl

theorem eval_or (ha : a.eval x = some u) (hb : b.eval x = some v) :
    (or a b).eval x = some (.ofBits (u.bits ||| v.bits)) := by
  rw [eval, ha, hb]
  rfl

theorem eval_shiftRight (ha : a.eval x = some u) {n : Nat} (hn : n < 32) :
    (shiftRight a n).eval x = some (.ofBits (u.bits.sshiftRight n)) := by
  rw [eval, ha, Text.numeral?_toString]
  simp only [Option.bind_eq_bind, Option.bind_some, Nat.mod_eq_of_lt hn]
  rfl

theorem eval_shiftLeft (ha : a.eval x = some u) {n : Nat} (hn : n < 32) :
    (shiftLeft a n).eval x = some (.ofBits (u.bits <<< n)) := by
  rw [eval, ha, Text.numeral?_toString]
  simp only [Option.bind_eq_bind, Option.bind_some, Nat.mod_eq_of_lt hn]
  rfl

theorem eval_choose {c : BitCode} (hc : c.eval x = some u) :
    (choose c a b).eval x = if u.truthy then a.eval x else b.eval x := by
  rw [eval, hc]
  rfl

theorem eval_down (ha : a.eval x = some u) {n : Nat} (hn : n < 32) :
    ∃ v, (down a n).eval x = some v ∧ v.bits = u.bits.sshiftRight n := by
  unfold down
  split
  · rename_i h0
    exact ⟨u, ha, by rw [h0, BitVec.sshiftRight_zero]⟩
  · exact ⟨_, eval_shiftRight ha hn, Value.bits_ofBits _⟩

theorem eval_up (ha : a.eval x = some u) {n : Nat} (hn : n < 32) :
    ∃ v, (up a n).eval x = some v ∧ v.bits = u.bits <<< n := by
  unfold up
  split
  · rename_i h0
    exact ⟨u, ha, by rw [h0, BitVec.shiftLeft_zero]⟩
  · exact ⟨_, eval_shiftLeft ha hn, Value.bits_ofBits _⟩

end BitCode

def BitAccess.read (a : BitAccess) (w : Nat) : Option Value := a.get.eval { word := w }

def BitAccess.write (a : BitAccess) (bytes w : Nat) (v : Int) : Option Nat := do
  let temp ←
    match a.temp with
    | none => pure none
    | some t => some <$> t.eval { word := w, value := some (.number v) }
  let result ← a.set.eval { word := w, temp, value := some (.number v) }
  return result.stored bytes

namespace BitAccess

variable {a : BitAccess} {t : BitCode} {u r : Value} {w : Nat} {v : Int}

theorem write_of_none (ht : a.temp = none)
    (hr : a.set.eval { word := w, value := some (.number v) } = some r) (bytes : Nat) :
    a.write bytes w v = some (r.stored bytes) := by
  simp [write, ht, hr]

theorem write_of_some (ht : a.temp = some t)
    (hu : t.eval { word := w, value := some (.number v) } = some u)
    (hr : a.set.eval ⟨w, some u, some (.number v)⟩ = some r) (bytes : Nat) :
    a.write bytes w v = some (r.stored bytes) := by
  simp [write, ht, hu, hr]

end BitAccess

/-- All expressions of an accessor are read as they are meant. -/
def BitAccess.Grouped (a : BitAccess) : Prop :=
  a.get.Grouped ∧ (∀ t ∈ a.temp, t.Grouped) ∧ a.set.Grouped

end Script
end RecordView
