import Mathlib.Data.Int.Bitwise
import RecordView.Proofs.Expression.Derived

/-! The bitwise operators of constant expressions, on integers of any size: each of them gives what its
namesake on words of thirty-two bits gives on the residues of its operands. In integers, it is the
operator of two's complement on the operands wrapped into the range of signed words. -/
namespace RecordView

/-! ## Bits of signed words -/

/-- An integer is known by its bits. -/
theorem eq_of_testBit {m n : Int} (h : ∀ i, m.testBit i = n.testBit i) : m = n := by
  -- Far enough to the left all bits of a natural number are off, and all of a negative one are on.
  have mixed (k l : Nat) : ∃ i, (Int.ofNat k).testBit i ≠ (Int.negSucc l).testBit i := by
    have hk : k < 2 ^ (k + l) := Nat.lt_of_le_of_lt (Nat.le_add_right k l) Nat.lt_two_pow_self
    have hl : l < 2 ^ (k + l) := Nat.lt_of_le_of_lt (Nat.le_add_left l k) Nat.lt_two_pow_self
    exact ⟨k + l, by simp [Int.testBit, Nat.testBit_lt_two_pow hk, Nat.testBit_lt_two_pow hl]⟩
  cases m with
  | ofNat k =>
    cases n with
    | ofNat l => exact congrArg Int.ofNat (Nat.eq_of_testBit_eq h)
    | negSucc l =>
      obtain ⟨i, hi⟩ := mixed k l
      exact absurd (h i) hi
  | negSucc k =>
    cases n with
    | ofNat l =>
      obtain ⟨i, hi⟩ := mixed l k
      exact absurd (h i).symm hi
    | negSucc l => exact congrArg Int.negSucc (Nat.eq_of_testBit_eq fun i => Bool.not_inj (h i))

variable {w : Nat}

/-- The sign bit of a word goes on to the left. -/
theorem testBit_toInt (x : BitVec w) (i : Nat) :
    x.toInt.testBit i = if i < w then x.getLsbD i else x.msb := by
  cases hx : x.msb with
  | false =>
    rw [BitVec.toInt_eq_msb_cond, hx, if_neg Bool.false_ne_true]
    show x.toNat.testBit i = _
    rw [BitVec.testBit_toNat]
    split
    · rfl
    · exact BitVec.getLsbD_of_ge x i (by omega)
  | true =>
    have hsum : (~~~ x).toNat + x.toNat + 1 = 2 ^ w := by
      rw [BitVec.toNat_not]
      omega
    have hneg : x.toInt = Int.negSucc (~~~ x).toNat := by
      rw [BitVec.toInt_eq_msb_cond, hx, if_pos rfl, Int.negSucc_eq, ← hsum]
      push_cast
      omega
    rw [hneg]
    show (!(~~~ x).toNat.testBit i) = _
    rw [BitVec.testBit_toNat, BitVec.getLsbD_not]
    split
    · simp [*]
    · simp [*]

/-- An operator on words that works bit by bit does so on their signed values. -/
theorem toInt_eq_bitwise {x y z : BitVec w} {f : Bool → Bool → Bool}
    (hz : ∀ i < w, z.getLsbD i = f (x.getLsbD i) (y.getLsbD i)) (hmsb : z.msb = f x.msb y.msb) :
    z.toInt = Int.bitwise f x.toInt y.toInt := by
  refine eq_of_testBit fun i => ?_
  rw [Int.testBit_bitwise, testBit_toInt, testBit_toInt, testBit_toInt]
  split
  · exact hz i (by assumption)
  · exact hmsb

theorem toInt_or_eq (x y : BitVec w) : (x ||| y).toInt = Int.lor x.toInt y.toInt := by
  rw [← Int.bitwise_or]
  exact toInt_eq_bitwise (fun i _ => BitVec.getLsbD_or) (BitVec.msb_or)

theorem toInt_and_eq (x y : BitVec w) : (x &&& y).toInt = Int.land x.toInt y.toInt := by
  rw [← Int.bitwise_and]
  exact toInt_eq_bitwise (fun i _ => BitVec.getLsbD_and) (BitVec.msb_and)

theorem toInt_xor_eq (x y : BitVec w) : (x ^^^ y).toInt = Int.xor x.toInt y.toInt := by
  rw [← Int.bitwise_xor]
  exact toInt_eq_bitwise (fun i _ => BitVec.getLsbD_xor) (BitVec.msb_xor)

theorem toInt_not_eq (x : BitVec w) (hw : 0 < w) : (~~~ x).toInt = Int.lnot x.toInt := by
  refine eq_of_testBit fun i => ?_
  rw [Int.testBit_lnot, testBit_toInt, testBit_toInt, BitVec.msb_not]
  split
  · simp [*]
  · simp [*]

namespace Number

/-! ## Integers as words -/

def residue (n : Int) : BitVec 32 := BitVec.ofNat 32 (n % 2 ^ 32).toNat

/-- The signed word of an integer as an integer: the residue, less `2 ^ 32` where the sign bit is on. -/
def wrap (n : Int) : Int := if n % 2 ^ 32 < 2 ^ 31 then n % 2 ^ 32 else n % 2 ^ 32 - 2 ^ 32

def places (n : Int) : Nat := (n % 32).toNat

theorem toNat_residue (n : Int) : (residue n).toNat = (n % 2 ^ 32).toNat := by
  rw [residue, BitVec.toNat_ofNat]
  omega

theorem word_int (n : Int) : (Number.int n).word = residue n := by
  refine BitVec.eq_of_toNat_eq ?_
  rw [toNat_residue]
  exact BitVec.toNat_ofInt n

theorem wrap_eq_bmod (n : Int) : wrap n = n.bmod (2 ^ 32) := by
  rw [wrap, Int.bmod_def]
  rfl

theorem toInt_residue (n : Int) : (residue n).toInt = wrap n := by
  rw [← word_int, wrap_eq_bmod]
  exact BitVec.toInt_ofInt n

theorem shiftCount_int (n : Int) : (Number.int n).shiftCount = places n := by
  rw [shiftCount, toUint32, word_int, toNat_residue, places]
  omega

theorem toInt_shiftLeft_residue (n : Int) (k : Nat) : (residue n <<< k).toInt = wrap (wrap n * 2 ^ k) := by
  have hresidue : ((residue n).toNat : Int) = n % (2 ^ 32 : Nat) := by
    rw [toNat_residue]
    omega
  rw [BitVec.toInt_shiftLeft, Nat.shiftLeft_eq, wrap_eq_bmod, wrap_eq_bmod, Int.bmod_mul_bmod]
  push_cast
  rw [hresidue]
  exact Int.emod_mul_bmod n _

theorem toInt_sshiftRight_residue (n : Int) (k : Nat) :
    ((residue n).sshiftRight k).toInt = wrap n / 2 ^ k := by
  rw [BitVec.toInt_sshiftRight, toInt_residue, Int.shiftRight_eq_div_pow]
  norm_cast

theorem toNat_ushiftRight_residue (n : Int) (k : Nat) :
    ((residue n >>> k).toNat : Int) = n % 2 ^ 32 / 2 ^ k := by
  rw [BitVec.toNat_ushiftRight, toNat_residue, Nat.shiftRight_eq_div_pow]
  push_cast
  rw [Int.toNat_of_nonneg (by omega)]

/-! ## Results of the operators -/

/-- A result of a bitwise operator: its word, and its value in integers. -/
structure Bitwise where
  symbol : String
  word : BitVec 32
  value : Int

def signed (a b : Int) : List Bitwise :=
  [⟨"|", residue a ||| residue b, Int.lor (wrap a) (wrap b)⟩,
   ⟨"&", residue a &&& residue b, Int.land (wrap a) (wrap b)⟩,
   ⟨"^", residue a ^^^ residue b, Int.xor (wrap a) (wrap b)⟩,
   ⟨"<<", residue a <<< places b, wrap (wrap a * 2 ^ places b)⟩,
   ⟨">>", (residue a).sshiftRight (places b), wrap a / 2 ^ places b⟩]

theorem toInt_signed {a b : Int} {r : Bitwise} (h : r ∈ signed a b) : r.word.toInt = r.value := by
  simp only [signed, List.mem_cons, List.not_mem_nil, or_false] at h
  rcases h with rfl | rfl | rfl | rfl | rfl
  · dsimp only
    rw [toInt_or_eq, toInt_residue, toInt_residue]
  · dsimp only
    rw [toInt_and_eq, toInt_residue, toInt_residue]
  · dsimp only
    rw [toInt_xor_eq, toInt_residue, toInt_residue]
  · exact toInt_shiftLeft_residue a _
  · exact toInt_sshiftRight_residue a _

/-- Every operator with a signed result is a binary operator of expressions. -/
theorem apply_signed {a b : Int} {r : Bitwise} (h : r ∈ signed a b) :
    ∃ op : BinaryOp, op.symbol = r.symbol ∧ op.apply (.int a) (.int b) = .ok (.int r.word.toInt) := by
  simp only [signed, List.mem_cons, List.not_mem_nil, or_false] at h
  rcases h with rfl | rfl | rfl | rfl | rfl <;> dsimp only <;>
    simp only [← word_int, ← shiftCount_int]
  · exact ⟨.bitOr, rfl, rfl⟩
  · exact ⟨.bitAnd, rfl, rfl⟩
  · exact ⟨.bitXor, rfl, rfl⟩
  · exact ⟨.shiftLeft, rfl, rfl⟩
  · exact ⟨.shiftRight, rfl, rfl⟩

end Number

/-! ## Expressions of bound names -/

namespace Expr
open Grammar Number

structure Binds (scope : Scope) (allowDefined : Bool) (t : Token) (n : Int) : Prop where
  kind : t.kind = .identifier
  ne_true : t.text ≠ "true"
  ne_false : t.text ≠ "false"
  not_defined : ¬ (t.text = "defined" ∧ allowDefined = true)
  bound : scope.find? t.text = some (.int n)

/-- The tokens are two operands with a symbol between them; comments may stand anywhere. -/
def Spells (x : Token) (symbol : String) (y : Token) (ts : List Token) : Prop :=
  ∃ mark : Token, mark.isSymbol symbol = true ∧ content ts = [x, mark, y]

variable {scope : Scope} {allowDefined : Bool} {x y : Token} {a b r : Int} {ts : List Token}
  {location : Option Location}

theorem Binds.exists_derivation (h : Binds scope allowDefined x a) (k : Nat) :
    ∃ d : Derivation allowDefined (.level k), d.yield = [x] ∧ d.value scope = .ok (.int a) := by
  induction k with
  | zero =>
    refine ⟨.atom (.name ⟨⟨x, h.kind⟩, h.not_defined⟩), rfl, ?_⟩
    simp only [Derivation.value, Derivation.nameValue, h.ne_true, h.ne_false, h.bound, if_false]
  | succ k ih =>
    obtain ⟨d, hd⟩ := ih
    exact ⟨.tighter d, hd⟩

theorem evaluate_binary (op : BinaryOp) (hx : Binds scope allowDefined x a)
    (hy : Binds scope allowDefined y b) (hts : Spells x op.symbol y ts)
    (hop : op.apply (.int a) (.int b) = .ok (.int r)) :
    evaluate scope allowDefined ts location = .ok (.int r) := by
  obtain ⟨mark, hmark, hcontent⟩ := hts
  obtain ⟨k, hk, hle⟩ : ∃ k, op.level = k + 1 ∧ k + 1 ≤ 10 := by cases op <;> exact ⟨_, rfl, by decide⟩
  obtain ⟨d, hdyield, hdvalue⟩ := hx.exists_derivation (k + 1)
  obtain ⟨e, heyield, hevalue⟩ := hy.exists_derivation k
  refine evaluate_of_level (v := .int r) hle (.binary ⟨op, mem_operators_iff.mpr hk⟩ d ⟨mark, hmark⟩ e) ?_ ?_ rfl
  · rw [Derivation.yield, hdyield, heyield, hcontent]
    rfl
  · rw [Derivation.value, hdvalue, hevalue]
    exact hop

theorem evaluate_complement {mark : Token} (hx : Binds scope allowDefined x a)
    (hmark : mark.isSymbol "~" = true) (hcontent : content ts = [mark, x]) :
    evaluate scope allowDefined ts location = .ok (.int (~~~ residue a).toInt) := by
  obtain ⟨d, hdyield, hdvalue⟩ := hx.exists_derivation 0
  refine evaluate_of_level (v := .int _) (Nat.zero_le 10) (.unary .complement ⟨mark, hmark⟩ d) ?_ ?_ rfl
  · rw [Derivation.yield, hdyield, hcontent]
  · rw [Derivation.value, hdvalue, ← word_int]
    rfl

/-- Of two integers of any size that are bound to names, the bitwise operators give the signed value of
their words, and `>>>` gives the unsigned one. -/
theorem evaluate_bitwise (hx : Binds scope allowDefined x a) (hy : Binds scope allowDefined y b) :
    (∀ r ∈ signed a b,
      (∀ ts location, Spells x r.symbol y ts →
        evaluate scope allowDefined ts location = .ok (.int r.word.toInt)) ∧
      r.word.toInt = r.value ∧ -2 ^ 31 ≤ r.word.toInt ∧ r.word.toInt < 2 ^ 31) ∧
    (∀ ts location, Spells x ">>>" y ts →
      evaluate scope allowDefined ts location = .ok (.int (residue a >>> places b).toNat)) ∧
    ((residue a >>> places b).toNat : Int) = a % 2 ^ 32 / 2 ^ places b ∧
    (residue a >>> places b).toNat < 2 ^ 32 ∧
    (∀ ts location (mark : Token), mark.isSymbol "~" = true → content ts = [mark, x] →
      evaluate scope allowDefined ts location = .ok (.int (~~~ residue a).toInt)) ∧
    (~~~ residue a).toInt = Int.lnot (wrap a) ∧
    -2 ^ 31 ≤ (~~~ residue a).toInt ∧ (~~~ residue a).toInt < 2 ^ 31 := by
  have hzero : BinaryOp.shiftRightZero.apply (.int a) (.int b) =
      .ok (.int (residue a >>> places b).toNat) := by
    rw [← word_int, ← shiftCount_int]
    rfl
  have hnot : (~~~ residue a).toInt = Int.lnot (wrap a) := by
    rw [toInt_not_eq _ (by decide), toInt_residue]
  refine ⟨fun r hr => ⟨fun ts location hts => ?_, toInt_signed hr, r.word.le_toInt, r.word.toInt_lt⟩,
    fun ts location hts => evaluate_binary .shiftRightZero hx hy hts hzero, toNat_ushiftRight_residue a _,
    BitVec.isLt _, fun ts location mark => evaluate_complement hx, hnot, BitVec.le_toInt _,
    BitVec.toInt_lt⟩
  obtain ⟨op, hsymbol, hop⟩ := apply_signed hr
  exact evaluate_binary op hx hy (hsymbol ▸ hts) hop

/-- `x >> y` with a negative count and an operand beyond the words. -/
theorem evaluate_bitwise_beyond :
    let scope : Scope := ⟨[("x", .int (2 ^ 40 - 6)), ("y", .int (-31))]⟩
    let x : Token := ⟨.identifier, "x", "", 1, 1⟩
    let y : Token := ⟨.identifier, "y", "", 1, 6⟩
    Binds scope false x (2 ^ 40 - 6) ∧ Binds scope false y (-31) ∧
      evaluate scope false [x, ⟨.operator, ">>", "", 1, 3⟩, y, ⟨.eof, "", "", 1, 7⟩] = .ok (.int (-3)) := by
  intro scope x y
  have hx : Binds scope false x (2 ^ 40 - 6) := ⟨rfl, by decide, by decide, by decide, rfl⟩
  have hy : Binds scope false y (-31) := ⟨rfl, by decide, by decide, by decide, rfl⟩
  have hr := (evaluate_bitwise hx hy).1 _ (.tail _ (.tail _ (.tail _ (.tail _ (.head _)))))
  refine ⟨hx, hy, (hr.1 _ none ⟨_, by decide, rfl⟩).trans ?_⟩
  decide

end Expr
end RecordView
