import Mathlib.Data.Nat.Bitwise
import RecordView.Proofs.Layout.BitPacking
import RecordView.Proofs.Script.BitCode

/-! Reading and writing bit fields: a setter changes the bits of its own field and no others. -/
namespace RecordView
open Script

/-- A slice that lies in its word. A truth value has one bit. -/
structure BitSlice.Proper (b : BitSlice) : Prop where
  word : b.word ∈ [1, 2, 4]
  pos : 0 < b.count
  inside : b.offset + b.count ≤ 8 * b.word
  single : b.boolean = true → b.count = 1

namespace BitSlice

variable {b c : BitSlice} {w i : Nat}

def Has (b : BitSlice) (i : Nat) : Prop := b.offset ≤ i ∧ i < b.offset + b.count

instance (b : BitSlice) (i : Nat) : Decidable (b.Has i) := inferInstanceAs (Decidable (_ ∧ _))

def content (b : BitSlice) (w : Nat) : Value :=
  if b.boolean then .truth (w.testBit b.offset) else .number (w >>> b.offset % 2 ^ b.count : Nat)

/-- The bits that a slice takes of a value that is written. -/
def bitOf (b : BitSlice) (v : Int) (j : Nat) : Bool :=
  if b.boolean then v != 0 else (BitVec.ofInt 32 v).getLsbD j

theorem Proper.word_le (h : b.Proper) : 8 * b.word ≤ 32 := by
  have hw := h.word
  simp only [List.mem_cons, List.not_mem_nil, or_false] at hw
  omega

/-- Bits that fill the largest word are all of it. -/
theorem Proper.whole (h : b.Proper) (h32 : b.count = 32) :
    b.boolean = false ∧ b.offset = 0 ∧ b.word = 4 := by
  have hin := h.inside
  have hle := h.word_le
  refine ⟨Bool.eq_false_iff.mpr fun hb => ?_, by omega, by omega⟩
  have hone := h.single hb
  omega

/-! ## Masks -/

theorem testBit_mask (b : BitSlice) (i : Nat) : b.mask.testBit i = decide (i < b.count) := by
  rw [mask, Nat.one_shiftLeft, Nat.testBit_two_pow_sub_one]

theorem testBit_lowMask (h : b.Proper) (i : Nat) :
    (lowBytes b.mask b.word).testBit i = decide (i < b.count) := by
  have hb := h.inside
  rw [lowBytes, Nat.one_shiftLeft, Nat.testBit_mod_two_pow, testBit_mask, ← Bool.decide_and]
  refine decide_eq_decide.mpr ?_
  omega

theorem testBit_own (h : b.Proper) (i : Nat) :
    (lowBytes (b.mask <<< b.offset) b.word).testBit i = decide (b.Has i) := by
  have hb := h.inside
  rw [lowBytes, Nat.one_shiftLeft, Nat.testBit_mod_two_pow, Nat.testBit_shiftLeft, testBit_mask,
    ← Bool.decide_and, ← Bool.decide_and]
  refine decide_eq_decide.mpr ?_
  unfold Has
  omega

theorem testBit_others (h : b.Proper) (i : Nat) :
    (otherBits (b.mask <<< b.offset) b.word).testBit i =
      (decide (i < 8 * b.word) && !decide (b.Has i)) := by
  have hlt : lowBytes (b.mask <<< b.offset) b.word < 2 ^ (8 * b.word) := by
    rw [lowBytes, Nat.one_shiftLeft]
    exact Nat.mod_lt _ (Nat.two_pow_pos _)
  rw [otherBits, Nat.one_shiftLeft, Nat.sub_sub, Nat.add_comm 1, Nat.testBit_two_pow_sub_succ hlt,
    testBit_own h]

/-! ## Reading -/

theorem extract_eq {offset count : Nat} (hc : count < 32) (hin : offset + count ≤ 32) {m : Nat}
    (hm : ∀ i, m.testBit i = decide (i < count)) :
    ((BitVec.ofNat 32 w).sshiftRight offset &&& BitVec.ofNat 32 m).toInt =
      (w >>> offset % 2 ^ count : Nat) := by
  have hmsb : ((BitVec.ofNat 32 w).sshiftRight offset &&& BitVec.ofNat 32 m).msb = false := by
    rw [BitVec.msb_and, BitVec.msb_eq_getLsbD_last (BitVec.ofNat 32 m), BitVec.getLsbD_ofNat, hm]
    simp
    omega
  rw [BitVec.toInt_eq_toNat_of_msb hmsb]
  congr 1
  apply Nat.eq_of_testBit_eq
  intro i
  rw [BitVec.testBit_toNat, BitVec.getLsbD_and, BitVec.getLsbD_sshiftRight, BitVec.getLsbD_ofNat,
    BitVec.getLsbD_ofNat, hm, Nat.testBit_mod_two_pow, Nat.testBit_shiftRight]
  by_cases hi : i < count
  · have h1 : ¬ 32 ≤ i := by omega
    have h2 : offset + i < 32 := by omega
    have h3 : i < 32 := by omega
    simp [hi, h1, h2, h3]
  · simp [hi]

theorem and_ne_zero {x y : BitVec 32} {k : Nat}
    (hy : ∀ i, y.getLsbD i = decide (i = k)) : ((x &&& y) != 0#32) = x.getLsbD k := by
  cases hx : x.getLsbD k with
  | true =>
    rw [bne_iff_ne]
    intro h0
    have hbit : (x &&& y).getLsbD k = (0#32).getLsbD k := by rw [h0]
    rw [BitVec.getLsbD_and, hx, hy, BitVec.getLsbD_zero] at hbit
    simp at hbit
  | false =>
    rw [bne_eq_false_iff_eq]
    apply BitVec.eq_of_getLsbD_eq
    intro i _
    rw [BitVec.getLsbD_and, BitVec.getLsbD_zero, hy]
    by_cases hi : i = k
    · rw [hi, hx, Bool.false_and]
    · simp [hi]

/-- The lowest bits of a shifted word. -/
theorem read_number {a : BitCode} {u : Value} {m : Nat} (h : b.Proper) (hb : b.boolean = false)
    (hc : b.count < 32) (hm : ∀ i, m.testBit i = decide (i < b.count))
    (hu : a.eval { word := w } = some u) (hbits : u.bits = (BitVec.ofNat 32 w).sshiftRight b.offset) :
    (BitCode.and a (.hex m)).eval { word := w } = some (b.content w) := by
  have hin := h.inside
  have hle := h.word_le
  rw [BitCode.eval_and hu (BitCode.eval_hex m), hbits, Value.bits_natCast, Value.ofBits,
    extract_eq hc (by omega) hm, content, hb]
  rfl

theorem read_access (h : b.Proper) (hw : w < 2 ^ (8 * b.word)) :
    (access b).read w = some (b.content w) := by
  have hin := h.inside
  have hle := h.word_le
  have hpos := h.pos
  have hword : BitCode.word.eval { word := w } = some (.number w) := rfl
  have hoff : b.offset < 32 := by omega
  unfold access BitAccess.read
  dsimp only
  split
  · -- the whole word
    rename_i h32
    obtain ⟨hb, h0, h4⟩ := h.whole h32
    have hmod : w % 2 ^ 32 = w := Nat.mod_eq_of_lt (by rwa [h4] at hw)
    rw [hword, content, hb, h0, h32, Nat.shiftRight_zero, hmod]
    rfl
  split
  · rename_i hb
    have h1 := h.single hb
    have hown (i : Nat) : (BitVec.ofNat 32 (lowBytes (b.mask <<< b.offset) b.word)).getLsbD i =
        decide (i = b.offset) := by
      rw [BitVec.getLsbD_ofNat, testBit_own h, ← Bool.decide_and]
      refine decide_eq_decide.mpr ?_
      unfold Has
      omega
    rw [BitCode.eval, BitCode.eval_and hword (BitCode.eval_hex _), Value.bits_natCast,
      Value.bits_natCast, content, hb]
    have hbit : (BitVec.ofNat 32 w).getLsbD b.offset = w.testBit b.offset := by
      rw [BitVec.getLsbD_ofNat, decide_eq_true hoff, Bool.true_and]
    simp only [Option.bind_eq_bind, Option.bind_some, Value.truthy_ofBits, and_ne_zero hown, hbit]
    rfl
  rename_i h32 hb
  have hb : b.boolean = false := Bool.eq_false_iff.mpr hb
  have hc : b.count < 32 := by omega
  split
  · rename_i h1
    obtain ⟨u, hu, hbits⟩ := BitCode.eval_down hword hoff
    rw [Value.bits_natCast] at hbits
    refine read_number h hb hc (fun i => ?_) hu hbits
    rw [h1]
    exact Nat.testBit_two_pow_sub_one 1 i
  split
  · rename_i h0
    refine read_number h hb hc (testBit_lowMask h) hword ?_
    rw [h0, BitVec.sshiftRight_zero, Value.bits_natCast]
  · refine read_number h hb hc (testBit_lowMask h) (BitCode.eval_shiftRight hword hoff) ?_
    rw [Value.bits_ofBits, Value.bits_natCast]

/-! ## Writing -/

theorem testBit_stored {bytes : Nat} (h : bytes ∈ [1, 2, 4]) (x : BitVec 32) (i : Nat) :
    ((Value.ofBits x).stored bytes).testBit i = (decide (i < 8 * bytes) && x.getLsbD i) := by
  rw [Value.stored_ofBits x h, Nat.testBit_mod_two_pow, BitVec.testBit_toNat]

/-- The bits of a word after a value has been written to the slice. -/
def written (b : BitSlice) (w : Nat) (v : Int) (i : Nat) : Bool :=
  if b.Has i then b.bitOf v (i - b.offset) else w.testBit i

theorem written_of_le (h : b.Proper) (hw : w < 2 ^ (8 * b.word)) (v : Int) (hi : 8 * b.word ≤ i) :
    b.written w v i = false := by
  have hin := h.inside
  have hnot : ¬ b.Has i := by
    unfold Has
    omega
  rw [written, if_neg hnot]
  exact Nat.testBit_lt_two_pow (Nat.lt_of_lt_of_le hw (Nat.pow_le_pow_right (by decide) hi))

theorem testBit_stored_eq (h : b.Proper) (hw : w < 2 ^ (8 * b.word)) {v : Int} {x : BitVec 32}
    (hx : ∀ i < 8 * b.word, x.getLsbD i = b.written w v i) (i : Nat) :
    ((Value.ofBits x).stored b.word).testBit i = b.written w v i := by
  rw [testBit_stored h.word]
  by_cases hi : i < 8 * b.word
  · rw [hx i hi, decide_eq_true hi, Bool.true_and]
  · rw [written_of_le h hw v (by omega), decide_eq_false hi, Bool.false_and]

section Write

variable {v : Int}

theorem getLsbD_word (h : b.Proper) (hi : i < 8 * b.word) :
    (BitVec.ofNat 32 w).getLsbD i = w.testBit i := by
  have hle := h.word_le
  rw [BitVec.getLsbD_ofNat, decide_eq_true (by omega : i < 32), Bool.true_and]

/-- All bits of the slice are set, or all are cleared. -/
theorem write_flag (cond : BitCode) {u : Value} (h : b.Proper) (hw : w < 2 ^ (8 * b.word))
    (hc : cond.eval ⟨w, some (.number w), some (.number v)⟩ = some u)
    (hu : ∀ i, b.Has i → b.bitOf v (i - b.offset) = u.truthy) :
    ∃ w', (BitCode.choose cond
        (.paren (.or .temp (.hex (lowBytes (b.mask <<< b.offset) b.word))))
        (.paren (.and .temp (.hex (otherBits (b.mask <<< b.offset) b.word))))).eval
          ⟨w, some (.number w), some (.number v)⟩ = some w' ∧
      ∀ i, (w'.stored b.word).testBit i = b.written w v i := by
  have htemp : BitCode.temp.eval ⟨w, some (.number w), some (.number v)⟩ = some (.number w) := rfl
  rw [BitCode.eval_choose hc]
  cases ht : u.truthy with
  | true =>
    refine ⟨_, BitCode.eval_or htemp (BitCode.eval_hex _), testBit_stored_eq h hw fun i hi => ?_⟩
    rw [Value.bits_natCast, Value.bits_natCast, BitVec.getLsbD_or, getLsbD_word h hi,
      getLsbD_word h hi, testBit_own h, written]
    by_cases hb : b.Has i
    · rw [if_pos hb, hu i hb, ht, decide_eq_true hb, Bool.or_true]
    · rw [if_neg hb, decide_eq_false hb, Bool.or_false]
  | false =>
    refine ⟨_, BitCode.eval_and htemp (BitCode.eval_hex _), testBit_stored_eq h hw fun i hi => ?_⟩
    rw [Value.bits_natCast, Value.bits_natCast, BitVec.getLsbD_and, getLsbD_word h hi,
      getLsbD_word h hi, testBit_others h, decide_eq_true hi, Bool.true_and, written]
    by_cases hb : b.Has i
    · rw [if_pos hb, hu i hb, ht, decide_eq_true hb, Bool.not_true, Bool.and_false]
    · rw [if_neg hb, decide_eq_false hb, Bool.not_false, Bool.and_true]

/-- The bits of the slice are cleared, and those of the value put in their place. -/
theorem write_slice (h : b.Proper) (hb : b.boolean = false) (hw : w < 2 ^ (8 * b.word)) {u : Value}
    (hu : u.bits = BitVec.ofNat 32 w &&&
      BitVec.ofNat 32 (otherBits (b.mask <<< b.offset) b.word)) :
    ∃ w', (BitCode.or .temp (.paren (.up (.paren (.and .value (.hex (lowBytes b.mask b.word))))
        b.offset))).eval ⟨w, some u, some (.number v)⟩ = some w' ∧
      ∀ i, (w'.stored b.word).testBit i = b.written w v i := by
  have hin := h.inside
  have hle := h.word_le
  have hpos := h.pos
  have hvalue : BitCode.value.eval ⟨w, some u, some (.number v)⟩ = some (.number v) := rfl
  obtain ⟨m, hm, hbits⟩ := BitCode.eval_up (n := b.offset)
    (a := .paren (.and .value (.hex (lowBytes b.mask b.word))))
    (BitCode.eval_and hvalue (BitCode.eval_hex _)) (by omega)
  refine ⟨_, BitCode.eval_or rfl hm, testBit_stored_eq h hw fun i hi => ?_⟩
  rw [hu, hbits, Value.bits_ofBits, Value.bits_natCast, BitVec.getLsbD_or, BitVec.getLsbD_and,
    getLsbD_word h hi, getLsbD_word h hi, testBit_others h, decide_eq_true hi, Bool.true_and,
    BitVec.getLsbD_shiftLeft, BitVec.getLsbD_and, getLsbD_word h (by omega), testBit_lowMask h,
    written, bitOf, hb]
  by_cases hi' : b.Has i
  · have hi₁ : ¬ i < b.offset := by
      unfold Has at hi'
      omega
    have hi₂ : i - b.offset < b.count := by
      unfold Has at hi'
      omega
    simp [hi', hi₁, hi₂, Value.bits]
    omega
  · have hi₁ : i < b.offset ∨ ¬ i - b.offset < b.count := by
      unfold Has at hi'
      omega
    rcases hi₁ with hi₁ | hi₁ <;> simp [hi', hi₁]

theorem write_access (h : b.Proper) (hw : w < 2 ^ (8 * b.word)) (v : Int) :
    ∃ w', (access b).write b.word w v = some w' ∧ ∀ i, w'.testBit i = b.written w v i := by
  have hword : BitCode.word.eval { word := w, value := some (.number v) } = some (.number w) := rfl
  unfold access
  dsimp only
  split
  · -- the whole word
    rename_i h32
    obtain ⟨hb, h0, h4⟩ := h.whole h32
    refine ⟨_, BitAccess.write_of_none rfl rfl _, fun i => ?_⟩
    have hstored : (Value.number v).stored b.word = (BitVec.ofInt 32 v).toNat := by
      rw [h4, Value.stored, BitVec.toNat_ofInt]
      norm_cast
    rw [hstored, BitVec.testBit_toNat, written, bitOf, hb, h0]
    by_cases hi : b.Has i
    · rw [if_pos hi]
      rfl
    · have hi' : 32 ≤ i := by
        unfold Has at hi
        omega
      rw [if_neg hi, BitVec.getLsbD_of_ge _ _ hi', Nat.testBit_lt_two_pow]
      exact Nat.lt_of_lt_of_le hw (Nat.pow_le_pow_right (by decide) (by omega))
  split
  · rename_i hb
    obtain ⟨r, hr, hbits⟩ := write_flag (u := .number v) .value h hw rfl fun i _ => by
      rw [bitOf, hb]
      rfl
    exact ⟨_, BitAccess.write_of_some rfl hword hr _, hbits⟩
  rename_i hb
  have hb : b.boolean = false := Bool.eq_false_iff.mpr hb
  split
  · rename_i h1
    obtain ⟨r, hr, hbits⟩ := write_flag (v := v) (.paren (.and .value (.decimal 1)))
      h hw (BitCode.eval_and rfl (BitCode.eval_decimal 1)) fun i hi => by
        have hi' : i - b.offset = 0 := by
          unfold Has at hi
          omega
        rw [bitOf, hb, hi', Value.truthy_ofBits, and_ne_zero (k := 0)]
        · rfl
        · intro j
          change (1#32).getLsbD j = _
          simp
    exact ⟨_, BitAccess.write_of_some rfl hword hr _, hbits⟩
  · obtain ⟨r, hr, hbits⟩ := write_slice (v := v) h hb hw (Value.bits_ofBits _)
    refine ⟨_, BitAccess.write_of_some rfl ?_ hr _, hbits⟩
    rw [BitCode.eval_and hword (BitCode.eval_hex _), Value.bits_natCast, Value.bits_natCast]

end Write

/-! ## Round trips -/

theorem word_lt (h : b.Proper) (hw : w < 2 ^ (8 * b.word)) {v : Int} {w' : Nat}
    (hw' : ∀ i, w'.testBit i = b.written w v i) : w' < 2 ^ (8 * b.word) := by
  apply Nat.lt_pow_two_of_testBit
  intro i hi
  rw [hw', written_of_le h hw v hi]

theorem emod_two_pow (v : Int) {count : Nat} (h : count ≤ 32) :
    v % 2 ^ count = ((BitVec.ofInt 32 v).toNat % 2 ^ count : Nat) := by
  have hdvd : (2 : Int) ^ count ∣ 2 ^ 32 := pow_dvd_pow 2 h
  have hpos : 0 ≤ v % (2 ^ 32 : Nat) := Int.emod_nonneg v (by decide)
  rw [BitVec.toNat_ofInt, Int.natCast_emod, Int.toNat_of_nonneg hpos]
  push_cast
  exact (Int.emod_emod_of_dvd v hdvd).symm

/-- The value that is written, as the slice holds it. -/
def held (b : BitSlice) (v : Int) : Value :=
  if b.boolean then .truth (v != 0) else .number (v % 2 ^ b.count)

theorem content_own (h : b.Proper) {v : Int} {w' : Nat}
    (hw' : ∀ i, w'.testBit i = b.written w v i) : b.content w' = b.held v := by
  have hin := h.inside
  have hle := h.word_le
  have hpos := h.pos
  have hbit (j : Nat) (hj : j < b.count) : w'.testBit (b.offset + j) = b.bitOf v j := by
    have hhas : b.Has (b.offset + j) := ⟨by omega, by omega⟩
    rw [hw', written, if_pos hhas, Nat.add_sub_cancel_left]
  unfold content held
  cases hb : b.boolean with
  | true =>
    have hbit₀ := hbit 0 hpos
    rw [Nat.add_zero] at hbit₀
    rw [if_pos rfl, if_pos rfl, hbit₀, bitOf, hb]
    rfl
  | false =>
    rw [if_neg Bool.false_ne_true, if_neg Bool.false_ne_true, emod_two_pow v (by omega)]
    congr 2
    apply Nat.eq_of_testBit_eq
    intro i
    rw [Nat.testBit_mod_two_pow, Nat.testBit_mod_two_pow, Nat.testBit_shiftRight,
      BitVec.testBit_toNat]
    by_cases hi : i < b.count
    · rw [hbit i hi, bitOf, hb]
      rfl
    · rw [decide_eq_false hi, Bool.false_and, Bool.false_and]

theorem content_apart (hc : 0 < c.count) (hbc : b.Apart c) {v : Int} {w' : Nat}
    (hw' : ∀ i, w'.testBit i = b.written w v i) : c.content w' = c.content w := by
  have hbit (i : Nat) (hi : c.Has i) : w'.testBit i = w.testBit i := by
    have hnot : ¬ b.Has i := by
      unfold Has at hi ⊢
      unfold Apart at hbc
      omega
    rw [hw', written, if_neg hnot]
  have hnumber : w' >>> c.offset % 2 ^ c.count = w >>> c.offset % 2 ^ c.count := by
    apply Nat.eq_of_testBit_eq
    intro i
    rw [Nat.testBit_mod_two_pow, Nat.testBit_mod_two_pow, Nat.testBit_shiftRight,
      Nat.testBit_shiftRight]
    by_cases hi : i < c.count
    · rw [hbit (c.offset + i) ⟨by omega, by omega⟩]
    · rw [decide_eq_false hi, Bool.false_and, Bool.false_and]
  rw [content, content, hbit c.offset ⟨by omega, by omega⟩, hnumber]

/-- What is written is read back. -/
def RoundTrips (b : BitSlice) : Prop :=
  ∀ w < 2 ^ (8 * b.word), ∀ v : Int, ∃ w' < 2 ^ (8 * b.word),
    (access b).write b.word w v = some w' ∧ (access b).read w' = some (b.held v)

/-- Writing to the first slice does not change what is read from the second. -/
def Spares (b c : BitSlice) : Prop :=
  ∀ w < 2 ^ (8 * b.word), ∀ v : Int, ∃ w' x, (access b).write b.word w v = some w' ∧
    (access c).read w = some x ∧ (access c).read w' = some x

theorem roundTrips (h : b.Proper) : b.RoundTrips := by
  intro w hw v
  obtain ⟨w', hwrite, hbits⟩ := write_access h hw v
  have hlt := word_lt h hw hbits
  refine ⟨w', hlt, hwrite, ?_⟩
  rw [read_access h hlt, content_own h hbits]

theorem spares (hb : b.Proper) (hc : c.Proper) (hword : b.word = c.word) (hbc : b.Apart c) :
    b.Spares c := by
  intro w hw v
  obtain ⟨w', hwrite, hbits⟩ := write_access hb hw v
  have hlt := word_lt hb hw hbits
  refine ⟨w', c.content w, hwrite, ?_, ?_⟩
  · rw [hword] at hw
    exact read_access hc hw
  · rw [hword] at hlt
    rw [read_access hc hlt, content_apart hc.pos hbc hbits]

theorem access_grouped (b : BitSlice) : (access b).Grouped := by
  unfold access BitAccess.Grouped
  dsimp only
  split
  · simp [BitCode.Grouped]
  split
  · simp [BitCode.Grouped, BitCode.rank]
  split
  · unfold BitCode.down
    split <;> simp [BitCode.Grouped, BitCode.rank]
  · unfold BitCode.up
    split <;> simp [BitCode.Grouped, BitCode.rank]

end BitSlice

/-! ## Words of a layout -/

theorem WordSize.exists_bytes {n : Nat} (h : n ∈ [1, 2, 4]) :
    ∃ size, WordSize.ofBytes? n = some size ∧ size.bytes = n := by
  simp only [List.mem_cons, List.not_mem_nil, or_false] at h
  rcases h with rfl | rfl | rfl
  · exact ⟨.byte, rfl, rfl⟩
  · exact ⟨.half, rfl, rfl⟩
  · exact ⟨.full, rfl, rfl⟩

namespace BitRun

variable {r : BitRun} {order : BitOrder} {x : String × BitSlice}

theorem proper_slice (hr : r.Bounded) (hx : x ∈ r.slices order)
    (hs : x.2.boolean = true → x.2.count = 1) : x.2.Proper := by
  obtain ⟨p, hp, hcount, -, hword⟩ := mem_slices hx
  have hin := (packed hr).inside order x hx
  refine ⟨?_, ?_, ?_, hs⟩
  · rw [hword]
    exact (packed hr).word.1.1
  · rw [hcount]
    exact (hr.fields p hp).pos
  · rw [hword]
    exact hin

theorem map_shape {size : WordSize} (hsize : WordSize.ofBytes? r.wordBytes = some size)
    (order : BitOrder) (offset : Nat) (u : Settings) :
    (Draft.wordFields r order offset).map (shape u) =
      (r.slices order).map fun x => .ok (.bits size x.2) := by
  simp [Draft.wordFields, slices, shape, hsize]

end BitRun

namespace Draft

variable {d d' : Draft} {u : Surroundings} {s : Settings}

structure Single (d : Draft) : Prop where
  placed : ∀ x ∈ d.slices, x.2.boolean = true → x.2.count = 1
  waits : ∀ p ∈ d.run.pending, p.boolean = true → p.bits = 1

theorem Single.flushed (h : d.Single) (hrun : d'.run = {}) {order : BitOrder}
    (hs : d'.slices = d.slices ++ d.run.slices order) : d'.Single := by
  constructor
  · intro x hx hb
    rw [hs, List.mem_append] at hx
    rcases hx with hx | hx
    · exact h.placed x hx hb
    · obtain ⟨p, hp, hcount, hboolean, -⟩ := BitRun.mem_slices hx
      rw [hcount]
      exact h.waits p hp (by rw [← hboolean, hb])
  · intro p hp
    rw [hrun] at hp
    cases hp

theorem Change.single (h : Change u d d') (hd : d.Orderly) (hset : d.Settled) (hs : d.Single) :
    d'.Single := by
  cases h with
  | same => exact hs
  | @field f c hc =>
    have hresolved := (FieldStatement.resolve_eq_ok hc).2.2
    refine (put_induction (P := fun d => d.Orderly ∧ d.Single) hresolved.admitted
      ⟨⟨hd.named, hd.sized⟩, hs.placed, hs.waits⟩ ?_ ?_ ?_ ?_).2
    · rintro d ⟨hd, h⟩
      exact ⟨orderly_flush hd _, h.flushed (run_flush _ d) (slices_flush hd _)⟩
    · rintro d ⟨name, count, boolean, declaredBytes, padding, line⟩ - rfl ⟨hd, h⟩
      refine ⟨orderly_pend hd _, h.placed, forall_pending_pend h.waits fun hb => ?_⟩
      -- only a truth value is a bit field of that kind
      cases hresolved with
      | bits => cases hb
      | truth => rfl
      | declaredBits => cases hb
    · rintro d g p hp ⟨hd, h⟩
      obtain ⟨hslices, horderly⟩ := slices_store hd hp
      exact ⟨horderly, hslices ▸ h.placed, run_store d p ▸ h.waits⟩
    · rintro d tail ⟨hd, h⟩
      exact ⟨⟨hd.named, hd.sized⟩, h.placed, h.waits⟩
  | openUnion ho => exact hs.flushed (run_flush _ d) (slices_openUnion u.settings hd ho)
  | closeUnion hu =>
    have hu' := inUnion_of_anonymous hu
    have hrun : d.run = {} := BitRun.eq_of_isEmpty (hset hu')
    have hslices : (d.closeUnion u.settings).1.slices = d.slices ++ d.run.slices .lsb := by
      rw [slices, tells_slices.closeUnion hd u.settings hu' (hset hu'), hrun]
      exact (List.append_nil _).symm
    exact hs.flushed (run_closeUnion _ d) hslices

end Draft

namespace Declaration
open Reader Draft

variable {env : Env} {d₀ d d' : Draft} {s₀ s s' : State} {r : Registry} {form : Form}

theorem runs_single (h : Runs memberRound env d₀ s₀ d s) (hf : Fresh r form d₀) : d.Single := by
  induction h with
  | start =>
    constructor
    · rw [slices, fields, hf.steps_eq, hf.waiting_eq]
      exact List.forall_mem_nil _
    · rw [hf.run_eq]
      exact List.forall_mem_nil _
  | next before round _ ih =>
    obtain ⟨ho, -⟩ := runs_packable before hf
    exact (memberRound_again round).single ho (runs_settled before hf.settled) ih

theorem Turns.single (h : Turns env d s d') (hd : d.Orderly) (hset : d.Settled) (hs : d.Single) :
    d'.Single := by
  obtain ⟨s', h | h⟩ := h
  · exact (memberRound_again h).single hd hset hs
  · obtain ⟨-, rfl, -⟩ := memberRound_done h
    exact hs.flushed (run_flush _ d) (slices_flush hd _)

/-- Accessors of bit fields. The bit fields that a round places are those of runs, each with its word;
the accessors of a run are built for its slices and for words of its size. Whatever the word holds
and whatever number is written, the getter of a field returns what its setter was given, and the
getters of the other fields of the word return what they returned before. -/
theorem bit_access_round_trip (env : Env) (s₀ : State) (d₀ : Draft) (s₁ : State) (d : Draft)
    (s : State) (d' : Draft) (opens : Opens env s₀ d₀ s₁) (body : Runs memberRound env d₀ s₁ d s)
    (turn : Turns env d s d') :
    ∃ placed, d.run.Packs d.inUnion placed d'.run ∧
      d'.slices = d.slices ++ placed.flatMap (·.slices s.settings.bitOrder) ∧
      ∀ run ∈ placed,
        (∃ size : WordSize, size.bytes = run.wordBytes ∧ ∀ offset u,
          (wordFields run s.settings.bitOrder offset).map (shape u) =
            (run.slices s.settings.bitOrder).map fun x => .ok (.bits size x.2)) ∧
        (∀ x ∈ run.slices s.settings.bitOrder, x.2.word = run.wordBytes ∧
          (access x.2).Grouped ∧ x.2.RoundTrips) ∧
        (run.slices s.settings.bitOrder).Pairwise fun x y => x.2.Spares y.2 ∧ y.2.Spares x.2 := by
  obtain ⟨_, _, form, typedef, -, -, hopen⟩ := opens
  have hf := (opening_ok hopen).1
  have hset := runs_settled body hf.settled
  obtain ⟨ho, hb⟩ := runs_packable body hf
  have hsingle := turn.single ho hset (runs_single body hf)
  obtain ⟨placed, hpacks, hslices⟩ := turn.packing ho hset
  refine ⟨placed, hpacks, hslices, fun run hrun => ?_⟩
  have hbounded := (hpacks.bounded hb).2 run hrun
  have hpacked := BitRun.packed hbounded
  have hword (x : String × BitSlice) (hx : x ∈ run.slices s.settings.bitOrder) :
      x.2.word = run.wordBytes := by
    obtain ⟨p, -, -, -, h⟩ := BitRun.mem_slices hx
    exact h
  have hproper (x : String × BitSlice) (hx : x ∈ run.slices s.settings.bitOrder) : x.2.Proper := by
    refine BitRun.proper_slice hbounded hx (hsingle.placed x ?_)
    rw [hslices]
    exact List.mem_append_right _ (List.mem_flatMap.mpr ⟨run, hrun, hx⟩)
  obtain ⟨size, hsize, hbytes⟩ := WordSize.exists_bytes hpacked.word.1.1
  refine ⟨⟨size, hbytes, fun offset u => BitRun.map_shape hsize _ offset u⟩, ?_, ?_⟩
  · intro x hx
    exact ⟨hword x hx, x.2.access_grouped, BitSlice.roundTrips (hproper x hx)⟩
  · refine (hpacked.apart _).imp_of_mem fun {x y} hx hy hxy => ?_
    have hxy' : x.2.word = y.2.word := by rw [hword x hx, hword y hy]
    exact ⟨BitSlice.spares (hproper x hx) (hproper y hy) hxy' hxy,
      BitSlice.spares (hproper y hy) (hproper x hx) hxy'.symm hxy.symm⟩

/-- The accessors of two truth values, the first of which has the highest bit of the word. -/
theorem bit_access_highest :
    ∃ env d₀ s₁ d s d',
      Opens env { unread := adjacentTokens, settings := { bitOrder := .msb } } d₀ s₁ ∧
      Runs memberRound env d₀ s₁ d s ∧ Turns env d s d' ∧
      ∃ placed : List BitRun, placed.flatMap (·.slices s.settings.bitOrder) =
          [("a", ⟨1, 7, 1, true⟩), ("b", ⟨1, 6, 1, true⟩)] ∧
        ∀ run ∈ placed, (∀ x ∈ run.slices s.settings.bitOrder, x.2.RoundTrips) ∧
          (run.slices s.settings.bitOrder).Pairwise fun x y => x.2.Spares y.2 ∧ y.2.Spares x.2 := by
  let env : Env := ⟨"__", fun _ => ""⟩
  have h : ∃ x ∈ firstBody? env .struct
        { unread := adjacentTokens, settings := { bitOrder := .msb } },
      ∃ v ∈ runs? memberRound env 3 x.1 x.2, ∃ w ∈ again? memberRound env v.1 v.2,
        v.1.slices = [] ∧ w.1.slices = [("a", ⟨1, 7, 1, true⟩), ("b", ⟨1, 6, 1, true⟩)] := by
    decide +kernel
  obtain ⟨x, hx, v, hv, w, hw, hbefore, hafter⟩ := h
  have opens := opens_of_firstBody? hx
  have body := runs_of_runs? hv
  have round := (again?_eq_some hw).1
  have turn : Turns env v.1 v.2 w.1 := ⟨w.2, .inl round⟩
  obtain ⟨placed, -, hslices, hruns⟩ := bit_access_round_trip env _ _ _ _ _ _ opens body turn
  refine ⟨env, _, _, _, _, _, opens, body, turn, placed, ?_, fun run hrun => ?_⟩
  · rw [← hafter, hslices, hbefore, List.nil_append]
  · obtain ⟨-, htrips, hspares⟩ := hruns run hrun
    exact ⟨fun x hx => (htrips x hx).2.2, hspares⟩

end Declaration
end RecordView
