/-! Rounding up to a multiple. -/
namespace RecordView

/-- The least multiple of `a` that is not below `n`; an alignment of zero asks for nothing. -/
def alignUp (n a : Nat) : Nat := if a ≤ 1 then n else (n + a - 1) / a * a

/-- The same on the integers, where an alignment below two asks for nothing. -/
def alignUpInt (n a : Int) : Int := if a ≤ 1 then n else (n + a - 1) / a * a

theorem le_alignUp (n a : Nat) : n ≤ alignUp n a := by
  unfold alignUp
  split
  · exact Nat.le_refl n
  · rename_i h
    have hm := Nat.mod_lt (n + a - 1) (by omega : 0 < a)
    have hd := Nat.div_add_mod (n + a - 1) a
    rw [Nat.mul_comm] at hd
    omega

theorem dvd_alignUp (n a : Nat) (h : 0 < a) : a ∣ alignUp n a := by
  unfold alignUp
  split
  · have : a = 1 := by omega
    simp [this]
  · exact Nat.dvd_mul_left _ _

/-- No smaller multiple will do. -/
theorem alignUp_le {n a m : Nat} (h : n ≤ m) (hd : a ∣ m) : alignUp n a ≤ m := by
  unfold alignUp
  split
  · exact h
  · obtain ⟨k, rfl⟩ := hd
    have ha : 0 < a := by omega
    have hk : (n + a - 1) / a ≤ k := by
      rw [Nat.div_le_iff_le_mul_add_pred ha]
      omega
    calc (n + a - 1) / a * a ≤ k * a := Nat.mul_le_mul_right a hk
      _ = a * k := Nat.mul_comm k a

theorem alignUpInt_natCast (n a : Nat) : alignUpInt n a = alignUp n a := by
  unfold alignUpInt alignUp
  by_cases h : a ≤ 1
  · rw [if_pos (by omega), if_pos h]
  · rw [if_neg (by omega), if_neg h]
    rw [show (n : Int) + a - 1 = ((n + a - 1 : Nat) : Int) by omega]
    norm_cast

end RecordView
