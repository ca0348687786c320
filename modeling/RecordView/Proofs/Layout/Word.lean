import Mathlib.Data.List.Forall2
import Mathlib.Order.Bounds.Basic
import RecordView.Layout.Draft

/-! The word of a run of bit fields: its size, and the bits that each field takes. -/
namespace RecordView

/-- The bits of fields, one after another from the given bit on. -/
def BitSlice.Consecutive : Nat → List BitSlice → Prop
  | _, [] => True
  | n, b :: bs => b.offset = n ∧ Consecutive (n + b.count) bs

def BitSlice.Apart (b c : BitSlice) : Prop :=
  b.offset + b.count ≤ c.offset ∨ c.offset + c.count ≤ b.offset

/-- A bit field that a word can hold, and whose declared type is no larger than a word. -/
structure PendingBits.Bounded (p : PendingBits) : Prop where
  pos : 0 < p.bits
  le : p.bits ≤ maxBits
  declared : p.declaredBytes ∈ [0, 1, 2, 4]

variable {r : BitRun}

namespace BitRun

structure Bounded (r : BitRun) : Prop where
  total : r.totalBits ≤ maxBits
  fields : ∀ p ∈ r.pending, p.Bounded

def slices (r : BitRun) (order : BitOrder) : List (String × BitSlice) :=
  (r.assign order).map fun (p, bit) => (p.name, ⟨p.bits, bit.toNat, r.wordBytes, p.boolean⟩)

/-! ## The size of a word -/

theorem totalBits_add (r : BitRun) (p : PendingBits) :
    (r.add p).totalBits = r.totalBits + p.bits := by
  have h (ps : List PendingBits) : (ps ++ [p]).foldr (fun p n => p.bits + n) 0 =
      ps.foldr (fun p n => p.bits + n) 0 + p.bits := by
    induction ps with
    | nil => simp
    | cons q ps ih =>
      simp only [List.cons_append, List.foldr_cons, ih]
      omega
  exact h r.pending

theorem eq_of_isEmpty (h : r.isEmpty = true) : r = {} := by
  have hp : r.pending = [] := List.isEmpty_iff.mp h
  calc r = ⟨r.pending⟩ := rfl
    _ = {} := by rw [hp]

theorem fits_iff {bits : Nat} : r.fits bits = true ↔ r.totalBits + bits ≤ maxBits := by
  unfold fits
  rw [decide_eq_true_iff]
  omega

theorem bounded_empty : Bounded {} := ⟨Nat.zero_le _, nofun⟩

theorem bounded_add {p : PendingBits} (h : r.Bounded) (hp : p.Bounded)
    (room : r.totalBits + p.bits ≤ maxBits) : (r.add p).Bounded := by
  refine ⟨?_, ?_⟩
  · rw [totalBits_add]
    exact room
  · intro q hq
    rcases List.mem_append.mp hq with hq | hq
    · exact h.fields q hq
    · obtain rfl := List.mem_singleton.mp hq
      exact hp

def sizeFor (bits : Nat) : Nat := if bits ≤ 8 then 1 else if bits ≤ 16 then 2 else 4

theorem max?_wordBytes (r : BitRun) :
    (sizeFor r.totalBits :: r.pending.map (·.declaredBytes)).max? = some r.wordBytes :=
  List.max?_cons'

theorem sizeFor_le_wordBytes (r : BitRun) : sizeFor r.totalBits ≤ r.wordBytes :=
  (List.max?_le_iff r.max?_wordBytes).mp (Nat.le_refl _) _ List.mem_cons_self

theorem wordBytes_pos (r : BitRun) : 0 < r.wordBytes := by
  have hs : 0 < sizeFor r.totalBits := by
    unfold sizeFor
    split
    · decide
    split <;> decide
  exact Nat.lt_of_lt_of_le hs r.sizeFor_le_wordBytes

theorem wordBytes_mem (h : ∀ p ∈ r.pending, p.declaredBytes ∈ [0, 1, 2, 4]) : r.wordBytes ∈ [1, 2, 4] := by
  -- the largest of these sizes is one of them
  have hpos := r.wordBytes_pos
  rcases List.mem_cons.mp (List.max?_mem r.max?_wordBytes) with he | he
  · rw [he]
    unfold sizeFor
    split
    · decide
    split <;> decide
  · obtain ⟨p, hp, hd⟩ := List.mem_map.mp he
    have hmem := h p hp
    rw [hd] at hmem
    simp only [List.mem_cons, List.not_mem_nil, or_false] at hmem ⊢
    omega

theorem wordBytes_isLeast (h : r.Bounded) :
    IsLeast {w | w ∈ [1, 2, 4] ∧ r.totalBits ≤ 8 * w ∧ ∀ p ∈ r.pending, p.declaredBytes ≤ w}
      r.wordBytes := by
  have hs := r.sizeFor_le_wordBytes
  have htotal : r.totalBits ≤ 32 := h.total
  refine ⟨⟨?_, ?_, ?_⟩, ?_⟩
  · exact wordBytes_mem fun p hp => (h.fields p hp).declared
  · unfold sizeFor at hs
    split at hs
    · omega
    split at hs <;> omega
  · intro p hp
    have hle := (List.max?_le_iff r.max?_wordBytes).mp (Nat.le_refl _)
    exact hle _ (List.mem_cons_of_mem _ (List.mem_map_of_mem hp))
  · rintro w ⟨hw, hbits, hdeclared⟩
    rw [List.max?_le_iff r.max?_wordBytes]
    intro n hn
    rcases List.mem_cons.mp hn with rfl | hn
    · unfold sizeFor
      simp only [List.mem_cons, List.not_mem_nil, or_false] at hw
      split
      · omega
      split <;> omega
    · obtain ⟨p, hp, rfl⟩ := List.mem_map.mp hn
      exact hdeclared p hp

/-! ## The bits of a word -/

theorem mem_starts {ps : List PendingBits} {n : Nat} {y : PendingBits × Nat}
    (h : y ∈ starts n ps) : y.1 ∈ ps := by
  induction ps generalizing n with
  | nil => cases h
  | cons p ps ih =>
    rcases List.mem_cons.mp h with rfl | h
    · exact List.mem_cons_self
    · exact List.mem_cons_of_mem _ (ih h)

theorem starts_bounds {ps : List PendingBits} {n : Nat} {x : PendingBits × Nat}
    (h : x ∈ starts n ps) : n ≤ x.2 ∧ x.2 + x.1.bits ≤ n + totalBits ⟨ps⟩ := by
  induction ps generalizing n with
  | nil => cases h
  | cons p ps ih =>
    have ht : totalBits ⟨p :: ps⟩ = p.bits + totalBits ⟨ps⟩ := rfl
    rcases List.mem_cons.mp h with rfl | h
    · dsimp only
      omega
    · have hx := ih h
      omega

theorem starts_pairwise (n : Nat) (ps : List PendingBits) :
    (starts n ps).Pairwise fun x y => x.2 + x.1.bits ≤ y.2 := by
  induction ps generalizing n with
  | nil => exact .nil
  | cons p ps ih => exact .cons (fun y hy => (starts_bounds hy).1) (ih _)

/-- The slice of a field before which there are so many bits. -/
def slice (r : BitRun) (order : BitOrder) (x : PendingBits × Nat) : String × BitSlice :=
  let offset :=
    match order with
    | .lsb => x.2
    | .msb => 8 * r.wordBytes - x.2 - x.1.bits
  (x.1.name, ⟨x.1.bits, offset, r.wordBytes, x.1.boolean⟩)

theorem slices_eq (r : BitRun) (order : BitOrder) :
    r.slices order = (starts 0 r.pending).map (r.slice order) := by
  rw [slices, assign, List.map_map]
  refine List.map_congr_left fun x _ => ?_
  cases order with
  | lsb => rfl
  | msb =>
    have hn : ((8 * r.wordBytes : Int) - x.2 - x.1.bits).toNat = 8 * r.wordBytes - x.2 - x.1.bits := by
      omega
    simp only [Function.comp, slice, hn]

theorem mem_slices {order : BitOrder} {x : String × BitSlice} (h : x ∈ r.slices order) :
    ∃ p ∈ r.pending, x.2.count = p.bits ∧ x.2.boolean = p.boolean ∧ x.2.word = r.wordBytes := by
  rw [slices_eq] at h
  obtain ⟨y, hy, rfl⟩ := List.mem_map.mp h
  exact ⟨y.1, mem_starts hy, rfl, rfl, rfl⟩

theorem slices_fields (r : BitRun) (order : BitOrder) :
    (r.slices order).map (fun x => (x.1, x.2.count, x.2.word)) =
      r.pending.map fun p => (p.name, p.bits, r.wordBytes) := by
  have hs (n : Nat) (ps : List PendingBits) : (starts n ps).map (·.1) = ps := by
    induction ps generalizing n with
    | nil => rfl
    | cons p ps ih => simp [starts, ih]
  rw [slices_eq, List.map_map]
  conv_rhs => rw [← hs 0 r.pending, List.map_map]
  rfl

/-- What the word of a run is like: it is the smallest that holds all bits and is no smaller than a
declared type. Its fields have no bit in common and none outside the word; they fill it from the
lowest bit on in their order, or are the mirror image of that. -/
structure Packed (r : BitRun) : Prop where
  word : IsLeast {w | w ∈ [1, 2, 4] ∧ r.totalBits ≤ 8 * w ∧ ∀ p ∈ r.pending, p.declaredBytes ≤ w}
    r.wordBytes
  fields : ∀ order, (r.slices order).map (fun x => (x.1, x.2.count, x.2.word)) =
    r.pending.map fun p => (p.name, p.bits, r.wordBytes)
  apart : ∀ order, (r.slices order).Pairwise fun x y => x.2.Apart y.2
  inside : ∀ order, ∀ x ∈ r.slices order, x.2.offset + x.2.count ≤ 8 * r.wordBytes
  upward : BitSlice.Consecutive 0 ((r.slices .lsb).map (·.2))
  mirror : List.Forall₂
    (fun x y => x.2.offset + y.2.offset + x.2.count = 8 * r.wordBytes) (r.slices .lsb) (r.slices .msb)

theorem end_le (h : r.Bounded) {x : PendingBits × Nat} (hx : x ∈ starts 0 r.pending) :
    x.2 + x.1.bits ≤ 8 * r.wordBytes := by
  have hb := (starts_bounds hx).2
  have hw : r.totalBits ≤ 8 * r.wordBytes := (wordBytes_isLeast h).1.2.1
  have ht : totalBits ⟨r.pending⟩ = r.totalBits := rfl
  omega

/-- No field gets a bit below the lowest one. -/
theorem assign_nonneg (h : r.Bounded) {order : BitOrder} {x : PendingBits × Int} (hx : x ∈ r.assign order) :
    0 ≤ x.2 := by
  obtain ⟨y, hy, rfl⟩ := List.mem_map.mp hx
  have hend := end_le h hy
  cases order with
  | lsb => exact Int.natCast_nonneg y.2
  | msb =>
    dsimp only
    omega

theorem consecutive_starts (r : BitRun) (n : Nat) (ps : List PendingBits) :
    BitSlice.Consecutive n ((starts n ps).map fun x => (r.slice .lsb x).2) := by
  induction ps generalizing n with
  | nil => trivial
  | cons p ps ih => exact ⟨rfl, ih _⟩

theorem packed (h : r.Bounded) : r.Packed := by
  refine ⟨wordBytes_isLeast h, r.slices_fields, ?_, ?_, ?_, ?_⟩
  · intro order
    rw [slices_eq, List.pairwise_map]
    refine (starts_pairwise 0 r.pending).imp_of_mem fun {x y} hx hy hxy => ?_
    have hy' := end_le h hy
    cases order with
    | lsb => exact .inl hxy
    | msb =>
      refine .inr ?_
      simp only [slice]
      omega
  · intro order x hx
    rw [slices_eq] at hx
    obtain ⟨y, hy, rfl⟩ := List.mem_map.mp hx
    have hy' := end_le h hy
    cases order with
    | lsb => exact hy'
    | msb =>
      simp only [slice]
      omega
  · rw [slices_eq, List.map_map]
    exact consecutive_starts r 0 r.pending
  · rw [slices_eq, slices_eq, List.forall₂_map_left_iff, List.forall₂_map_right_iff]
    refine List.forall₂_same.mpr fun x hx => ?_
    have hx' := end_le h hx
    simp only [slice]
    omega

end BitRun
end RecordView
