import Mathlib.Order.Bounds.Basic
import RecordView.Layout.Statement

/-! Storage units: what the bytes of a struct are divided into, and what follows for its fields. -/
namespace RecordView

/-- The alignment that a field has if no setting limits it. A declared type has the one that it was
declared with. -/
inductive NaturalAlignment (r : Registry) : FieldKind → Nat → Prop where
  | number (p : Primitive) (count : Option Nat) (enum : Option String) :
      NaturalAlignment r (.number p count enum) p.bytes
  | text (count : Option Nat) : NaturalAlignment r (.text count) 1
  | bits (b : BitSlice) : NaturalAlignment r (.bits b) b.word
  | nested {t : TypeRef} {u : TypeInfo} (count : Option Nat) (h : r.find? t.name = some u) :
      NaturalAlignment r (.nested t count) u.alignment
  | flexible (p : Primitive) : NaturalAlignment r (.flexible p) 1

namespace Field

def shift (start : Nat) (f : Field) : Field := { f with offset := f.offset + start }

def Apart (f g : Field) : Prop := f.offset + f.bytes ≤ g.offset ∨ g.offset + g.bytes ≤ f.offset

def SameWord (f g : Field) : Prop :=
  ∃ b c, f.kind = .bits b ∧ g.kind = .bits c ∧ b.word = c.word ∧ f.offset = g.offset

end Field

/-- What takes its bytes at once: one field that is no bit field, or all bit fields of a word. It is
placed under the given setting; its offsets count from its own first byte. -/
structure Piece where
  pack : Pack
  natural : Nat
  bytes : Nat
  fields : List Field

namespace Piece

def alignment (p : Piece) : Nat := min p.pack.bytes p.natural

structure Sound (r : Registry) (p : Piece) : Prop where
  shape : (∃ f, p.fields = [f] ∧ ∀ b, f.kind ≠ .bits b) ∨
    (p.fields ≠ [] ∧ ∀ f ∈ p.fields, ∃ b, f.kind = .bits b ∧ b.word = p.bytes)
  field : ∀ f ∈ p.fields, f.offset = 0 ∧ f.bytes = p.bytes ∧ NaturalAlignment r f.kind p.natural
  natural_pos : 0 < p.natural

end Piece

/-- A unit: a piece on its own, or an anonymous union, whose pieces all start at its first byte. -/
inductive StorageUnit where
  | single (start : Nat) (p : Piece)
  | union (start : Nat) (ps : List Piece)

namespace StorageUnit

def start : StorageUnit → Nat
  | single n _ => n
  | union n _ => n

def pieces : StorageUnit → List Piece
  | single _ p => [p]
  | union _ ps => ps

def fields (u : StorageUnit) : List Field := (u.pieces.flatMap (·.fields)).map (.shift u.start)

def isUnion : StorageUnit → Bool
  | single _ _ => false
  | union _ _ => true

def maxAlignment (ps : List Piece) : Nat := (ps.map (·.alignment)).foldl max 1

def maxBytes (ps : List Piece) : Nat := (ps.map (·.bytes)).foldl max 0

def alignment : StorageUnit → Nat
  | single _ p => p.alignment
  | union _ ps => maxAlignment ps

/-- A union is as wide as its widest piece, rounded up to its alignment. -/
def width : StorageUnit → Nat
  | single _ p => p.bytes
  | union _ ps => alignUp (maxBytes ps) (maxAlignment ps)

def stop (u : StorageUnit) : Nat := u.start + u.width

def Sound (r : Registry) (u : StorageUnit) : Prop := ∀ p ∈ u.pieces, p.Sound r

end StorageUnit

/-- Each unit starts at the least multiple of its alignment that is not below the end of the one
before it; the first one follows `base`, and the last one ends at `stop`. -/
def Tiled : Nat → List StorageUnit → Nat → Prop
  | base, [], stop => stop = base
  | base, u :: us, stop =>
    IsLeast {n | base ≤ n ∧ u.alignment ∣ n} u.start ∧ Tiled u.stop us stop

theorem pack_bytes_pos (p : Pack) : 0 < p.bytes := by
  cases p <;> decide

theorem one_eq_min (p : Pack) : 1 = min p.bytes 1 := (Nat.min_eq_right (pack_bytes_pos p)).symm

variable {r : Registry} {p : Piece} {base stop : Nat} {us : List StorageUnit} {u : StorageUnit}

theorem Piece.Sound.alignment_pos (h : p.Sound r) : 0 < p.alignment :=
  Nat.lt_min.mpr ⟨pack_bytes_pos p.pack, h.natural_pos⟩

theorem isLeast_alignUp {a : Nat} (h : 0 < a) : IsLeast {n | base ≤ n ∧ a ∣ n} (alignUp base a) :=
  ⟨⟨le_alignUp base a, dvd_alignUp base a h⟩, fun _ hn => alignUp_le hn.1 hn.2⟩

theorem tiled_append (h : Tiled base us stop) (hu : IsLeast {n | stop ≤ n ∧ u.alignment ∣ n} u.start) :
    Tiled base (us ++ [u]) u.stop := by
  induction us generalizing base with
  | nil =>
    cases h
    exact ⟨hu, rfl⟩
  | cons v us ih => exact ⟨h.1, ih h.2⟩

/-! ## Fields lie in their units -/

theorem Tiled.base_le (h : Tiled base us stop) : base ≤ stop := by
  induction us generalizing base with
  | nil => exact Nat.le_of_eq (Eq.symm h)
  | cons u us ih =>
    calc base ≤ u.start := h.1.1.1
      _ ≤ u.stop := Nat.le_add_right _ _
      _ ≤ stop := ih h.2

theorem Tiled.bounds (h : Tiled base us stop) : ∀ u ∈ us, base ≤ u.start ∧ u.stop ≤ stop := by
  induction us generalizing base with
  | nil => intro u hu; cases hu
  | cons v us ih =>
    intro u hu
    rcases List.mem_cons.mp hu with rfl | hu
    · exact ⟨h.1.1.1, h.2.base_le⟩
    · obtain ⟨hl, hr⟩ := ih h.2 u hu
      have hv : base ≤ v.stop := Nat.le_trans h.1.1.1 (Nat.le_add_right _ _)
      exact ⟨Nat.le_trans hv hl, hr⟩

/-- Units follow each other. -/
theorem Tiled.pairwise (h : Tiled base us stop) : us.Pairwise fun u v => u.stop ≤ v.start := by
  induction us generalizing base with
  | nil => exact .nil
  | cons u us ih => exact .cons (fun v hv => (h.2.bounds v hv).1) (ih h.2)

theorem le_maxBytes {ps : List Piece} (h : p ∈ ps) : p.bytes ≤ StorageUnit.maxBytes ps := by
  have hmax : (0 :: ps.map (·.bytes)).max? = some (StorageUnit.maxBytes ps) := List.max?_cons'
  have hle := (List.max?_le_iff hmax).mp (Nat.le_refl _)
  exact hle _ (List.mem_cons_of_mem _ (List.mem_map_of_mem h))

namespace StorageUnit

theorem mem_fields {f : Field} : f ∈ u.fields ↔ ∃ p ∈ u.pieces, ∃ g ∈ p.fields, g.shift u.start = f := by
  simp only [fields, List.mem_map, List.mem_flatMap]
  grind

theorem bytes_le_width (h : p ∈ u.pieces) : p.bytes ≤ u.width := by
  cases u with
  | single n q =>
    obtain rfl := List.mem_singleton.mp h
    exact Nat.le_refl _
  | union n ps => exact Nat.le_trans (le_maxBytes h) (le_alignUp _ _)

theorem Sound.field (hu : u.Sound r) {f : Field} (hf : f ∈ u.fields) :
    f.offset = u.start ∧ f.offset + f.bytes ≤ u.stop := by
  obtain ⟨p, hp, g, hg, rfl⟩ := mem_fields.mp hf
  obtain ⟨ho, hb, -⟩ := (hu p hp).field g hg
  have hw := bytes_le_width hp
  have hs : (g.shift u.start).offset = u.start := by
    simp only [Field.shift, ho, Nat.zero_add]
  refine ⟨hs, ?_⟩
  rw [hs]
  simp only [Field.shift, hb, stop]
  omega

/-- Fields of one unit that is no union are bits of one word. -/
theorem Sound.sameWord {n : Nat} (hu : (single n p).Sound r) :
    (single n p).fields.Pairwise Field.SameWord := by
  have hp := hu p (List.mem_singleton_self p)
  have hfields : (single n p).fields = p.fields.map (.shift n) := by
    simp [fields, pieces, start]
  rw [hfields]
  rcases hp.shape with ⟨f, hf, -⟩ | ⟨-, hw⟩
  · rw [hf]
    exact List.pairwise_singleton _ _
  · rw [List.pairwise_map]
    refine List.pairwise_of_forall_mem_list fun f hf g hg => ?_
    obtain ⟨b, hb, hbw⟩ := hw f hf
    obtain ⟨c, hc, hcw⟩ := hw g hg
    refine ⟨b, c, hb, hc, by rw [hbw, hcw], ?_⟩
    simp only [Field.shift, (hp.field f hf).1, (hp.field g hg).1]

end StorageUnit

/-- Every field lies between the base and the end. -/
theorem Tiled.field_bounds (h : Tiled base us stop) (hs : ∀ u ∈ us, u.Sound r) :
    ∀ f ∈ us.flatMap StorageUnit.fields, base ≤ f.offset ∧ f.offset + f.bytes ≤ stop := by
  intro f hf
  obtain ⟨u, hu, hf⟩ := List.mem_flatMap.mp hf
  obtain ⟨hl, hr⟩ := h.bounds u hu
  obtain ⟨ho, hb⟩ := (hs u hu).field hf
  exact ⟨by rw [ho]; exact hl, Nat.le_trans hb hr⟩

/-- Two fields that share a byte are bits of one word or members of one anonymous union. -/
theorem Tiled.fields_apart (h : Tiled base us stop) (hs : ∀ u ∈ us, u.Sound r) :
    (us.flatMap StorageUnit.fields).Pairwise fun f g =>
      f.Apart g ∨ f.SameWord g ∨ ∃ u ∈ us, u.isUnion = true ∧ f ∈ u.fields ∧ g ∈ u.fields := by
  rw [List.pairwise_flatMap]
  constructor
  · intro u hu
    cases u with
    | single n p => exact (hs _ hu).sameWord.imp fun hw => .inr (.inl hw)
    | union n ps =>
      exact List.pairwise_of_forall_mem_list fun f hf g hg => .inr (.inr ⟨_, hu, rfl, hf, hg⟩)
  · refine h.pairwise.imp_of_mem fun {u v} hu hv hle f hf g hg => .inl (.inl ?_)
    have hfu := ((hs u hu).field hf).2
    have hgv := ((hs v hv).field hg).1
    omega

end RecordView
