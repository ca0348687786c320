import RecordView.Proofs.Expression.Derived
import RecordView.Proofs.Layout.Unit

/-! What a field statement that is not refused declares. -/
namespace RecordView

def Registry.Aligned (r : Registry) : Prop := ∀ t ∈ r.types, 0 < t.alignment

theorem bytes_pos (p : Primitive) : 0 < p.bytes := by
  cases p <;> decide

theorem integer_bytes {p : Primitive} (h : p.isInteger = true) : p.bytes ∈ [1, 2, 4] := by
  revert h
  cases p <;> decide

theorem NaturalAlignment.pos {r : Registry} {kind : FieldKind} {n : Nat}
    (h : NaturalAlignment r kind n) (hr : r.Aligned) (whole : ∀ b, kind ≠ .bits b) : 0 < n := by
  cases h with
  | number p => exact bytes_pos p
  | text => exact Nat.one_pos
  | bits b => exact absurd rfl (whole b)
  | nested _ h => exact hr _ (List.mem_of_find?_eq_some h)
  | flexible => exact Nat.one_pos

/-- A bit field has one to 32 bits, and no more than the integer type that it is declared with; a
field of any other kind has its natural alignment, limited by the setting. -/
inductive Content.Admitted (u : Surroundings) : Content → Prop where
  | bits {count : Nat} (boolean : Bool) (pos : 0 < count) (le : count ≤ maxBits) :
      Admitted u (.bits count boolean 0)
  | declaredBits {count : Nat} {p : Primitive} (pos : 0 < count) (integer : p.isInteger = true)
      (le : count ≤ p.bytes * 8) : Admitted u (.bits count false p.bytes)
  | plain {kind : FieldKind} {alignment natural : Nat} (size : Nat)
      (limited : alignment = min u.settings.pack.bytes natural)
      (own : NaturalAlignment u.registry kind natural) (whole : ∀ b, kind ≠ .bits b) :
      Admitted u (.plain kind size alignment)
  | tail (p : Primitive) : Admitted u (.tail p)

def Counted (count : Option Nat) : Prop := ∀ n, count = some n → 1 ≤ n ∧ (n : Int) ≤ Expr.maxCount

def TypeInfo.extent (t : TypeInfo) (count : Option Nat) : Nat :=
  (count.map (· * t.alignedLength)).getD t.byteLength

/-- All that a field statement can declare. -/
inductive Content.Resolved (u : Surroundings) (d : Draft) : Content → Prop where
  | bits {n : Nat} (pos : 0 < n) (le : n ≤ maxBits) : Resolved u d (.bits n false 0)
  | truth : Resolved u d (.bits 1 true 0)
  | declaredBits {n : Nat} {p : Primitive} (pos : 0 < n) (integer : p.isInteger = true)
      (le : n ≤ p.bytes * 8) : Resolved u d (.bits n false p.bytes)
  | number (p : Primitive) {count : Option Nat} {enum : Option String} (counted : Counted count)
      (named : ∀ name, enum = some name →
        ∃ t, u.registry.find? name = some t ∧ t.form = .enum ∧ t.backing = some p) :
      Resolved u d
        (.plain (.number p count enum) (p.bytes * count.getD 1) (min u.settings.pack.bytes p.bytes))
  | text {count : Option Nat} (counted : Counted count) :
      Resolved u d (.plain (.text count) (count.getD 1) 1)
  | nested {t : TypeInfo} {count : Option Nat} (found : u.registry.find? t.name = some t)
      (other : t.form = .enum → t.backing = none) (closed : t.hasFlexible = false)
      (counted : Counted count) :
      Resolved u d
        (.plain (.nested t.ref count) (t.extent count) (min u.settings.pack.bytes t.alignment))
  | tail {p : Primitive} (byte : p.bytes = 1) (outside : d.inUnion = false) : Resolved u d (.tail p)

theorem Content.Resolved.admitted {u : Surroundings} {d : Draft} {c : Content} (h : c.Resolved u d) :
    c.Admitted u := by
  cases h with
  | bits pos le => exact .bits false pos le
  | truth => exact .bits true (by decide) (by decide)
  | declaredBits pos integer le => exact .declaredBits pos integer le
  | number p => exact .plain _ rfl (.number p _ _) fun b hb => by cases hb
  | text => exact .plain _ (one_eq_min _) (.text _) fun b hb => by cases hb
  | nested found => exact .plain _ rfl (.nested _ found) fun b hb => by cases hb
  | tail => exact .tail _

variable {extent : Extent} {width : Option Nat}

namespace FieldStatement

variable {f : FieldStatement} {u : Surroundings} {d : Draft} {c : Content}

theorem count_ok {what : String} {v : Constant} {n : Nat} (h : Expr.count what v = .ok n) :
    1 ≤ n ∧ (n : Int) ≤ Expr.maxCount := by
  cases v with
  | int m =>
    dsimp only [Expr.count] at h
    split at h
    · obtain ⟨_, -, h⟩ := bind_eq_ok_iff.mp h
      cases h
    split at h
    · obtain ⟨_, -, h⟩ := bind_eq_ok_iff.mp h
      cases h
    · cases h
      omega
  | _ =>
    obtain ⟨_, -, h⟩ := bind_eq_ok_iff.mp h
    cases h

theorem evaluateCount_ok {scope : Scope} {allowDefined : Bool} {ts : List Token} {what : String}
    {location : Option Location} {n : Nat}
    (h : Expr.evaluateCount scope allowDefined ts location what = .ok n) :
    1 ≤ n ∧ (n : Int) ≤ Expr.maxCount := by
  obtain ⟨v, -, hv⟩ := bind_eq_ok_iff.mp h
  exact count_ok (Expr.located_eq_ok_iff.mp hv)

theorem width?_ok {w : Nat} (h : f.width? u = .ok (some w)) : 0 < w ∧ w ≤ maxBits := by
  unfold width? at h
  split at h
  · cases h
  · obtain ⟨n, hn, h⟩ := bind_eq_ok_iff.mp h
    have hpos := (evaluateCount_ok hn).1
    split at h
    · cases h
    · cases h
      omega

theorem extent_ok (h : f.extent u = .ok extent) : Counted extent.count? := by
  unfold FieldStatement.extent at h
  intro n hn
  split at h
  · cases h
    cases hn
  split at h
  · cases h
    cases hn
  · obtain ⟨m, hm, h⟩ := bind_eq_ok_iff.mp h
    cases h
    cases hn
    exact evaluateCount_ok hm

theorem number_ok {p : Primitive} {enum : Option String} (hw : ∀ w, width = some w → 0 < w)
    (he : Counted extent.count?)
    (named : ∀ name, enum = some name →
      ∃ t, u.registry.find? name = some t ∧ t.form = .enum ∧ t.backing = some p)
    (h : f.number u d p enum width extent = .ok c) : c.Resolved u d := by
  unfold number at h
  dsimp only at h
  split at h
  · rename_i bits
    split at h
    · cases h
    split at h
    · cases h
    split at h
    · cases h
    · rename_i hi _ hb
      cases h
      exact .declaredBits (hw bits rfl) (by simpa using hi) (by omega)
  split at h
  · split at h
    · cases h
    rename_i hp
    split at h
    · cases h
    · rename_i hd
      cases h
      have hbyte : p = .int8 ∨ p = .uint8 := by
        simp only [Bool.or_eq_true, not_or] at hp
        simpa [Decidable.or_iff_not_imp_left] using hp.1
      refine .tail ?_ (Bool.eq_false_iff.mpr hd)
      rcases hbyte with rfl | rfl <;> rfl
  · cases h
    exact .number p he named

theorem nested_ok {t : TypeInfo} (he : Counted extent.count?) (ht : u.registry.find? f.type.text = some t)
    (other : t.form = .enum → t.backing = none) (h : f.nested u t width extent = .ok c) : c.Resolved u d := by
  have hn : t.name = f.type.text := by simpa using List.find?_some ht
  unfold nested at h
  dsimp only at h
  split at h
  · cases h
  split at h
  · cases h
  split at h
  · cases h
  · rename_i hclosed
    have hr (count : Option Nat) (he : Counted count) :
        (Content.plain (.nested t.ref count) (t.extent count)
          (min u.settings.pack.bytes t.alignment)).Resolved u d :=
      .nested (by rw [hn, ht]) other (Bool.eq_false_iff.mpr hclosed) he
    generalize extent.count? = count at h he
    cases count with
    | none =>
      cases h
      exact hr none he
    | some n =>
      cases h
      exact hr (some n) he

theorem byType_ok (he : Counted extent.count?) (hw : ∀ w, width = some w → 0 < w ∧ w ≤ maxBits)
    (h : f.byType u d width extent = .ok c) : c.Resolved u d := by
  have hpos (w : Nat) (hw' : width = some w) : 0 < w := (hw w hw').1
  unfold byType at h
  dsimp only at h
  split at h
  · split at h
    · cases h
    · rename_i bits
      split at h
      · cases h
      · cases h
        exact .bits (hw bits rfl).1 (hw bits rfl).2
  split at h
  · split at h
    · cases h
    · cases h
      exact .truth
  · exact number_ok hpos he (fun name hn => by cases hn) h
  split at h
  · split at h
    · cases h
    split at h
    · cases h
    · cases h
      exact .text he
  split at h
  · cases h
  · rename_i t ht
    have hn : t.name = f.type.text := by simpa using List.find?_some ht
    split at h
    · rename_i p hform hbacking
      refine number_ok hpos he (fun name hname => ?_) h
      cases hname
      exact ⟨t, by rw [hn, ht], hform, hbacking⟩
    · rename_i hother
      refine nested_ok he ht (fun hform => ?_) h
      rw [Option.eq_none_iff_forall_ne_some]
      exact fun p hp => hother p hform hp

/-- A statement that is not refused has a new name, and nothing stands before it that must be last. -/
theorem resolve_eq_ok (h : f.resolve u d = .ok c) :
    d.flexible = none ∧ f.name.text ∉ d.names ∧ c.Resolved u d := by
  unfold resolve at h
  split at h
  · cases h
  rename_i hflexible
  split at h
  · cases h
  · rename_i hnew
    obtain ⟨width, hw, h⟩ := bind_eq_ok_iff.mp h
    obtain ⟨extent, he, h⟩ := bind_eq_ok_iff.mp h
    refine ⟨hflexible, by simpa using hnew, byType_ok (extent_ok he) (fun w hw' => ?_) h⟩
    subst hw'
    exact width?_ok hw

theorem resolve_ok (h : f.resolve u d = .ok c) : c.Admitted u := (resolve_eq_ok h).2.2.admitted

end FieldStatement
end RecordView
