import RecordView.Layout.Statement
import RecordView.Proofs.Expression.Derived
import RecordView.Proofs.Token.Thinning

/-! A field statement declares the same without the comments in its expressions. -/
namespace RecordView

variable {scope : Scope} {z : Token} {location : Option Location} {what : String} {n : Nat}

namespace Expr

theorem levelOf_of_unary {allowDefined : Bool} {ts : List Token} (h : (unaryOf allowDefined ts).2 = [])
    (k : Nat) : levelOf allowDefined k ts = unaryOf allowDefined ts := by
  induction k with
  | zero => exact levelOf_zero allowDefined ts
  | succ k ih =>
    rw [levelOf_succ, ih, h, moreOf_nil, ← h]

/-- A token that is no operator is read as it stands. -/
theorem read_single {allowDefined : Bool} (hop : unaryOp? z = none)
    (hrest : (primaryOf allowDefined z []).2 = []) :
    read allowDefined [z] = (primaryOf allowDefined z []).1 := by
  have hunary : unaryOf allowDefined [z] = primaryOf allowDefined z [] := unaryOf_none [] hop
  have hlevel : levelOf allowDefined 10 [z] = primaryOf allowDefined z [] := by
    rw [levelOf_of_unary (by rw [hunary, hrest]), hunary]
  rw [read_eq, choiceOf_eq, hlevel]
  cases h : primaryOf allowDefined z [] with
  | mk e r =>
    rw [h] at hrest
    cases hrest
    rfl

/-- What is spelled `0` and is no name has the value zero, is a text, or has no value. -/
theorem value_of_zero {v : Constant} (hz : z.text = "0") (hname : z.kind ≠ .identifier)
    (h : (read false [z]).value scope = .ok v) : v = .int 0 ∨ v = .text "0" := by
  have hop : unaryOp? z = none := by
    unfold unaryOp?
    split
    · rfl
    · rw [hz]
      rfl
  have hread {e : Expr} (hprimary : primaryOf false z [] = (e, [])) : e.value scope = .ok v := by
    have hrest : (primaryOf false z []).2 = [] := by rw [hprimary]
    rwa [read_single hop hrest, hprimary] at h
  have hprimary : primaryOf false z [] = _ := primaryOf_eq z []
  cases hkind : z.kind with
  | identifier => exact absurd hkind hname
  | number =>
    rw [hkind, hz] at hprimary
    have hvalue : Constant.literal? "0" = some (.int 0) := by decide +kernel
    have hv := hread hprimary
    simp only [value, hvalue] at hv
    cases hv
    exact .inl rfl
  | string =>
    rw [hkind, hz] at hprimary
    cases hread hprimary
    exact .inr rfl
  | leftParen =>
    -- nothing is in the parenthesis, and nothing closes it
    have hrest : (choiceOf false ([] : List Token)).2 = [] :=
      List.length_eq_zero_iff.mp (Nat.le_zero.mp (choiceOf_length false []))
    rw [hkind] at hprimary
    generalize choiceOf false ([] : List Token) = r at hprimary hrest
    obtain ⟨e, r⟩ := r
    cases hrest
    obtain ⟨_, -, hv⟩ := bind_eq_ok_iff.mp (hread hprimary)
    cases hv
  | _ =>
    rw [hkind] at hprimary
    cases hread hprimary

/-- What is spelled `0` and is no name is no count. -/
theorem not_count_of_zero (hz : z.text = "0") (hname : z.kind ≠ .identifier) :
    evaluateCount scope false [z] location what ≠ .ok n := by
  intro h
  obtain ⟨w, hw, hcount⟩ := bind_eq_ok_iff.mp h
  rw [located_eq_ok_iff] at hcount
  unfold evaluate at hw
  rw [located_eq_ok_iff] at hw
  have hcontent : content [z] = [z] ∨ content [z] = [] := by
    simp only [content, List.filter_cons, List.filter_nil]
    split
    · exact .inl rfl
    · exact .inr rfl
  rcases hcontent with hcontent | hcontent
  · rw [hcontent] at hw
    obtain ⟨v, hv, hsettle⟩ := bind_eq_ok_iff.mp hw
    rcases value_of_zero hz hname hv with rfl | rfl
    · cases hsettle
      rw [count, if_pos (Int.le_refl 0)] at hcount
      obtain ⟨_, -, hrefused⟩ := bind_eq_ok_iff.mp hcount
      cases hrefused
    · cases hsettle
      cases hcount
  · rw [hcontent] at hw
    cases hw

end Expr

namespace FieldStatement

/-- The same statement, without some of the comments in its expressions. -/
inductive Thinned : FieldStatement → FieldStatement → Prop where
  | intro (type name : Token) {count count' bits bits' : Option (List Token)}
      (hcount : Option.Rel Thins count count') (hbits : Option.Rel Thins bits bits') :
      Thinned ⟨type, name, count, bits⟩ ⟨type, name, count', bits'⟩

variable {f g : FieldStatement} {s : Surroundings} {d d' : Draft}

theorem Thinned.refl (f : FieldStatement) : f.Thinned f :=
  .intro f.type f.name (Thins.option _) (Thins.option _)

theorem Thinned.width?_eq (h : Thinned f g) (s : Surroundings) : f.width? s = g.width? s := by
  obtain ⟨type, name, -, hbits⟩ := h
  cases hbits with
  | none => rfl
  | some hthins =>
    simp only [width?]
    rw [hthins.evaluateCount_eq]

theorem open_iff (ts : List Token) : (ts.isEmpty || ts.map (·.text) == ["0"]) = true ↔
    ts = [] ∨ ∃ z, ts = [z] ∧ z.text = "0" := by
  simp [List.map_eq_cons_iff]

/-- An array keeps its extent. Only a name could be a count that is spelled `0`. -/
theorem Thinned.extent_eq (h : Thinned f g) (hnamed : ∀ ts, f.count = some ts → Token.Named ts)
    {x : Extent} (hx : f.extent s = .ok x) : g.extent s = .ok x := by
  obtain ⟨type, name, hcount, -⟩ := h
  cases hcount with
  | none => exact hx
  | @some ts us hthins =>
    simp only [extent] at hx ⊢
    split at hx
    · rename_i hopen
      have hopen' : (us.isEmpty || us.map (·.text) == ["0"]) = true := by
        rw [open_iff] at hopen ⊢
        rcases hopen with rfl | ⟨z, rfl, hz⟩
        · exact .inl hthins.nil_inv
        · cases hthins with
          | keep _ rest => exact .inr ⟨z, by rw [rest.nil_inv], hz⟩
          | drop _ rest => exact .inl rest.nil_inv
      rwa [if_pos hopen']
    · rename_i hcounted
      obtain ⟨n, hn, hx⟩ := bind_eq_ok_iff.mp hx
      rw [hthins.evaluateCount_eq] at hn
      have hcounted' : ¬ (us.isEmpty || us.map (·.text) == ["0"]) = true := by
        rw [open_iff]
        rintro (rfl | ⟨z, rfl, hz⟩)
        · cases hn
        · by_cases hkind : z.kind = .identifier
          · exact hnamed ts rfl z (hthins.subset z List.mem_cons_self) hkind hz
          · exact Expr.not_count_of_zero hz hkind hn
      rw [if_neg hcounted']
      exact bind_eq_ok_iff.mpr ⟨n, hn, hx⟩

/-- A statement declares the same without the comments in its expressions. -/
theorem Thinned.declare_eq (h : Thinned f g) (hnamed : ∀ ts, f.count = some ts → Token.Named ts)
    (hd : f.declare s d = .ok d') : g.declare s d = .ok d' := by
  obtain ⟨c, hc, hput⟩ := bind_eq_ok_iff.mp hd
  have hname : g.name = f.name := by
    cases h
    rfl
  have htype : g.byType s d = f.byType s d := by
    cases h
    rfl
  have hresolve : g.resolve s d = .ok c := by
    unfold resolve at hc ⊢
    split at hc
    · cases hc
    split at hc
    · cases hc
    rename_i hnew
    obtain ⟨width, hwidth, hc⟩ := bind_eq_ok_iff.mp hc
    obtain ⟨extent, hextent, hc⟩ := bind_eq_ok_iff.mp hc
    rw [hname, if_neg hnew, ← h.width?_eq, htype]
    exact bind_eq_ok_iff.mpr ⟨width, hwidth, bind_eq_ok_iff.mpr ⟨extent, h.extent_eq hnamed hextent, hc⟩⟩
  refine bind_eq_ok_iff.mpr ⟨c, hresolve, ?_⟩
  cases h
  exact hput

/-- A comment is no width. -/
theorem declare_of_comment {c : Token} (hc : c.kind = .comment) (hbits : f.bits = some [c]) :
    f.declare s d ≠ .ok d' := by
  intro hd
  obtain ⟨_, hresolve, -⟩ := bind_eq_ok_iff.mp hd
  unfold resolve at hresolve
  split at hresolve
  · cases hresolve
  split at hresolve
  · cases hresolve
  obtain ⟨_, hwidth, -⟩ := bind_eq_ok_iff.mp hresolve
  unfold width? at hwidth
  rw [hbits] at hwidth
  obtain ⟨n, hn, -⟩ := bind_eq_ok_iff.mp hwidth
  rw [(Thins.drop hc .nil).evaluateCount_eq] at hn
  cases hn

end FieldStatement
end RecordView
