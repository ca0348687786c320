import RecordView.Proofs.Expression.Derived

/-! Derivations are unique; so the value of an expression is that of the one derivation of its
tokens. -/
namespace RecordView.Expr
open Grammar

variable {allowDefined : Bool} {p : Phrase}

/-- The outermost operator of an expression is one that the phrase can have. -/
def Fits : Phrase → Expr → Prop
  | .conditional, _ => True
  | .level _, .choice _ _ _ => False
  | .level k, .binary op _ _ => op.level ≤ k
  | .level _, _ => True
  | .primary, .choice _ _ _ => False
  | .primary, .binary _ _ _ => False
  | .primary, .unary _ _ => False
  | .primary, _ => True

theorem Fits.tighter {k : Nat} {e : Expr} (h : Fits (.level k) e) : Fits (.level (k + 1)) e := by
  cases e with
  | binary op l r => exact Nat.le_succ_of_le h
  | choice c yes no => exact h
  | _ => trivial

theorem Fits.atom {e : Expr} (h : Fits .primary e) : Fits (.level 0) e := by
  cases e with
  | binary op l r => exact h.elim
  | choice c yes no => exact h
  | _ => trivial

theorem fits_expr (d : Derivation allowDefined p) : Fits p d.expr := by
  induction d with
  | choice | plain => trivial
  | binary op left mark right ihl ihr => exact Nat.le_of_eq (mem_operators_iff.mp op.2)
  | tighter e ih => exact ih.tighter
  | atom e ih => exact ih.atom
  | name t =>
    simp only [Derivation.expr]
    split
    · trivial
    · split <;> trivial
  | unary | number | text | group | definedName | definedGroup => trivial

theorem expr_ne_choice {k : Nat} (e : Derivation allowDefined (.level k)) (c yes no : Expr) :
    e.expr ≠ .choice c yes no := by
  intro h
  have hf := fits_expr e
  rw [h] at hf
  exact hf

theorem expr_ne_unary (e : Derivation allowDefined .primary) (op : UnaryOp) (x : Expr) :
    e.expr ≠ .unary op x := by
  intro h
  have hf := fits_expr e
  rw [h] at hf
  exact hf

/-- An operator of a level is not the outermost one of a tighter level. -/
theorem expr_ne_binary {k : Nat} (e : Derivation allowDefined (.level k))
    (op : { op : BinaryOp // op ∈ operators (k + 1) }) (l r : Expr) : e.expr ≠ .binary op.1 l r := by
  intro h
  have hf := fits_expr e
  rw [h] at hf
  have hle : op.1.level ≤ k := hf
  have hop := mem_operators_iff.mp op.2
  omega

theorem eq_name_of_expr {d : Derivation allowDefined .primary} {t : Name allowDefined}
    (h : (Derivation.name t).expr = d.expr) : ∃ t', d = .name t' := by
  have ht : (∃ b, (Derivation.name t).expr = .truth b) ∨
      (Derivation.name t).expr = .name t.1.1.text := by
    simp only [Derivation.expr]
    split
    · exact .inl ⟨true, rfl⟩
    split
    · exact .inl ⟨false, rfl⟩
    · exact .inr rfl
  cases d with
  | name t' => exact ⟨t', rfl⟩
  | _ =>
    rcases ht with ⟨b, ht⟩ | ht
    · rw [ht] at h
      cases h
    · rw [ht] at h
      cases h

theorem leaf_ne_sign {s : String} (n : Leaf .identifier) (mark : Sign s) : n.1 ≠ mark.1 := by
  intro h
  have hm := mark.2
  rw [← h, not_isSymbol_of_name n.2] at hm
  cases hm

/-- Two derivations of one expression that spell the beginning of the same tokens are the same. -/
theorem eq_of_expr {d : Derivation allowDefined p} :
    ∀ {d' : Derivation allowDefined p} {r r' : List Token}, d.expr = d'.expr →
      d.yield ++ r = d'.yield ++ r' → d = d' ∧ r = r' := by
  -- on the first derivation: the expression tells the constructor of the other one, and the tokens
  -- what the expression leaves open
  induction d with
  | choice c question yes colon no ihc ihy ihn =>
    intro d' r r' he hy
    cases d' with
    | choice c' question' yes' colon' no' =>
      simp only [Derivation.expr, Expr.choice.injEq] at he
      simp only [Derivation.yield, List.append_assoc, List.cons_append] at hy
      obtain ⟨hc, hy₁⟩ := ihc he.1 hy
      obtain ⟨hq, hy₂⟩ := List.cons.inj hy₁
      obtain ⟨ha, hy₃⟩ := ihy he.2.1 hy₂
      obtain ⟨hk, hy₄⟩ := List.cons.inj hy₃
      obtain ⟨hb, hy₅⟩ := ihn he.2.2 hy₄
      exact ⟨by rw [hc, ha, hb, Subtype.ext hq, Subtype.ext hk], hy₅⟩
    | plain e => exact absurd he.symm (expr_ne_choice e _ _ _)
  | plain e ih =>
    intro d' r r' he hy
    cases d' with
    | choice c' question' yes' colon' no' => exact absurd he (expr_ne_choice e _ _ _)
    | plain e' =>
      obtain ⟨hd, hr⟩ := ih he hy
      exact ⟨congrArg Derivation.plain hd, hr⟩
  | @binary k op left mark right ihl ihr =>
    intro d' r r' he hy
    cases d' with
    | binary op' left' mark' right' =>
      simp only [Derivation.expr, Expr.binary.injEq] at he
      simp only [Derivation.yield, List.append_assoc, List.cons_append] at hy
      obtain rfl := Subtype.ext he.1
      obtain ⟨hl, hy₁⟩ := ihl he.2.1 hy
      obtain ⟨hm, hy₂⟩ := List.cons.inj hy₁
      obtain ⟨hr, hy₃⟩ := ihr he.2.2 hy₂
      exact ⟨by rw [hl, hr, Subtype.ext hm], hy₃⟩
    | tighter e => exact absurd he.symm (expr_ne_binary e op _ _)
  | @tighter k e ih =>
    intro d' r r' he hy
    cases d' with
    | binary op' left' mark' right' => exact absurd he (expr_ne_binary e op' _ _)
    | tighter e' =>
      obtain ⟨hd, hr⟩ := ih he hy
      exact ⟨congrArg Derivation.tighter hd, hr⟩
  | unary op mark e ih =>
    intro d' r r' he hy
    cases d' with
    | unary op' mark' e' =>
      simp only [Derivation.expr, Expr.unary.injEq] at he
      obtain ⟨rfl, he⟩ := he
      obtain ⟨hm, hy₁⟩ := List.cons.inj hy
      obtain ⟨hd, hr⟩ := ih he hy₁
      exact ⟨by rw [hd, Subtype.ext hm], hr⟩
    | atom e' => exact absurd he.symm (expr_ne_unary e' _ _)
  | atom e ih =>
    intro d' r r' he hy
    cases d' with
    | unary op' mark' e' => exact absurd he (expr_ne_unary e _ _)
    | atom e' =>
      obtain ⟨hd, hr⟩ := ih he hy
      exact ⟨congrArg Derivation.atom hd, hr⟩
  | group opening e closing ih =>
    intro d' r r' he hy
    cases d' with
    | group opening' e' closing' =>
      simp only [Derivation.expr, Expr.group.injEq] at he
      simp only [Derivation.yield, List.append_assoc, List.cons_append] at hy
      obtain ⟨ho, hy₁⟩ := List.cons.inj hy
      obtain ⟨hd, hy₂⟩ := ih he hy₁
      obtain ⟨hc, hr⟩ := List.cons.inj hy₂
      exact ⟨by rw [hd, Subtype.ext (Subtype.ext ho), Subtype.ext hc], hr⟩
    | name t' =>
      obtain ⟨_, hd⟩ := eq_name_of_expr he.symm
      cases hd
    | _ => cases he
  | number t =>
    intro d' r r' he hy
    cases d' with
    | number t' =>
      obtain ⟨ht, hr⟩ := List.cons.inj hy
      exact ⟨by rw [Subtype.ext ht], hr⟩
    | name t' =>
      obtain ⟨_, hd⟩ := eq_name_of_expr he.symm
      cases hd
    | _ => cases he
  | text t =>
    intro d' r r' he hy
    cases d' with
    | text t' =>
      obtain ⟨ht, hr⟩ := List.cons.inj hy
      exact ⟨by rw [Subtype.ext ht], hr⟩
    | name t' =>
      obtain ⟨_, hd⟩ := eq_name_of_expr he.symm
      cases hd
    | _ => cases he
  | name t =>
    intro d' r r' he hy
    obtain ⟨t', rfl⟩ := eq_name_of_expr he
    obtain ⟨ht, hr⟩ := List.cons.inj hy
    exact ⟨by rw [Subtype.ext (Subtype.ext ht)], hr⟩
  | definedName word n =>
    intro d' r r' he hy
    cases d' with
    | definedName word' n' =>
      obtain ⟨hw, hy₁⟩ := List.cons.inj hy
      obtain ⟨hn, hr⟩ := List.cons.inj hy₁
      exact ⟨by rw [Subtype.ext (Subtype.ext hw), Subtype.ext hn], hr⟩
    | definedGroup word' opening' n' closing' =>
      obtain ⟨-, hy₁⟩ := List.cons.inj hy
      obtain ⟨hn, -⟩ := List.cons.inj hy₁
      exact absurd hn (leaf_ne_sign n opening')
    | name t' =>
      obtain ⟨_, hd⟩ := eq_name_of_expr he.symm
      cases hd
    | _ => cases he
  | definedGroup word opening n closing =>
    intro d' r r' he hy
    cases d' with
    | definedName word' n' =>
      obtain ⟨-, hy₁⟩ := List.cons.inj hy
      obtain ⟨hn, -⟩ := List.cons.inj hy₁
      exact absurd hn.symm (leaf_ne_sign n' opening)
    | definedGroup word' opening' n' closing' =>
      simp only [Derivation.yield, List.cons_append, List.nil_append, List.cons.injEq] at hy
      obtain ⟨hw, ho, hn, hc, hr⟩ := hy
      exact ⟨by rw [Subtype.ext (Subtype.ext hw), Subtype.ext ho, Subtype.ext hn, Subtype.ext hc], hr⟩
    | name t' =>
      obtain ⟨_, hd⟩ := eq_name_of_expr he.symm
      cases hd
    | _ => cases he

theorem derivation_unique {d d' : Derivation allowDefined .conditional} (h : d.yield = d'.yield) :
    d = d' := by
  have he : d.expr = d'.expr := by rw [← read_yield d, ← read_yield d', h]
  have hy : d.yield ++ [] = d'.yield ++ [] := by rw [h]
  exact (eq_of_expr he hy).1

/-- An expression has a value if and only if its tokens are the yield of a derivation that has it;
there is at most one derivation; and a part of it without a value leaves the whole without one. -/
theorem evaluate_follows_grammar (scope : Scope) (allowDefined : Bool) (ts : List Token) :
    (∀ v, (read allowDefined (content ts)).value scope = .ok v ↔
      ∃ d : Derivation allowDefined .conditional, d.yield = content ts ∧ d.value scope = .ok v) ∧
    (∀ w location, evaluate scope allowDefined ts location = .ok w ↔
      ∃ d : Derivation allowDefined .conditional, d.yield = content ts ∧
        ∃ v, d.value scope = .ok v ∧ settle v = .ok w) ∧
    (∀ d d' : Derivation allowDefined .conditional,
      d.yield = content ts → d'.yield = content ts → d = d') ∧
    (∀ d : Derivation allowDefined .conditional, d.yield = content ts →
      ∀ x ∈ d.parts, ∀ e, x.2.value scope = .error e →
        ∃ e', (read allowDefined (content ts)).value scope = .error e') := by
  refine ⟨fun v => value_read_eq_ok_iff, fun w location => evaluate_eq_ok_iff, ?_, ?_⟩
  · intro d d' hd hd'
    exact derivation_unique (hd.trans hd'.symm)
  · intro d hd x hx e he
    cases hv : (read allowDefined (content ts)).value scope with
    | error e' => exact ⟨e', rfl⟩
    | ok v =>
      obtain ⟨d', hd', hv'⟩ := value_read_eq_ok_iff.mp hv
      obtain rfl := derivation_unique (hd.trans hd'.symm)
      obtain ⟨u, hu⟩ := Derivation.value_of_mem_parts hv' hx
      rw [he] at hu
      cases hu

def operand (e : Derivation allowDefined .primary) : Derivation allowDefined (.level 10) :=
  .tighter (.tighter (.tighter (.tighter (.tighter (.tighter (.tighter (.tighter (.tighter
    (.tighter (.atom e))))))))))

/-- The branch that is not chosen must have a value too: `true ? 2 : x` has none without `x`. -/
theorem value_choice_undefined :
    ∃ e, (read false (content [⟨.identifier, "true", "", 1, 1⟩, ⟨.question, "?", "", 1, 6⟩,
      ⟨.number, "2", "", 1, 8⟩, ⟨.colon, ":", "", 1, 10⟩,
      ⟨.identifier, "x", "", 1, 12⟩])).value ⟨[]⟩ = .error e := by
  let name : Derivation false .primary :=
    .name ⟨⟨⟨.identifier, "x", "", 1, 12⟩, rfl⟩, by decide⟩
  exact (evaluate_follows_grammar ⟨[]⟩ false _).2.2.2
    (.choice (operand (.name ⟨⟨⟨.identifier, "true", "", 1, 1⟩, rfl⟩, by decide⟩))
      ⟨⟨.question, "?", "", 1, 6⟩, by decide⟩
      (.plain (operand (.number ⟨⟨.number, "2", "", 1, 8⟩, rfl⟩)))
      ⟨⟨.colon, ":", "", 1, 10⟩, by decide⟩ (.plain (operand name)))
    rfl ⟨_, name⟩ (by simp [Derivation.parts, operand]) (.refused (.undefined "x")) rfl

end RecordView.Expr
