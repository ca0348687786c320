import RecordView.Proofs.Expression.Reading

/-! What is read without a fault has a derivation; so an expression has a value if and only if its
tokens are the yield of a derivation that has it. -/
namespace RecordView.Expr
open Grammar

variable {allowDefined : Bool} {p : Phrase} {scope : Scope} {v : Constant} {k : Nat} {ts : List Token}
  {location : Option Location}

/-! ## What is read without a fault is derived -/

def Clean : Expr → Prop
  | fault _ => False
  | broken _ _ => False
  | group e => e.Clean
  | unary _ e => e.Clean
  | binary _ l r => l.Clean ∧ r.Clean
  | choice c yes no => c.Clean ∧ yes.Clean ∧ no.Clean
  | _ => True

theorem clean_of_value {e : Expr} (h : e.value scope = .ok v) : e.Clean := by
  induction e generalizing v with
  | fault f => cases h
  | broken e f ih =>
    obtain ⟨a, -, h⟩ := bind_eq_ok_iff.mp h
    cases h
  | group e ih => exact ih h
  | unary op e ih =>
    obtain ⟨a, ha, -⟩ := bind_eq_ok_iff.mp h
    exact ih ha
  | binary op l r ihl ihr =>
    obtain ⟨a, ha, h⟩ := bind_eq_ok_iff.mp h
    obtain ⟨b, hb, -⟩ := bind_eq_ok_iff.mp h
    exact ⟨ihl ha, ihr hb⟩
  | choice c yes no ihc ihy ihn =>
    obtain ⟨a, ha, h⟩ := bind_eq_ok_iff.mp h
    obtain ⟨b, hb, h⟩ := bind_eq_ok_iff.mp h
    obtain ⟨e, he, -⟩ := bind_eq_ok_iff.mp h
    exact ⟨ihc ha, ihy hb, ihn he⟩
  | number | text | truth | name | defined => trivial

theorem levelOf_length (allowDefined : Bool) (k : Nat) (ts : List Token) :
    (levelOf allowDefined k ts).2.length ≤ ts.length :=
  (readLevel allowDefined k ts).2.2

theorem choiceOf_length (allowDefined : Bool) (ts : List Token) :
    (choiceOf allowDefined ts).2.length ≤ ts.length :=
  (readChoice allowDefined ts).2.2

/-- Further operands do not mend a faulty left one. -/
theorem clean_of_moreOf {left : Expr} (h : (moreOf allowDefined k left ts).1.Clean) : left.Clean := by
  induction hn : ts.length using Nat.strongRecOn generalizing left ts with
  | ind n ih =>
    cases ts with
    | nil => rwa [moreOf_nil] at h
    | cons t r =>
      cases hop : binaryOp? (k + 1) t with
      | none => rwa [moreOf_none left r hop] at h
      | some op =>
        rw [moreOf_some left r hop] at h
        have hl := levelOf_length allowDefined k r
        rw [List.length_cons] at hn
        exact (ih _ (by omega) h rfl).1

/-- What has been read without a fault is a phrase of the given kind, and the rest follows it. -/
def Derived (allowDefined : Bool) (p : Phrase) (r : Expr × List Token) (ts : List Token) : Prop :=
  r.1.Clean → ∃ d : Derivation allowDefined p, d.expr = r.1 ∧ d.yield ++ r.2 = ts

theorem derived_moreOf
    (ih : ∀ r : List Token, r.length < ts.length →
      ∀ k, Derived allowDefined (.level k) (levelOf allowDefined k r) r)
    (left : Derivation allowDefined (.level (k + 1))) (h : (moreOf allowDefined k left.expr ts).1.Clean) :
    ∃ d : Derivation allowDefined (.level (k + 1)),
      d.expr = (moreOf allowDefined k left.expr ts).1 ∧
        d.yield ++ (moreOf allowDefined k left.expr ts).2 = left.yield ++ ts := by
  induction hn : ts.length using Nat.strongRecOn generalizing left ts with
  | ind n ihn =>
    cases ts with
    | nil => exact ⟨left, by rw [moreOf_nil], by rw [moreOf_nil]⟩
    | cons t r =>
      cases hop : binaryOp? (k + 1) t with
      | none => exact ⟨left, by rw [moreOf_none _ r hop], by rw [moreOf_none _ r hop]⟩
      | some op =>
        rw [moreOf_some _ r hop] at h ⊢
        rw [List.length_cons] at hn ih
        obtain ⟨right, hr, hy⟩ := ih r (by omega) k (clean_of_moreOf h).2
        obtain ⟨hs, hmem⟩ := binaryOp?_eq_some_iff.mp hop
        -- The left operand grows by one operator, and the tokens that follow are fewer.
        let grown : Derivation allowDefined (.level (k + 1)) := .binary ⟨op, hmem⟩ left ⟨t, hs⟩ right
        have hg : grown.expr = .binary op left.expr (levelOf allowDefined k r).1 := by rw [← hr]; rfl
        have hl := levelOf_length allowDefined k r
        rw [← hg] at h ⊢
        obtain ⟨d, hd, hdy⟩ := ihn _ (by omega) (fun q hq => ih q (by omega)) grown h rfl
        refine ⟨d, hd, ?_⟩
        calc d.yield ++ (moreOf allowDefined k grown.expr (levelOf allowDefined k r).2).2
            = grown.yield ++ (levelOf allowDefined k r).2 := hdy
          _ = left.yield ++ t :: (right.yield ++ (levelOf allowDefined k r).2) := by
            simp [grown, Derivation.yield]
          _ = left.yield ++ t :: r := by rw [hy]

theorem derived_readDefined {t : Leaf .identifier} (ht : t.1.text = "defined" ∧ allowDefined = true)
    (r : List Token) : Derived allowDefined .primary (bare (readDefined r)) (t.1 :: r) := by
  intro h
  cases r with
  | nil => exact h.elim
  | cons o r =>
    by_cases ho : o.isSymbol "(" = true
    · cases r with
      | nil => simp [readDefined, ho, bare, stop, Clean] at h
      | cons n r =>
        by_cases hn : n.kind = .identifier
        · cases r with
          | nil => simp [readDefined, ho, hn, bare, stop, Clean] at h
          | cons c r =>
            by_cases hc : c.isSymbol ")" = true
            · rw [readDefined_group ho hn hc]
              exact ⟨.definedGroup ⟨t, ht⟩ ⟨o, ho⟩ ⟨n, hn⟩ ⟨c, hc⟩, rfl, rfl⟩
            · simp [readDefined, ho, hn, hc, bare, stop, Clean] at h
        · simp [readDefined, ho, hn, bare, stop, Clean] at h
    · by_cases hk : o.kind = .identifier
      · rw [readDefined_name hk]
        exact ⟨.definedName ⟨t, ht⟩ ⟨o, hk⟩, rfl, rfl⟩
      · simp [readDefined, ho, hk, bare, stop, Clean] at h

theorem derived_primaryOf {t : Token} {r : List Token} (ht : unaryOp? t = none)
    (ih : Derived allowDefined .conditional (choiceOf allowDefined r) r) :
    Derived allowDefined .primary (primaryOf allowDefined t r) (t :: r) := by
  intro h
  rw [primaryOf_eq] at h ⊢
  cases hk : t.kind with
  | number => exact ⟨.number ⟨t, hk⟩, rfl, rfl⟩
  | string => exact ⟨.text ⟨t, hk⟩, rfl, rfl⟩
  | identifier =>
    by_cases hd : t.text = "defined" ∧ allowDefined = true
    · have hr := derived_readDefined (t := ⟨t, hk⟩) hd r
      have hne : ¬ t.text = "true" ∧ ¬ t.text = "false" := by rw [hd.1]; decide
      simp only [hk, if_neg hne.1, if_neg hne.2, if_pos hd] at h ⊢
      exact hr h
    · refine ⟨.name ⟨⟨t, hk⟩, hd⟩, ?_, ?_⟩
      · simp only [Derivation.expr, if_neg hd]
        split
        · rfl
        · split <;> rfl
      · simp only [Derivation.yield, if_neg hd]
        split
        · rfl
        · split <;> rfl
  | leftParen =>
    simp only [hk] at h
    dsimp only
    cases hc : choiceOf allowDefined r with
    | mk e q =>
      rw [hc] at h ih
      cases q with
      | nil => exact h.elim
      | cons u s =>
        by_cases hu : u.isSymbol ")" = true
        · simp only [hu, if_true] at h ⊢
          obtain ⟨d, hd, hy⟩ : ∃ d : Derivation allowDefined .conditional,
            d.expr = e ∧ d.yield ++ u :: s = r := ih h
          have ho : ∀ op : UnaryOp, t.isSymbol op.symbol = false := by
            intro op
            rw [Bool.eq_false_iff]
            intro hop
            rw [unaryOp?_eq_some_iff.mpr hop] at ht
            cases ht
          refine ⟨.group ⟨⟨t, hk⟩, ho⟩ d ⟨u, hu⟩, congrArg Expr.group hd, ?_⟩
          rw [← hy]
          simp [Derivation.yield]
        · simp only [if_neg hu] at h
          exact h.elim
  | _ => simp [hk, Clean] at h

theorem derived_unaryOf
    (ih : ∀ r : List Token, r.length < ts.length →
      Derived allowDefined .conditional (choiceOf allowDefined r) r ∧
        Derived allowDefined (.level 0) (unaryOf allowDefined r) r) :
    Derived allowDefined (.level 0) (unaryOf allowDefined ts) ts := by
  intro h
  cases ts with
  | nil =>
    rw [unaryOf_nil] at h
    exact h.elim
  | cons t r =>
    obtain ⟨ihc, ihu⟩ := ih r (by simp)
    cases hop : unaryOp? t with
    | some op =>
      rw [unaryOf_some r hop] at h ⊢
      obtain ⟨d, hd, hy⟩ := ihu h
      exact ⟨.unary op ⟨t, unaryOp?_eq_some_iff.mp hop⟩ d, congrArg (Expr.unary op) hd,
        congrArg (t :: ·) hy⟩
    | none =>
      rw [unaryOf_none r hop] at h ⊢
      obtain ⟨d, hd, hy⟩ := derived_primaryOf hop ihc h
      exact ⟨.atom d, hd, hy⟩

/-- Levels are read from the tightest on; each needs the further operands of the next. -/
theorem derived_levelOf
    (ih : ∀ r : List Token, r.length < ts.length →
      ∀ k, Derived allowDefined (.level k) (levelOf allowDefined k r) r)
    (hu : Derived allowDefined (.level 0) (unaryOf allowDefined ts) ts) (k : Nat) :
    Derived allowDefined (.level k) (levelOf allowDefined k ts) ts := by
  induction k with
  | zero => rwa [levelOf_zero]
  | succ k ihk =>
    intro h
    rw [levelOf_succ] at h ⊢
    obtain ⟨d, hd, hy⟩ := ihk (clean_of_moreOf h)
    rw [← hd] at h ⊢
    have hl := levelOf_length allowDefined k ts
    obtain ⟨e, he, hey⟩ := derived_moreOf (fun r hr => ih r (by omega)) (.tighter d) h
    exact ⟨e, he, hey.trans hy⟩

theorem derived_choiceOf
    (ih : ∀ r : List Token, r.length < ts.length →
      Derived allowDefined .conditional (choiceOf allowDefined r) r)
    (hl : Derived allowDefined (.level 10) (levelOf allowDefined 10 ts) ts) :
    Derived allowDefined .conditional (choiceOf allowDefined ts) ts := by
  intro h
  rw [choiceOf_eq] at h ⊢
  have hlen := levelOf_length allowDefined 10 ts
  cases hc : levelOf allowDefined 10 ts with
  | mk c l =>
    rw [hc] at h hl hlen
    cases l with
    | nil =>
      obtain ⟨d, hd, hy⟩ := hl h
      exact ⟨.plain d, hd, hy⟩
    | cons t r =>
      by_cases ht : t.isSymbol "?" = true
      · simp only [ht, if_true] at h ⊢
        have hr : r.length < ts.length := hlen
        have ihr := ih r hr
        have hclen := choiceOf_length allowDefined r
        cases ha : choiceOf allowDefined r with
        | mk a q =>
          rw [ha] at h ihr hclen
          cases q with
          | nil => exact h.2.2.elim
          | cons u s =>
            by_cases hu : u.isSymbol ":" = true
            · simp only [hu, if_true] at h ⊢
              have hs : s.length < ts.length := by
                simp only [List.length_cons] at hclen
                omega
              obtain ⟨dc, hdc, hyc⟩ := hl h.1
              obtain ⟨da, hda, hya⟩ := ihr h.2.1
              obtain ⟨db, hdb, hyb⟩ := ih s hs h.2.2
              refine ⟨.choice dc ⟨t, ht⟩ da ⟨u, hu⟩ db, ?_, ?_⟩
              · simp only [Derivation.expr, hdc, hda, hdb]
              · simp only [Derivation.yield, List.append_assoc, List.cons_append, hyb, ← hyc, ← hya]
            · simp only [if_neg hu] at h
              exact h.2.2.elim
      · simp only [if_neg ht] at h ⊢
        obtain ⟨d, hd, hy⟩ := hl h
        exact ⟨.plain d, hd, hy⟩

/-- Induction on the number of tokens: every part of a phrase is shorter, or tighter. -/
theorem derived (allowDefined : Bool) (ts : List Token) :
    Derived allowDefined .conditional (choiceOf allowDefined ts) ts ∧
      ∀ k, Derived allowDefined (.level k) (levelOf allowDefined k ts) ts := by
  induction hn : ts.length using Nat.strongRecOn generalizing ts with
  | ind n ih =>
    have ihc : ∀ r : List Token, r.length < ts.length →
        Derived allowDefined .conditional (choiceOf allowDefined r) r :=
      fun r hr => (ih _ (hn ▸ hr) r rfl).1
    have ihl : ∀ r : List Token, r.length < ts.length →
        ∀ k, Derived allowDefined (.level k) (levelOf allowDefined k r) r :=
      fun r hr => (ih _ (hn ▸ hr) r rfl).2
    have hu : Derived allowDefined (.level 0) (unaryOf allowDefined ts) ts :=
      derived_unaryOf fun r hr => ⟨ihc r hr, levelOf_zero allowDefined r ▸ ihl r hr 0⟩
    have hl := derived_levelOf ihl hu
    exact ⟨derived_choiceOf ihc (hl 10), hl⟩

theorem exists_derivation (h : (read allowDefined ts).Clean) :
    ∃ d : Derivation allowDefined .conditional, d.yield = ts := by
  rw [read_eq] at h
  have hd := (derived allowDefined ts).1
  cases hc : choiceOf allowDefined ts with
  | mk e q =>
    rw [hc] at h hd
    cases q with
    | nil =>
      obtain ⟨d, -, hy⟩ := hd h
      exact ⟨d, by simpa using hy⟩
    | cons t r => exact h.elim

/-- The value of what is read, where there is one, is the value of the derivation. -/
theorem value_read_eq_ok_iff :
    (read allowDefined ts).value scope = .ok v ↔
      ∃ d : Derivation allowDefined .conditional, d.yield = ts ∧ d.value scope = .ok v := by
  constructor
  · intro h
    obtain ⟨d, rfl⟩ := exists_derivation (clean_of_value h)
    exact ⟨d, rfl, by rwa [read_yield, Derivation.value_expr] at h⟩
  · rintro ⟨d, rfl, h⟩
    rwa [read_yield, Derivation.value_expr]

theorem yield_ne_nil (d : Derivation allowDefined p) : d.yield ≠ [] := by
  induction d with
  | plain e ih | tighter e ih | atom e ih => exact ih
  | _ => simp [Derivation.yield]

theorem located_eq_ok_iff {α : Type} {r : Evaluation α} {a : α} :
    located location ts r = .ok a ↔ r = .ok a := by
  constructor
  · intro h
    cases r with
    | ok b =>
      cases h
      rfl
    | error e => cases h
  · rintro rfl
    rfl

/-- The expression that some tokens spell has a result if and only if the value of a derivation of
its tokens settles to it. -/
theorem evaluate_eq_ok_iff {w : Constant} :
    evaluate scope allowDefined ts location = .ok w ↔
      ∃ d : Derivation allowDefined .conditional, d.yield = content ts ∧
        ∃ v, d.value scope = .ok v ∧ settle v = .ok w := by
  unfold evaluate
  rw [located_eq_ok_iff]
  constructor
  · intro h
    split at h
    · cases h
    · obtain ⟨v, hv, hw⟩ := bind_eq_ok_iff.mp h
      obtain ⟨d, hd, hv⟩ := value_read_eq_ok_iff.mp hv
      exact ⟨d, hd, v, hv, hw⟩
  · rintro ⟨d, hd, v, hv, hw⟩
    have hne : (content ts).isEmpty ≠ true := by
      rw [← hd, Ne, List.isEmpty_iff]
      exact yield_ne_nil d
    rw [if_neg hne]
    exact bind_eq_ok_iff.mpr ⟨v, value_read_eq_ok_iff.mpr ⟨d, hd, hv⟩, hw⟩

theorem exists_tighter (scope : Scope) (d : Derivation allowDefined (.level k)) (j : Nat) :
    ∃ e : Derivation allowDefined (.level (k + j)), e.yield = d.yield ∧ e.value scope = d.value scope := by
  induction j with
  | zero => exact ⟨d, rfl, rfl⟩
  | succ j ih =>
    obtain ⟨e, he⟩ := ih
    exact ⟨.tighter e, he⟩

/-- What has a value on some level has it as a whole expression. -/
theorem evaluate_of_level {w : Constant} (hk : k ≤ 10) (d : Derivation allowDefined (.level k))
    (hyield : d.yield = content ts) (hvalue : d.value scope = .ok v) (hsettle : settle v = .ok w) :
    evaluate scope allowDefined ts location = .ok w := by
  have hlevel := exists_tighter scope d (10 - k)
  rw [Nat.add_sub_cancel' hk] at hlevel
  obtain ⟨e, heyield, hevalue⟩ := hlevel
  exact evaluate_eq_ok_iff.mpr ⟨.plain e, heyield.trans hyield, v, hevalue.trans hvalue, hsettle⟩

end RecordView.Expr
