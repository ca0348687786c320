import RecordView.Expression.Value
import RecordView.Proofs.Token.Coverage

/-! Streams of tokens from which comments are dropped, and what this leaves as it is. -/
namespace RecordView

/-- The second stream is the first one without some of its comments. -/
inductive Thins : List Token → List Token → Prop where
  | nil : Thins [] []
  | keep (t : Token) {ts us : List Token} (rest : Thins ts us) : Thins (t :: ts) (t :: us)
  | drop {c : Token} {ts us : List Token} (comment : c.kind = .comment) (rest : Thins ts us) :
      Thins (c :: ts) us

namespace Thins

variable {t : Token} {ts us : List Token}

protected theorem refl (ts : List Token) : Thins ts ts := by
  induction ts with
  | nil => exact .nil
  | cons t ts ih => exact .keep t ih

/-- An expression that may be left out. -/
theorem option (ts : Option (List Token)) : Option.Rel Thins ts ts := by
  cases ts with
  | none => exact .none
  | some ts => exact .some (.refl ts)

theorem append {ts' us' : List Token} (h : Thins ts us) (h' : Thins ts' us') :
    Thins (ts ++ ts') (us ++ us') := by
  induction h with
  | nil => exact h'
  | keep t _ ih => exact .keep t ih
  | drop comment _ ih => exact .drop comment ih

/-- All comments may be dropped. -/
theorem filter (ts : List Token) : Thins ts (ts.filter (·.kind ≠ .comment)) := by
  induction ts with
  | nil => exact .nil
  | cons t ts ih =>
    by_cases ht : t.kind = .comment
    · rw [List.filter_cons_of_neg (by simp [ht])]
      exact .drop ht ih
    · rw [List.filter_cons_of_pos (by simp [ht])]
      exact .keep t ih

theorem nil_inv (h : Thins [] us) : us = [] := by
  cases h
  rfl

/-- A token that is no comment stays. -/
theorem cons_inv (h : Thins (t :: ts) us) (ht : t.kind ≠ .comment) :
    ∃ us', us = t :: us' ∧ Thins ts us' := by
  cases h with
  | keep _ rest => exact ⟨_, rfl, rest⟩
  | drop comment rest => exact absurd comment ht

theorem subset (h : Thins ts us) : ∀ t ∈ us, t ∈ ts := by
  induction h with
  | nil => simp
  | keep t _ ih =>
    intro v hv
    rcases List.mem_cons.mp hv with rfl | hv
    · exact List.mem_cons_self
    · exact List.mem_cons_of_mem t (ih v hv)
  | drop _ _ ih =>
    intro v hv
    exact List.mem_cons_of_mem _ (ih v hv)

/-- Where a test that comments pass is first not met, both streams are cut. -/
theorem cut {p : Token → Bool} (hp : ∀ c : Token, c.kind = .comment → p c = true) (h : Thins ts us) :
    Thins (ts.takeWhile p) (us.takeWhile p) ∧ Thins (ts.dropWhile p) (us.dropWhile p) := by
  induction h with
  | nil => exact ⟨.nil, .nil⟩
  | keep t rest ih =>
    by_cases ht : p t = true
    · simp only [List.takeWhile_cons_of_pos ht, List.dropWhile_cons_of_pos ht]
      exact ⟨.keep t ih.1, ih.2⟩
    · simp only [List.takeWhile_cons_of_neg ht, List.dropWhile_cons_of_neg ht]
      exact ⟨.nil, .keep t rest⟩
  | drop comment _ ih =>
    simp only [List.takeWhile_cons_of_pos (hp _ comment), List.dropWhile_cons_of_pos (hp _ comment)]
    exact ⟨.drop comment ih.1, ih.2⟩

/-! ## Expressions -/

theorem content_eq (h : Thins ts us) : Expr.content ts = Expr.content us := by
  induction h with
  | nil => rfl
  | keep t _ ih =>
    simp only [Expr.content] at ih ⊢
    rw [List.filter_cons, List.filter_cons, ih]
  | drop comment _ ih =>
    simp only [Expr.content] at ih ⊢
    rw [List.filter_cons, comment, ih]
    rfl

/-- An expression has the same value, or the same error, without its comments. -/
theorem evaluate_eq (h : Thins ts us) (scope : Scope) (allowDefined : Bool)
    (location : Option Location) :
    Expr.evaluate scope allowDefined ts location = Expr.evaluate scope allowDefined us location := by
  simp only [Expr.evaluate, Expr.located, Expr.place, h.content_eq]

theorem evaluateCount_eq (h : Thins ts us) (scope : Scope) (allowDefined : Bool)
    (location : Option Location) (what : String) :
    Expr.evaluateCount scope allowDefined ts location what =
      Expr.evaluateCount scope allowDefined us location what := by
  simp only [Expr.evaluateCount, h.evaluate_eq, Expr.located, Expr.place, h.content_eq]

end Thins

namespace Token

variable {file : String} {p : Position} {mode : Mode} {cs : List Char} {ts us : List Token}

/-- No name is spelled as the count that stands for an open array. -/
def Named (ts : List Token) : Prop := ∀ t ∈ ts, t.kind = .identifier → t.text ≠ "0"

theorem Named.append (h : Named ts) (h' : Named us) : Named (ts ++ us) := by
  intro t ht
  rcases List.mem_append.mp ht with ht | ht
  · exact h t ht
  · exact h' t ht

theorem Named.cons {t : Token} (ht : t.kind = .identifier → t.text ≠ "0") (h : Named ts) :
    Named (t :: ts) := by
  intro v hv
  rcases List.mem_cons.mp hv with rfl | hv
  · exact ht
  · exact h v hv

theorem Named.nil : Named [] := fun _ ht => absurd ht List.not_mem_nil

/-- No name of a text is spelled `0`: a name starts with a letter or another mark that is no digit. -/
theorem named_of_scan {source : String} (h : scan file source = .ok ts) : Named ts := by
  intro t ht hkind hzero
  obtain ⟨before, rest, -, hlaid⟩ := laid_of_scan h
  obtain ⟨own, hcovers⟩ := hlaid.covers ht (by rw [hkind]; decide)
  have hstart := hcovers.name hkind
  rw [hzero] at hstart
  exact absurd (hstart '0' rfl) (by decide)

end Token
end RecordView
