import RecordView.Layout.Statement
import RecordView.Proofs.Condition.Drawing

/-! Expressions fail only of arithmetic: where every name has a value, nothing is calculated with a
value that is not there. -/
namespace RecordView

/-- A sequence fails if one of its parts does. -/
theorem bind_eq_error {ε α β : Type} {x : Except ε α} {f : α → Except ε β} {e : ε}
    (h : (x >>= f) = .error e) : x = .error e ∨ ∃ a, x = .ok a ∧ f a = .error e := by
  cases x with
  | ok a => exact .inr ⟨a, rfl, h⟩
  | error e' =>
    cases h
    exact .inl rfl

/-- The failures of a calculation with values that are there. -/
def Failure.Arithmetic (f : Failure) : Prop := f = .infiniteDividend ∨ f = .tooManyDigits

/-- A result of a calculation has a property; it may be refused, or fail of arithmetic. -/
inductive Calculates {ε α : Type} (P : α → Prop) : Except (Halt ε) α → Prop where
  | ok {a : α} (h : P a) : Calculates P (.ok a)
  | refused (e : ε) : Calculates P (.error (.refused e))
  | failed {f : Failure} (h : f.Arithmetic) : Calculates P (.error (.failed f))

namespace Calculates

variable {ε α β : Type} {P : α → Prop} {Q : β → Prop} {x : Except (Halt ε) α}

theorem bind (hx : Calculates P x) {f : α → Except (Halt ε) β} (hf : ∀ a, P a → Calculates Q (f a)) :
    Calculates Q (x >>= f) := by
  cases hx with
  | ok h => exact hf _ h
  | refused e => exact .refused e
  | failed h => exact .failed h

theorem map (hx : Calculates P x) {f : α → β} (hf : ∀ a, P a → Q (f a)) : Calculates Q (x.map f) := by
  cases hx with
  | ok h => exact .ok (hf _ h)
  | refused e => exact .refused e
  | failed h => exact .failed h

theorem ite {c : Prop} [Decidable c] {y : Except (Halt ε) α} (hx : Calculates P x)
    (hy : Calculates P y) : Calculates P (if c then x else y) := by
  split
  · exact hx
  · exact hy

/-- A result is the one that is calculated. -/
theorem self (hx : Calculates P x) : Calculates (fun a => x = .ok a) x := by
  cases hx with
  | ok => exact .ok rfl
  | refused e => exact .refused e
  | failed h => exact .failed h

theorem arithmetic (hx : Calculates P x) {f : Failure} (h : x = .error (.failed f)) : f.Arithmetic := by
  cases hx with
  | ok => cases h
  | refused => cases h
  | failed hf =>
    cases h
    exact hf

end Calculates

def Scope.Present (s : Scope) : Prop := ∀ e ∈ s.entries, e.2 ≠ .absent

variable {c : Constant}

theorem Scope.present_find? {s : Scope} (h : s.Present) {name : String} (hc : s.find? name = some c) :
    c ≠ .absent := by
  obtain ⟨before, after, hentries, -⟩ := List.lookup_eq_some_iff.mp hc
  exact h (name, c) (by rw [hentries]; simp)

theorem Scope.present_shadowing {k l : Scope} (hk : k.Present) (hl : l.Present) :
    Scope.Present (k.shadowing l) := by
  intro e he
  rcases List.mem_append.mp he with he | he
  · exact hk e he
  · exact hl e (List.mem_filter.mp he).1

theorem Scope.present_set {k : Scope} (hk : k.Present) (name : String) (hc : c ≠ .absent) :
    Scope.Present (k.set name c) := by
  intro e he
  unfold Keyed.set at he
  split at he
  · obtain ⟨e', he', rfl⟩ := List.mem_map.mp he
    split
    · exact hc
    · exact hk e' he'
  · rcases List.mem_append.mp he with he | he
    · exact hk e he
    · obtain rfl := List.mem_singleton.mp he
      exact hc

theorem Settings.flags_present (s : Settings) : s.flags.Present := by
  refine Scope.present_set (Scope.present_set (Scope.present_set ?_ _ ?_) _ ?_) _ ?_
  · intro e he
    cases he
  all_goals
    intro h
    cases h

/-! ## Values -/

namespace Constant

variable {ε : Type} {c : Constant}

theorem calculates_decimal (n : Int) :
    Calculates (ε := ε) (fun _ => True) (Failure.raise (decimal n)) := by
  unfold decimal
  split
  · exact .ok trivial
  · exact .failed (.inr rfl)

theorem calculates_number (h : c ≠ .absent) : Calculates (fun _ => True) c.number := by
  cases c with
  | int n => exact .ok trivial
  | real x => exact .ok trivial
  | bool b => exact .ok trivial
  | text s =>
    rw [number]
    split
    · exact .ok trivial
    · split
      · exact .ok trivial
      · exact .refused _
  | absent => exact absurd rfl h

theorem calculates_inText (c : Constant) :
    Calculates (ε := ε) (fun _ => True) (Failure.raise c.inText) := by
  cases c with
  | int n => exact calculates_decimal n
  | real x =>
    rw [inText]
    split
    · exact calculates_decimal _
    · exact .ok trivial
  | text s => exact .ok trivial
  | bool b => exact .ok trivial
  | absent => exact .ok trivial

theorem calculates_shown (c : Constant) :
    Calculates (ε := ε) (fun _ => True) (Failure.raise c.shown) := by
  cases c with
  | int n => exact calculates_decimal n
  | real x => exact .ok trivial
  | text s => exact .ok trivial
  | bool b => exact .ok trivial
  | absent => exact .ok trivial

theorem ofNumber_ne_absent (n : Number) : ofNumber n ≠ .absent := by
  cases n with
  | int n => exact fun h => by cases h
  | real x => exact fun h => by cases h

theorem literal?_ne_absent {written : String} (h : literal? written = some c) : c ≠ .absent := by
  rintro rfl
  have based (b : Nat) (ds : List Char) :
      (Text.numeral? b ds).map (fun n => Constant.int n) ≠ some .absent := by
    cases Text.numeral? b ds <;> simp
  unfold literal? at h
  dsimp only at h
  split at h
  · exact based _ _ h
  · exact based _ _ h
  · exact based _ _ h
  · exact based _ _ h
  · exact based _ _ h
  · exact based _ _ h
  · split at h
    · cases hu : Decimal.unsigned? false (written.toList.filter (· != '_')) with
      | none =>
        rw [hu] at h
        cases h
      | some x =>
        rw [hu] at h
        cases h
    · split at h
      · exact based _ _ h
      · cases h

end Constant

/-! ## Operators -/

theorem UnaryOp.calculates_apply (op : UnaryOp) (h : c ≠ .absent) :
    Calculates (· ≠ .absent) (op.apply c) := by
  have hnumber := Constant.calculates_number h
  cases op with
  | plus => exact hnumber.map fun n _ => Constant.ofNumber_ne_absent n
  | minus => exact hnumber.map fun n _ => Constant.ofNumber_ne_absent n.neg
  | complement => exact hnumber.map fun n _ => Constant.ofNumber_ne_absent n.complement
  | not => exact .ok fun h => by cases h

namespace BinaryOp

variable {a b : Constant}

theorem calculates_finite (n : Option Number) : Calculates (· ≠ .absent) (finite n) := by
  cases n with
  | none => exact .refused _
  | some n => exact .ok (Constant.ofNumber_ne_absent n)

theorem calculates_leftFirst (ha : a ≠ .absent) (hb : b ≠ .absent) :
    Calculates (fun _ => True) (leftFirst a b) :=
  (Constant.calculates_number ha).bind fun _ _ =>
    (Constant.calculates_number hb).bind fun _ _ => .ok trivial

theorem calculates_rightFirst (ha : a ≠ .absent) (hb : b ≠ .absent) :
    Calculates (fun _ => True) (rightFirst a b) :=
  (Constant.calculates_number hb).bind fun _ _ =>
    (Constant.calculates_number ha).bind fun _ _ => .ok trivial

theorem calculates_order? (ha : a ≠ .absent) (hb : b ≠ .absent) :
    Calculates (fun _ => True) (order? a b) := by
  unfold order?
  split
  · exact .ok trivial
  · exact (Constant.calculates_number ha).bind fun _ _ =>
      (Constant.calculates_number hb).bind fun _ _ => .ok trivial

theorem calculates_sum (ha : a ≠ .absent) (hb : b ≠ .absent) :
    Calculates (· ≠ .absent) (sum a b) := by
  unfold sum
  split
  · exact (Constant.calculates_inText b).bind fun _ _ => .ok fun h => by cases h
  · exact (Constant.calculates_inText a).bind fun _ _ => .ok fun h => by cases h
  · exact (calculates_leftFirst ha hb).bind fun _ _ => calculates_finite _

theorem calculates_remainder (x y : Number) : Calculates (· ≠ .absent) (remainder x y) := by
  unfold remainder
  split
  · exact .refused _
  · split
    · exact .ok (Constant.ofNumber_ne_absent _)
    · exact .refused _
    · exact .failed (.inl rfl)

theorem calculates_apply (op : BinaryOp) (ha : a ≠ .absent) (hb : b ≠ .absent) :
    Calculates (· ≠ .absent) (op.apply a b) := by
  have word {x : Evaluation (Number × Number)} (hx : Calculates (fun _ => True) x)
      (f : Number → Number → Number) :
      Calculates (· ≠ .absent) (x.map fun p => Constant.ofNumber (f p.1 p.2)) :=
    hx.map fun _ _ => Constant.ofNumber_ne_absent _
  have test (p : Option Ordering → Bool) :
      Calculates (· ≠ .absent) ((order? a b).map fun o => Constant.bool (p o)) :=
    (calculates_order? ha hb).map fun _ _ h => by cases h
  have either {c : Bool} {x y : Constant} (hx : x ≠ .absent) (hy : y ≠ .absent) :
      (if c then x else y) ≠ .absent := by
    cases c with
    | true => exact hx
    | false => exact hy
  have hleft := calculates_leftFirst ha hb
  have hright := calculates_rightFirst ha hb
  cases op with
  | or => exact .ok (either ha hb)
  | and => exact .ok (either hb ha)
  | bitOr => exact word hleft _
  | bitXor => exact word hleft _
  | bitAnd => exact word hleft _
  | equal => exact test _
  | unequal => exact test _
  | less => exact test _
  | lessEqual => exact test _
  | greater => exact test _
  | greaterEqual => exact test _
  | shiftLeft => exact word hright _
  | shiftRight => exact word hright _
  | shiftRightZero => exact word hright _
  | add => exact calculates_sum ha hb
  | sub => exact hleft.bind fun _ _ => calculates_finite _
  | mul => exact hright.bind fun _ _ => calculates_finite _
  | div => exact hright.bind fun _ _ => .ite (.refused _) (calculates_finite _)
  | mod => exact hright.bind fun _ _ => calculates_remainder _ _

end BinaryOp

/-! ## Expressions -/

namespace Expr

variable {scope : Scope}

theorem calculates_value (h : scope.Present) (e : Expr) :
    Calculates (· ≠ .absent) (e.value scope) := by
  induction e with
  | number written =>
    unfold value
    split
    · rename_i c hc
      exact .ok (Constant.literal?_ne_absent hc)
    · exact .refused _
  | text s => exact .ok fun h => by cases h
  | truth b => exact .ok fun h => by cases h
  | name n =>
    unfold value
    split
    · rename_i c hc
      exact .ok (Scope.present_find? h hc)
    · exact .refused _
  | defined n => exact .ok fun h => by cases h
  | group e ih => exact ih
  | unary op e ih => exact ih.bind fun c hc => op.calculates_apply hc
  | binary op l r ihl ihr => exact ihl.bind fun a ha => ihr.bind fun b hb => op.calculates_apply ha hb
  | choice c yes no ihc ihyes ihno =>
    refine ihc.bind fun c _ => ihyes.bind fun a ha => ihno.bind fun b hb => .ok ?_
    split
    · exact ha
    · exact hb
  | fault f => exact .refused _
  | broken e f ih => exact ih.bind fun _ _ => .refused _

theorem calculates_settle (h : c ≠ .absent) : Calculates (· ≠ .absent) (settle c) := by
  cases c with
  | int n => exact .ok h
  | real x => exact .ite (.ok (Constant.ofNumber_ne_absent _)) (.refused _)
  | text s => exact .ok h
  | bool b => exact .ok h
  | absent => exact .refused _

theorem calculates_located {α : Type} {P : α → Prop} {r : Evaluation α} (h : Calculates P r)
    (location : Option Location) (ts : List Token) : Calculates P (located location ts r) := by
  cases h with
  | ok h => exact .ok h
  | refused e => exact .refused _
  | failed h => exact .failed h

theorem calculates_evaluate (h : scope.Present) (allowDefined : Bool) (ts : List Token)
    (location : Option Location) :
    Calculates (· ≠ .absent) (evaluate scope allowDefined ts location) := by
  refine calculates_located (.ite (.refused _) ?_) location ts
  exact (calculates_value h _).bind fun _ hc => calculates_settle hc

theorem calculates_count (what : String) (c : Constant) : Calculates (fun _ => True) (count what c) := by
  unfold count
  split
  · refine .ite ?_ (.ite ?_ (.ok trivial))
    · exact (Constant.calculates_decimal _).bind fun _ _ => .refused _
    · exact (Constant.calculates_decimal _).bind fun _ _ => .refused _
  · exact (Constant.calculates_shown c).bind fun _ _ => .refused _

theorem calculates_evaluateCount (h : scope.Present) (allowDefined : Bool) (ts : List Token)
    (location : Option Location) (what : String) :
    Calculates (fun _ => True) (evaluateCount scope allowDefined ts location what) :=
  (calculates_evaluate h allowDefined ts location).bind fun c _ =>
    calculates_located (calculates_count what c) location ts

end Expr

/-! ## Conditions and field statements -/

namespace Frames

theorem Draws.arithmetic {flags : Scope} {sourceLine : Int → String} {fs : Frames} {ts : List Token}
    {d : Draw} (h : Draws flags sourceLine fs ts d) (hflags : flags.Present) {f : Failure}
    (hf : d.found = .error f) : f.Arithmetic := by
  induction h with
  | nil | seen => cases hf
  | eof =>
    rw [finish_found] at hf
    cases hf
  | skipped _ _ _ _ ih => exact ih hf
  | @failed _ _ _ word g _ _ hg =>
    cases hf
    cases word with
    | opening =>
      unfold Frames.line enter at hg
      dsimp only at hg
      split at hg
      · cases hg
      · split at hg
        · cases hg
        · cases hg
        · rename_i heval
          cases hg
          exact (Expr.calculates_evaluate hflags _ _ _).arithmetic heval
    | alternative => cases hg
    | closing => cases hg
    | error => cases hg
  | line _ _ _ _ ih => exact ih hf

end Frames

namespace FieldStatement

variable {f : FieldStatement} {u : Surroundings} {d : Draft} {α β : Type} {r : Resolution α}

/-- What is resolved of a statement is there, or it is refused at the name or the type, or one of the
expressions has no count. -/
inductive Resolves (f : FieldStatement) (u : Surroundings) : Resolution α → Prop where
  | ok (a : α) : Resolves f u (.ok a)
  | name (p : Problem) : Resolves f u (refuse f.name.location p)
  | type (p : Problem) : Resolves f u (refuse f.type.location p)
  | count {ts : List Token} {what : String} {e : Halt Diagnostic}
      (h : Expr.evaluateCount u.scope false ts f.name.location what = .error e) : Resolves f u (.error e)

namespace Resolves

theorem bind {g : α → Resolution β} (hr : Resolves f u r) (hg : ∀ a, Resolves f u (g a)) :
    Resolves f u (r >>= g) := by
  cases hr with
  | ok a => exact hg a
  | name p => exact .name p
  | type p => exact .type p
  | count h => exact .count h

theorem ite {c : Prop} [Decidable c] {r' : Resolution α} (hr : Resolves f u r)
    (hr' : Resolves f u r') : Resolves f u (if c then r else r') := by
  split
  · exact hr
  · exact hr'

theorem evaluateCount (ts : List Token) (what : String) :
    Resolves f u (Expr.evaluateCount u.scope false ts f.name.location what) := by
  cases h : Expr.evaluateCount u.scope false ts f.name.location what with
  | ok n => exact .ok n
  | error e => exact .count h

theorem calculates (hr : Resolves f u r) (hu : u.scope.Present) : Calculates (fun _ => True) r := by
  cases hr with
  | ok a => exact .ok trivial
  | name p => exact .refused _
  | type p => exact .refused _
  | @count ts what _ h =>
    have hcount := Expr.calculates_evaluateCount hu false ts (some f.name.location) what
    rw [h] at hcount
    cases hcount with
    | refused e => exact .refused e
    | failed hf => exact .failed hf

end Resolves

theorem resolves_number (p : Primitive) (enum : Option String) (width : Option Nat) (extent : Extent) :
    Resolves f u (f.number u d p enum width extent) := by
  cases width with
  | some bits => exact .ite (.name _) (.ite (.name _) (.ite (.name _) (.ok _)))
  | none => exact .ite (.ite (.name _) (.ite (.name _) (.ok _))) (.ok _)

theorem resolves_nested (t : TypeInfo) (width : Option Nat) (extent : Extent) :
    Resolves f u (f.nested u t width extent) :=
  .ite (.name _) (.ite (.name _) (.ite (.name _) (.ok _)))

theorem resolves_byType (width : Option Nat) (extent : Extent) :
    Resolves f u (f.byType u d width extent) := by
  refine .ite ?_ ?_
  · cases width with
    | none => exact .name _
    | some bits => exact .ite (.name _) (.ok _)
  · cases Builtin.ofName? f.type.text with
    | some b =>
      cases b with
      | boolean => exact .ite (.name _) (.ok _)
      | number p => exact resolves_number p none width extent
    | none =>
      refine .ite (.ite (.name _) (.ite (.name _) (.ok _))) ?_
      cases u.registry.find? f.type.text with
      | none => exact .type _
      | some t =>
        dsimp only
        split
        · exact resolves_number _ _ width extent
        · exact resolves_nested t width extent

theorem resolves (f : FieldStatement) (u : Surroundings) (d : Draft) : Resolves f u (f.resolve u d) := by
  have hwidth : Resolves f u (f.width? u) := by
    unfold width?
    split
    · exact .ok _
    · exact (Resolves.evaluateCount _ _).bind fun _ => .ite (.name _) (.ok _)
  have hextent : Resolves f u (f.extent u) := by
    unfold extent
    split
    · exact .ok _
    · exact .ite (.ok _) ((Resolves.evaluateCount _ _).bind fun _ => .ok _)
  unfold resolve
  split
  · exact .name _
  · exact .ite (.name _) (hwidth.bind fun width => hextent.bind fun extent => resolves_byType width extent)

end FieldStatement
end RecordView
