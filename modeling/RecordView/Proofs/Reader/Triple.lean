import RecordView.Proofs.Reader.Steps

/-! What a reading needs and what it ensures, whether it gives a result, is refused or fails. -/
namespace RecordView.Declaration.Reader

variable {α β : Type} {env : Env} {P P' : State → Prop} {Q Q' : α → State → Prop}
  {R R' : Diagnostic → State → Prop} {F : Failure → State → Prop} {m : Reader α}

def Expected (Q : α → State → Prop) (R : Diagnostic → State → Prop)
    (F : Failure → State → Prop) : EStateM.Result (Halt Diagnostic) State α → Prop
  | .ok a s => Q a s
  | .error (.refused d) s => R d s
  | .error (.failed f) s => F f s

/-- From the states with `P`, a reading gives results with `Q`, is refused in states with `R`, and
fails only as `F` tells. -/
def Triple (env : Env) (P : State → Prop) (m : Reader α) (Q : α → State → Prop)
    (R : Diagnostic → State → Prop) (F : Failure → State → Prop) : Prop :=
  ∀ s, P s → Expected Q R F (m env s)

/-- What a round goes on with has `p`, and what it ends with has `q`. -/
def Round.Satisfies (p : β → Prop) (q : α → Prop) : Round β α → Prop
  | .again b => p b
  | .done a => q a

namespace Triple

theorem imp (h : Triple env P m Q R F) (hP : ∀ s, P' s → P s) (hQ : ∀ a s, Q a s → Q' a s)
    (hR : ∀ d s, R d s → R' d s) : Triple env P' m Q' R' F := by
  intro s hs
  have hm := h s (hP s hs)
  cases hend : m env s with
  | ok a s' =>
    rw [hend] at hm
    exact hQ a s' hm
  | error e s' =>
    rw [hend] at hm
    cases e with
    | refused d => exact hR d s' hm
    | failed f => exact hm

theorem of_ok (h : Triple env P m Q R F) {s s' : State} {a : α} (hs : P s) (hm : m env s = .ok a s') :
    Q a s' := by
  have hend := h s hs
  rwa [hm] at hend

theorem of_failed (h : Triple env P m Q R F) {s s' : State} {f : Failure} (hs : P s)
    (hm : m env s = .error (.failed f) s') : F f s' := by
  have hend := h s hs
  rwa [hm] at hend

theorem pure {a : α} (h : ∀ s, P s → Q a s) : Triple env P (pure a : Reader α) Q R F := fun s => h s

theorem refuse {location : Location} {p : Problem} (h : ∀ s, P s → R ⟨p, some location, none⟩ s) :
    Triple env P (refuse location p : Reader α) Q R F := fun s => h s

theorem modify {f : State → State} {Q : PUnit → State → Prop} (h : ∀ s, P s → Q () (f s)) :
    Triple env P (modify f : Reader PUnit) Q R F := fun s => h s

theorem bind {f : α → Reader β} {Q' : β → State → Prop} (hm : Triple env P m Q R F)
    (hf : ∀ a, Triple env (Q a) (f a) Q' R F) : Triple env P (m >>= f) Q' R F := by
  intro s hs
  have h := hm s hs
  rw [bind_apply]
  cases hend : m env s with
  | ok a s' =>
    rw [hend] at h
    exact hf a s' h
  | error e s' =>
    rw [hend] at h
    cases e with
    | refused d => exact h
    | failed g => exact h

theorem get_bind {f : State → Reader α} (h : ∀ s, Triple env (fun s' => s' = s ∧ P s') (f s) Q R F) :
    Triple env P (get >>= f) Q R F := fun s hs => h s s ⟨rfl, hs⟩

theorem ite {c : Prop} [Decidable c] {m₁ m₂ : Reader α} (h₁ : c → Triple env P m₁ Q R F)
    (h₂ : ¬ c → Triple env P m₂ Q R F) : Triple env P (if c then m₁ else m₂) Q R F := by
  split
  · rename_i hc
    exact h₁ hc
  · rename_i hc
    exact h₂ hc

/-- A statement that goes on only if it is not refused. -/
theorem guard {c : Prop} [Decidable c] {location : Location} {p : Problem} {k : Unit → Reader α}
    (hR : c → ∀ s, P s → R ⟨p, some location, none⟩ s) (h : ¬ c → Triple env P (k ()) Q R F) :
    Triple env P (if c then Reader.refuse location p >>= k else k ()) Q R F :=
  ite (fun hc => bind (Q := fun _ _ => False) (refuse (hR hc)) fun _ _ hs => hs.elim) h

theorem tryCatch {f : Halt Diagnostic → Reader α} (hm : Triple env P m Q R' F)
    (hf : ∀ d, Triple env (R' d) (f (.refused d)) Q R F)
    (hfail : ∀ g s, F g s → Expected Q R F (f (.failed g) env s)) : Triple env P (tryCatch m f) Q R F := by
  intro s hs
  have h := hm s hs
  rw [tryCatch_apply]
  cases hend : m env s with
  | ok a s' =>
    rw [hend] at h
    exact h
  | error e s' =>
    rw [hend] at h
    cases e with
    | refused d => exact hf d s' h
    | failed g => exact hfail g s' h

theorem satisfies {I : State → Prop} {m : Reader (Round β α)} (h : Triple env P m (fun _ => I) R F) :
    Triple env P m (fun r s => r.Satisfies (fun _ => I s) fun _ => I s) R F := by
  refine h.imp (fun _ hs => hs) (fun r s hs => ?_) fun _ _ hs => hs
  cases r with
  | again b => exact hs
  | done a => exact hs

/-- What holds before each round holds before all of them. -/
theorem runs {I : β → State → Prop} {step : β → Reader (Round β α)}
    (hs : ∀ b, Triple env (I b) (step b) (fun r s => r.Satisfies (I · s) (Q · s)) R F) {b₀ b : β}
    {s₀ s : State} (h₀ : I b₀ s₀) (h : Runs step env b₀ s₀ b s) : I b s := by
  induction h with
  | start => exact h₀
  | next before round shorter ih => exact (hs _).of_ok ih round

/-- What holds before each round holds to the last one. The loop stalls only if a round goes on
without taking a token. -/
theorem rounds {I : β → State → Prop} {step : β → Reader (Round β α)}
    (hs : ∀ b, Triple env (I b) (step b) (fun r s => r.Satisfies (I · s) (Q · s)) R F)
    (hstall : ∀ b s b' s', I b s → step b env s = .ok (.again b') s' → ¬ s'.left < s.left →
      F .stalled s') (b : β) : Triple env (I b) (rounds step b) Q R F := by
  intro s
  fun_induction Reader.rounds step b env s with
  | case1 b s e s' h =>
    intro hi
    have hstep := hs b s hi
    rw [h] at hstep
    cases e with
    | refused d => exact hstep
    | failed g => exact hstep
  | case2 b s a s' h =>
    intro hi
    have hstep := hs b s hi
    rw [h] at hstep
    exact hstep
  | case3 b s b' s' h shorter ih =>
    intro hi
    have hstep := hs b s hi
    rw [h] at hstep
    exact ih hstep
  | case4 b s b' s' h hleft =>
    intro hi
    exact hstall b s b' s' hi h hleft

end Triple
end RecordView.Declaration.Reader
