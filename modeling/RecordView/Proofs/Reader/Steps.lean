import RecordView.Declaration.Description
import RecordView.Proofs.Settings

/-! What a reading does to its state: what it keeps, and which rounds its loops run through. -/
namespace RecordView.Declaration.Reader

variable {α β γ δ : Type} {env : Env} {s s' s₀ : State} {π : State → γ} {m : Reader α} {a : α}
  {e : Halt Diagnostic} {f : α → Reader β} {b b₀ : β} {step : β → Reader (Round β α)}

def after (m : Reader α) (env : Env) (s : State) : State :=
  match m env s with
  | .ok _ s' => s'
  | .error _ s' => s'

theorem after_of_ok (h : m env s = .ok a s') : after m env s = s' := by
  simp only [after, h]

theorem after_of_error (h : m env s = .error e s') : after m env s = s' := by
  simp only [after, h]

theorem after_congr {m' : Reader α} (h : m env s = m' env s') : after m env s = after m' env s' := by
  simp only [after, h]

/-! ## Sequences -/

theorem bind_apply (m : Reader α) (f : α → Reader β) (env : Env) (s : State) :
    (m >>= f) env s =
      match m env s with
      | .ok a s₁ => f a env s₁
      | .error e s₁ => .error e s₁ := by
  simp only [bind, ReaderT.bind, EStateM.bind]
  cases m env s <;> rfl

theorem get_bind_apply (f : State → Reader α) (env : Env) (s : State) :
    (get >>= f) env s = f s env s := rfl

/-- A setting that is refused leaves the state as it was. -/
theorem applySetting_eq (name value : String) : applySetting name value = (do
    let s ← get
    if name = "inject" then set { s with script := s.script.verbatim value }
    else
      match s.settings.apply name value s.declared with
      | .ok settings => set { s with settings }
      | .error r => throw (.refused ⟨.setting r, none, none⟩)) := by
  funext env s
  rw [applySetting, get_bind_apply, get_bind_apply]
  split
  · rfl
  · rw [Settings.change_eq]
    cases s.settings.apply name value s.declared <;> rfl

theorem bind_ok : (m >>= f) env s = .ok b s' ↔ ∃ a s₁, m env s = .ok a s₁ ∧ f a env s₁ = .ok b s' := by
  rw [bind_apply]
  cases m env s with
  | ok a s₁ =>
    constructor
    · intro h
      exact ⟨a, s₁, rfl, h⟩
    · rintro ⟨_, _, ⟨⟩, h⟩
      exact h
  | error e s₁ => simp

theorem bind_error :
    (m >>= f) env s = .error e s' ↔
      m env s = .error e s' ∨ ∃ a s₁, m env s = .ok a s₁ ∧ f a env s₁ = .error e s' := by
  rw [bind_apply]
  cases m env s with
  | ok a s₁ =>
    constructor
    · intro h
      exact .inr ⟨a, s₁, rfl, h⟩
    · rintro (h | ⟨_, _, ⟨⟩, h⟩)
      · cases h
      · exact h
  | error e s₁ => simp

theorem after_bind_ok (h : m env s = .ok a s') : after (m >>= f) env s = after (f a) env s' := by
  simp only [after, bind_apply, h]

theorem after_bind_error (h : m env s = .error e s') : after (m >>= f) env s = s' := by
  simp only [after, bind_apply, h]

theorem after_get_bind (f : State → Reader α) (env : Env) (s : State) :
    after (get >>= f) env s = after (f s) env s := rfl

theorem after_bind_pure (m : Reader α) (f : α → β) (env : Env) (s : State) :
    after (m >>= fun a => pure (f a)) env s = after m env s := by
  cases h : m env s with
  | ok a s₁ =>
    rw [after_bind_ok h, after_of_ok h]
    rfl
  | error e s₁ => rw [after_bind_error h, after_of_error h]

theorem tryCatch_apply (m : Reader α) (f : Halt Diagnostic → Reader α) (env : Env) (s : State) :
    tryCatch m f env s =
      match m env s with
      | .ok a s₁ => .ok a s₁
      | .error e s₁ => f e env s₁ := by
  have h : tryCatch m f env s = EStateM.tryCatch (m env) (fun e => f e env) s := rfl
  rw [h]
  delta EStateM.tryCatch
  cases m env s <;> rfl

/-! ## Loops -/

/-- The rounds that a loop runs through before its last one: from where it starts, each goes on and
takes a token. -/
inductive Runs (step : β → Reader (Round β α)) (env : Env) (b₀ : β) (s₀ : State) :
    β → State → Prop where
  | start : Runs step env b₀ s₀ b₀ s₀
  | next {b b' : β} {s s' : State} (before : Runs step env b₀ s₀ b s)
      (round : step b env s = .ok (.again b') s') (shorter : s'.left < s.left) :
      Runs step env b₀ s₀ b' s'

def again? (step : β → Reader (Round β α)) (env : Env) (b : β) (s : State) : Option (β × State) :=
  match step b env s with
  | .ok (.again b') s' => if s'.left < s.left then some (b', s') else none
  | _ => none

theorem again?_eq_some {x : β × State} (h : again? step env b s = some x) :
    step b env s = .ok (.again x.1) x.2 ∧ x.2.left < s.left := by
  unfold again? at h
  split at h
  · rename_i round
    split at h
    · rename_i shorter
      cases h
      exact ⟨round, shorter⟩
    · cases h
  · cases h

def lastRound : EStateM.Result (Halt Diagnostic) State (Round β α) →
    EStateM.Result (Halt Diagnostic) State α
  | .ok (.done a) s => .ok a s
  | .ok (.again _) s => .error (.failed .stalled) s
  | .error e s => .error e s

theorem Runs.trans {b₁ b₂ : β} {s₁ s₂ : State} (h₁ : Runs step env b₀ s₀ b₁ s₁)
    (h₂ : Runs step env b₁ s₁ b₂ s₂) : Runs step env b₀ s₀ b₂ s₂ := by
  induction h₂ with
  | start => exact h₁
  | next _ round shorter ih => exact ih.next round shorter

def runs? (step : β → Reader (Round β α)) (env : Env) : Nat → β → State → Option (β × State)
  | 0, b, s => some (b, s)
  | n + 1, b, s => (again? step env b s).bind fun x => runs? step env n x.1 x.2

theorem runs_of_runs? {n : Nat} {x : β × State} (h : runs? step env n b s = some x) :
    Runs step env b s x.1 x.2 := by
  induction n generalizing b s with
  | zero =>
    cases h
    exact .start
  | succ n ih =>
    obtain ⟨y, hy, h⟩ := Option.bind_eq_some_iff.mp h
    obtain ⟨round, shorter⟩ := again?_eq_some hy
    exact (Runs.start.next round shorter).trans (ih h)

theorem runs?_succ (step : β → Reader (Round β α)) (env : Env) (n : Nat) (b : β) (s : State) :
    runs? step env (n + 1) b s = (runs? step env n b s).bind fun x => again? step env x.1 x.2 := by
  induction n generalizing b s with
  | zero => exact Option.bind_fun_some (again? step env b s)
  | succ n ih =>
    have hnext : runs? step env (n + 1) b s =
        (again? step env b s).bind fun x => runs? step env n x.1 x.2 := rfl
    have hrest : (fun x : β × State => runs? step env (n + 1) x.1 x.2) =
        fun x => (runs? step env n x.1 x.2).bind fun y => again? step env y.1 y.2 :=
      funext fun x => ih x.1 x.2
    rw [hnext, Option.bind_assoc, runs?, hrest]

/-- A loop whose rounds end can be looked at round by round. -/
theorem Runs.forall_of_runs? {P : β → State → Prop} {n : Nat} (hn : runs? step env n b₀ s₀ = none)
    (hP : ∀ m < n, ∀ x ∈ runs? step env m b₀ s₀, P x.1 x.2) (h : Runs step env b₀ s₀ b s) : P b s := by
  have hsome : ∃ m, runs? step env m b₀ s₀ = some (b, s) := by
    clear hP
    induction h with
    | start => exact ⟨0, rfl⟩
    | next _ round shorter ih =>
      obtain ⟨m, hm⟩ := ih
      refine ⟨m + 1, ?_⟩
      rw [runs?_succ, hm, Option.bind_some, again?, round]
      exact if_pos shorter
  obtain ⟨m, hm⟩ := hsome
  have hnone (k : Nat) : runs? step env (n + k) b₀ s₀ = none := by
    induction k with
    | zero => exact hn
    | succ k ih => rw [← Nat.add_assoc, runs?_succ, ih, Option.bind_none]
  have hlt : m < n := by
    rcases Nat.lt_or_ge m n with hlt | hle
    · exact hlt
    · obtain ⟨k, rfl⟩ := Nat.exists_eq_add_of_le hle
      rw [hnone k] at hm
      cases hm
  exact hP m hlt (b, s) hm

/-- Whether there are fewer than `n` rounds, and a check holds before each of them. -/
def allRounds? (step : β → Reader (Round β α)) (env : Env) (n : Nat) (b₀ : β) (s₀ : State)
    (check : β → State → Bool) : Bool :=
  (runs? step env n b₀ s₀).isNone &&
    (List.range n).all fun k => (runs? step env k b₀ s₀).all fun x => check x.1 x.2

theorem Runs.of_allRounds? {check : β → State → Bool} {n : Nat}
    (hn : allRounds? step env n b₀ s₀ check = true) (h : Runs step env b₀ s₀ b s) : check b s = true := by
  simp only [allRounds?, Bool.and_eq_true, Option.isNone_iff_eq_none, List.all_eq_true,
    List.mem_range] at hn
  refine h.forall_of_runs? (P := fun b s => check b s = true) hn.1 fun k hk x hx => ?_
  have hall := hn.2 k hk
  rwa [Option.mem_def.mp hx, Option.all_some] at hall

/-- Every loop has a last round. -/
theorem exists_lastRound (step : β → Reader (Round β α)) (env : Env) (b₀ : β) (s₀ : State) :
    ∃ b s, Runs step env b₀ s₀ b s ∧ rounds step b₀ env s₀ = lastRound (step b env s) := by
  -- along the recursion of the loop, which is on the tokens that are left
  fun_induction rounds step b₀ env s₀ with
  | case1 b s e s' h => exact ⟨b, s, .start, by rw [h]; rfl⟩
  | case2 b s a s' h => exact ⟨b, s, .start, by rw [h]; rfl⟩
  | case3 b s b' s' h shorter ih =>
    obtain ⟨b₁, s₁, hr, he⟩ := ih
    exact ⟨b₁, s₁, (Runs.start.next h shorter).trans hr, he⟩
  | case4 b s b' s' h _ => exact ⟨b, s, .start, by rw [h]; rfl⟩

/-- A loop can be taken up at any of its rounds. -/
theorem Runs.rounds_eq (h : Runs step env b₀ s₀ b s) : rounds step b₀ env s₀ = rounds step b env s := by
  induction h with
  | start => rfl
  | @next b b' s s' _ round shorter ih =>
    rw [ih, rounds, round]
    exact if_pos shorter

/-- A loop that ends well goes on after each of its rounds. -/
theorem Runs.resume {b' : β} {t : State} (h : Runs step env b₀ s₀ b s)
    (round : step b env s = .ok (.again b') s') (hall : rounds step b₀ env s₀ = .ok a t) :
    rounds step b' env s' = .ok a t := by
  rw [h.rounds_eq, rounds, round] at hall
  dsimp only at hall
  split at hall
  · exact hall
  · cases hall

theorem rounds_ok (h : rounds step b₀ env s₀ = .ok a s') :
    ∃ b s, Runs step env b₀ s₀ b s ∧ step b env s = .ok (.done a) s' := by
  obtain ⟨b, s, hr, he⟩ := exists_lastRound step env b₀ s₀
  refine ⟨b, s, hr, ?_⟩
  rw [he] at h
  cases hb : step b env s with
  | error e s₁ =>
    rw [hb] at h
    cases h
  | ok r s₁ =>
    rw [hb] at h
    cases r with
    | again b' => cases h
    | done a' =>
      cases h
      rfl

/-- A loop leaves the state that its last round leaves. -/
theorem exists_after_rounds (step : β → Reader (Round β α)) (env : Env) (b₀ : β) (s₀ : State) :
    ∃ b s, Runs step env b₀ s₀ b s ∧ after (rounds step b₀) env s₀ = after (step b) env s := by
  obtain ⟨b, s, hr, he⟩ := exists_lastRound step env b₀ s₀
  refine ⟨b, s, hr, ?_⟩
  simp only [after, he]
  cases step b env s with
  | ok r s₁ => cases r <;> rfl
  | error e s₁ => rfl

/-! ## Where a reading leads -/

/-- A relation between states that readings one after another have if each has it. -/
structure IsPath (R : State → State → Prop) : Prop where
  refl : ∀ s, R s s
  trans : ∀ {s₁ s₂ s₃}, R s₁ s₂ → R s₂ s₃ → R s₁ s₃

/-- After a reading, its result decides how it goes on. -/
theorem IsPath.after_bind {R : State → State → Prop} (hR : IsPath R) (hm : R s (after m env s))
    (hf : ∀ a s₁, m env s = .ok a s₁ → R s₁ (after (f a) env s₁)) : R s (after (m >>= f) env s) := by
  cases h : m env s with
  | ok a s₁ =>
    rw [after_of_ok h] at hm
    rw [after_bind_ok h]
    exact hR.trans hm (hf a s₁ h)
  | error e s₁ =>
    rw [after_of_error h] at hm
    rwa [after_bind_error h]

/-- However a reading ends, its end is related to its start. -/
def Along (R : State → State → Prop) (m : Reader α) : Prop := ∀ env s, R s (after m env s)

namespace Along

variable {R : State → State → Prop}

theorem of_ok (hm : Along R m) (h : m env s = .ok a s') : R s s' := by
  rw [← after_of_ok h]
  exact hm env s

theorem of_error (hm : Along R m) (h : m env s = .error e s') : R s s' := by
  rw [← after_of_error h]
  exact hm env s

theorem bind (hR : IsPath R) (hm : Along R m) (hf : ∀ a, Along R (f a)) : Along R (m >>= f) :=
  fun env s => hR.after_bind (hm env s) fun a s₁ _ => hf a env s₁

theorem tryCatch {f : Halt Diagnostic → Reader α} (hR : IsPath R) (hm : Along R m) (hf : ∀ e, Along R (f e)) :
    Along R (tryCatch m f) := by
  intro env s
  cases h : m env s with
  | ok a s₁ =>
    rw [after_of_ok (by rw [tryCatch_apply, h])]
    exact hm.of_ok h
  | error e s₁ =>
    have h' : after (MonadExcept.tryCatch m f) env s = after (f e) env s₁ := by
      simp only [after, tryCatch_apply, h]
    rw [h']
    exact hR.trans (hm.of_error h) (hf e env s₁)

theorem ite {c : Prop} [Decidable c] {m₁ m₂ : Reader α} (h₁ : Along R m₁) (h₂ : Along R m₂) :
    Along R (if c then m₁ else m₂) := by
  split
  · exact h₁
  · exact h₂

theorem get_bind {f : State → Reader α} (h : ∀ env s, R s (after (f s) env s)) : Along R (get >>= f) := h

theorem runs (hR : IsPath R) (hs : ∀ b, Along R (step b)) (h : Runs step env b₀ s₀ b s) : R s₀ s := by
  induction h with
  | start => exact hR.refl _
  | next _ round _ ih => exact hR.trans ih ((hs _).of_ok round)

theorem rounds (hR : IsPath R) (hs : ∀ b, Along R (step b)) (b : β) : Along R (rounds step b) := by
  intro env s
  obtain ⟨b₁, s₁, hr, he⟩ := exists_after_rounds step env b s
  rw [he]
  exact hR.trans (runs hR hs hr) (hs b₁ env s₁)

/-- What is related to the end of the first round is related to that of the loop. -/
theorem rounds_of_step (hR : IsPath R) (hs : ∀ b, Along R (step b)) (b : β) :
    R (after (step b) env s) (after (Reader.rounds step b) env s) := by
  cases h : step b env s with
  | error e s' =>
    have hrounds : Reader.rounds step b env s = .error e s' := by rw [Reader.rounds, h]
    rw [after_of_error h, after_of_error hrounds]
    exact hR.refl s'
  | ok r s' =>
    rw [after_of_ok h]
    cases r with
    | done a =>
      have hrounds : Reader.rounds step b env s = .ok a s' := by rw [Reader.rounds, h]
      rw [after_of_ok hrounds]
      exact hR.refl s'
    | again b' =>
      by_cases hleft : s'.left < s.left
      · have hrounds : Reader.rounds step b env s = Reader.rounds step b' env s' := by
          rw [Reader.rounds, h]
          exact if_pos hleft
        rw [after_congr hrounds]
        exact rounds hR hs b' env s'
      · have hrounds : Reader.rounds step b env s = .error (.failed .stalled) s' := by
          rw [Reader.rounds, h]
          exact if_neg hleft
        rw [after_of_error hrounds]
        exact hR.refl s'

end Along

/-! ## What a reading keeps -/

/-- This part of the state is the same after a reading, however it ends. -/
def Keeps (π : State → γ) (m : Reader α) : Prop := ∀ env s, π (after m env s) = π s

/-- To keep a part of the state is a path. -/
theorem isPath_keeps (π : State → γ) : IsPath fun s s' => π s' = π s where
  refl _ := rfl
  trans h₁ h₂ := h₂.trans h₁

theorem Keeps.of_ok (hm : Keeps π m) (h : m env s = .ok a s') : π s' = π s :=
  Along.of_ok (R := fun s s' => π s' = π s) hm h

theorem Keeps.of_error (hm : Keeps π m) (h : m env s = .error e s') : π s' = π s :=
  Along.of_error (R := fun s s' => π s' = π s) hm h

theorem Along.of_keeps {R : State → State → Prop} (hm : Keeps π m) (hR : ∀ s s', π s' = π s → R s s') :
    Along R m :=
  fun env s => hR s _ (hm env s)

/-- What is computed from a part that is kept is kept. -/
theorem Keeps.comp (hm : Keeps π m) (f : γ → δ) : Keeps (fun s => f (π s)) m :=
  fun env s => congrArg f (hm env s)

theorem Keeps.pure (a : α) : Keeps π (pure a : Reader α) := fun _ _ => rfl

theorem Keeps.throw (e : Halt Diagnostic) : Keeps π (throw e : Reader α) := fun _ _ => rfl

protected theorem Keeps.get : Keeps π (get : Reader State) := fun _ _ => rfl

theorem Keeps.read : Keeps π (MonadReader.read : Reader Env) := fun _ _ => rfl

theorem Keeps.modify {f : State → State} (h : ∀ s, π (f s) = π s) :
    Keeps π (modify f : Reader PUnit) := fun _ s => h s

theorem Keeps.bind (hm : Keeps π m) (hf : ∀ a, Keeps π (f a)) : Keeps π (m >>= f) :=
  Along.bind (isPath_keeps π) hm hf

/-- A reading that looks at the state may set it to one that it has computed from it. -/
theorem Keeps.get_bind {f : State → Reader α} (h : ∀ env s, π (after (f s) env s) = π s) :
    Keeps π (get >>= f) := h

theorem Keeps.ite {c : Prop} [Decidable c] {m₁ m₂ : Reader α} (h₁ : Keeps π m₁)
    (h₂ : Keeps π m₂) : Keeps π (if c then m₁ else m₂) :=
  Along.ite (R := fun s s' => π s' = π s) h₁ h₂

theorem Keeps.forM_of_mem {f : α → Reader PUnit} {as : List α} (hf : ∀ a ∈ as, Keeps π (f a)) :
    Keeps π (as.forM f) := by
  induction as with
  | nil => exact .pure _
  | cons a as ih =>
    exact .bind (hf a List.mem_cons_self) fun _ => ih fun b hb => hf b (List.mem_cons_of_mem a hb)

theorem Keeps.forM {f : α → Reader PUnit} (hf : ∀ a, Keeps π (f a)) (as : List α) :
    Keeps π (as.forM f) := .forM_of_mem fun a _ => hf a

theorem Runs.keeps (hs : ∀ b, Keeps π (step b)) (h : Runs step env b₀ s₀ b s) : π s = π s₀ :=
  Along.runs (isPath_keeps π) hs h

end RecordView.Declaration.Reader
