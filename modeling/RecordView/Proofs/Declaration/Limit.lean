import RecordView.Proofs.Declaration.Progress
import RecordView.Proofs.Declaration.Recording
import RecordView.Proofs.Declaration.Scoping

/-! The limit of errors. It is tested before each statement, each member of a body and each member of an
enum; where it is reached the reading ends, and where it is not, a few errors may follow. -/
namespace RecordView.Declaration
open Reader

variable {α β γ : Type} {env : Env} {n k : Nat} {s s' s₀ s₁ : State} {t : Token} {m : Reader α}

/-! ## Tests -/

/-- In the reading of a description from `s₀`, the limit of errors is tested in this state. -/
inductive Tests (env : Env) (s₀ : State) : State → Prop where
  | statement {s : State} (before : Runs statementRound env () s₀ () s) : Tests env s₀ s
  | member {d₀ d : Draft} {s₁ s : State} (opens : Opens env s₀ d₀ s₁)
      (body : Runs memberRound env d₀ s₁ d s) : Tests env s₀ s
  | enumerator {keyword : Token} {e₀ e : EnumDraft} {s₁ s : State}
      (opens : OpensEnum env s₀ keyword e₀ s₁) (body : Runs (enumRound keyword) env e₀ s₁ e s) :
      Tests env s₀ s

/-- Since the limit was tested and not reached, no more than `n` errors have been recorded, or one more if
that was before a statement. -/
def Within (env : Env) (s₀ : State) (n : Nat) (s : State) : Prop :=
  (∃ s₁, Runs statementRound env () s₀ () s₁ ∧ s₁.report.full = false ∧ Adds (n + 1) s₁ s) ∨
    ∃ s₁, Tests env s₀ s₁ ∧ s₁.report.full = false ∧ Adds n s₁ s

theorem Within.trans (h : Within env s₀ n s) (h' : Adds k s s') : Within env s₀ (n + k) s' := by
  rcases h with ⟨s₁, before, going, hadds⟩ | ⟨s₁, tests, going, hadds⟩
  · refine .inl ⟨s₁, before, going, ?_⟩
    rw [Nat.add_right_comm]
    exact hadds.trans h'
  · exact .inr ⟨s₁, tests, going, hadds.trans h'⟩

theorem Within.mono (h : Within env s₀ n s) (hle : n ≤ k) : Within env s₀ k s := by
  rcases h with ⟨s₁, before, going, hadds⟩ | ⟨s₁, tests, going, hadds⟩
  · exact .inl ⟨s₁, before, going, hadds.mono (Nat.add_le_add_right hle 1)⟩
  · exact .inr ⟨s₁, tests, going, hadds.mono hle⟩

/-- The loop of a body. If it ends because the limit is reached, the last round that went on was tested;
if it has no round at all, nothing is recorded. -/
theorem Limited.within {step : β → Reader (Round β (Option γ))} (hs : Limited env step) {b₀ : β}
    {r : Option γ} (tests : ∀ b s, Runs step env b₀ s₁ b s → Tests env s₀ s)
    (h₁ : Within env s₀ 1 s₁) (h : rounds step b₀ env s₁ = .ok r s') :
    Within env s₀ 1 s' ∧ ∀ c, r = some c → Within env s₀ 0 s' := by
  obtain ⟨b, s, hrun, hlast⟩ := rounds_ok h
  rcases hs _ _ _ _ hlast with ⟨-, hr, rfl⟩ | ⟨going, hadds, hsome⟩
  · cases hr
    refine ⟨?_, fun c hc => ?_⟩
    · cases hrun with
      | start => exact h₁
      | next before round _ =>
        rcases hs _ _ _ _ round with ⟨-, hr, -⟩ | ⟨going, hadds, -⟩
        · cases hr
        · exact .inr ⟨_, tests _ _ before, going, hadds⟩
    · cases hc
  · refine ⟨.inr ⟨s, tests b s hrun, going, hadds⟩, fun c hc => ?_⟩
    exact .inr ⟨s, tests b s hrun, going, hsome c (congrArg Round.done hc)⟩

/-! ## Statements -/

/-- How a statement may end: with a result one error may be recorded since the last test, or two since the
start of the statement; if it is refused, one less. -/
structure Moderate (env : Env) (s₀ : State) (m : Reader α) (s : State) : Prop where
  ok : ∀ {a s'}, m env s = .ok a s' → Within env s₀ 1 s'
  refused : ∀ {x s'}, m env s = .error (.refused x) s' → Within env s₀ 0 s'

theorem Moderate.of_along (hm : Along (Adds 0) m) (hs : Within env s₀ 0 s) : Moderate env s₀ m s :=
  ⟨fun h => (hs.trans (hm.of_ok h)).mono (Nat.zero_le 1), fun h => hs.trans (hm.of_error h)⟩

theorem Moderate.bind {f : α → Reader β} (hm : Along (Adds 0) m) (hs : Within env s₀ 0 s)
    (hf : ∀ a s', m env s = .ok a s' → Within env s₀ 0 s' → Moderate env s₀ (f a) s') :
    Moderate env s₀ (m >>= f) s := by
  constructor
  · intro b s' h
    obtain ⟨a, s₁, hfirst, hrest⟩ := bind_ok.mp h
    exact (hf a s₁ hfirst (hs.trans (hm.of_ok hfirst))).ok hrest
  · intro x s' h
    rcases bind_error.mp h with hfirst | ⟨a, s₁, hfirst, hrest⟩
    · exact hs.trans (hm.of_error hfirst)
    · exact (hf a s₁ hfirst (hs.trans (hm.of_ok hfirst))).refused hrest

/-- What is declared with a heading, a body and a closing, where the heading may be two errors. -/
theorem Moderate.declaration {step : α → β → Reader (Round β (Option γ))} {f : α → Option γ → Reader Unit}
    (first : α → β) (before : Runs statementRound env () s₀ () s) (going : s.report.full = false)
    (hs : Adds 0 s s₁) (opening : Records 2 1 m) (limited : ∀ a, Limited env (step a))
    (unrefused : ∀ a b, Unrefused (rounds (step a) b))
    (tests : ∀ a s₂ b s', m env s₁ = .ok a s₂ → Runs (step a) env (first a) s₂ b s' → Tests env s₀ s')
    (unclosed : ∀ a, Records 0 0 (f a none) ∧ Unrefused (f a none))
    (closed : ∀ a c, Records 1 0 (f a (some c))) :
    Moderate env s₀ (m >>= fun a => rounds (step a) (first a) >>= f a) s₁ := by
  have hstart {n : Nat} {s' : State} (h : Adds (n + 1) s₁ s') : Within env s₀ n s' := by
    have hadds := hs.trans h
    rw [Nat.zero_add] at hadds
    exact .inl ⟨s, before, going, hadds⟩
  constructor
  · intro u s' h
    obtain ⟨a, s₂, hopen, h⟩ := bind_ok.mp h
    obtain ⟨r, s₃, hbody, h⟩ := bind_ok.mp h
    obtain ⟨hnone, hsome⟩ := (limited a).within (fun b s' => tests a s₂ b s' hopen)
      (hstart (opening.ok hopen)) hbody
    cases r with
    | none => exact hnone.trans ((unclosed a).1.ok h)
    | some c => exact (hsome c rfl).trans ((closed a c).ok h)
  · intro x s' h
    rcases bind_error.mp h with hopen | ⟨a, s₂, hopen, h⟩
    · exact hstart (opening.refused hopen)
    rcases bind_error.mp h with hbody | ⟨r, s₃, hbody, h⟩
    · exact absurd hbody (unrefused a _ _ _ _ _)
    obtain ⟨-, hsome⟩ := (limited a).within (fun b s' => tests a s₂ b s' hopen)
      (hstart (opening.ok hopen)) hbody
    cases r with
    | none => exact absurd h ((unclosed a).2 _ _ _ _)
    | some c => exact (hsome c rfl).trans ((closed a c).refused h)

theorem moderate_aggregate {form : Form} {typedef : Bool} (before : Runs statementRound env () s₀ () s)
    (enters : Enters env s form typedef s₁) : Moderate env s₀ (aggregate form typedef) s₁ := by
  have hopening : Records 2 1 (opening form typedef) :=
    ⟨(records_opening form typedef).ok, fun h =>
      ((records_opening form typedef).refused h).mono (Nat.zero_le 1)⟩
  refine .declaration id before enters.going (enters.along takingPath_adds) hopening
    (fun _ => limited_memberRound env) (fun _ => .members) ?_ (fun _ => ⟨.of_along adds_discardClass, .modify _⟩)
    fun _ => records_closing typedef
  intro d s₂ d' s' hopen body
  exact .member ⟨s, s₁, form, typedef, before, enters, hopen⟩ body

theorem moderate_enumeration (before : Runs statementRound env () s₀ () s)
    (going : s.report.full = false) (next : peek env s = .ok t s₁) (word : t.isWord "enum" = true) :
    Moderate env s₀ enumeration s₁ := by
  have hnone : Records 0 0 (enumClosing none) ∧ Unrefused (enumClosing none) :=
    ⟨.of_along (adds_enumClosing none), .pure _⟩
  have hsome (e : EnumDraft) : Records 1 0 (enumClosing (some e)) :=
    ⟨fun h => ((adds_enumClosing (some e)).of_ok h).mono (Nat.zero_le 1),
      (adds_enumClosing (some e)).of_error⟩
  have heq : enumeration = enumOpening >>= fun x => rounds (enumRound x.1) x.2 >>= enumClosing := rfl
  rw [heq]
  refine .declaration Prod.snd before going (takingPath_adds.peek.of_ok next) records_enumOpening
    (fun x => limited_enumRound env x.1) (fun x => .enumMembers x.1) ?_ (fun _ => hnone)
    fun _ => hsome
  intro x s₂ e s' hopen body
  exact .enumerator ⟨s, t, s₁, before, going, next, word, hopen⟩ body

theorem moderate_statement (before : Runs statementRound env () s₀ () s)
    (going : s.report.full = false) (next : peek env s = .ok t s₁) :
    Moderate env s₀ statement s₁ := by
  have path := takingPath_adds
  have hs : Within env s₀ 0 s₁ := .inr ⟨s, .statement before, going, path.peek.of_ok next⟩
  refine .bind path.peek hs fun t' s₂ next' hs => ?_
  rw [peek_peek next] at next'
  cases next'
  split
  · exact .of_along (path.bind path.advance fun _ => adds_comment t) hs
  split
  · exact .of_along (path.directive adds_applySetting) hs
  split
  · exact .of_along (path.advance_bind_pure _) hs
  split
  · next word => exact moderate_aggregate before (.declaration going next word (by decide))
  split
  · next word => exact moderate_aggregate before (.declaration going next word (by decide))
  split
  · next word => exact moderate_enumeration before going next word
  split
  · next word =>
    refine .bind path.advance hs fun u s₂ taken hs₂ => .bind path.peek hs₂ fun v s₃ second hs₃ => ?_
    split
    · next target =>
      exact moderate_aggregate before (.typedef going next word taken second target (by decide))
    split
    · next target =>
      exact moderate_aggregate before (.typedef going next word taken second target (by decide))
    · exact .of_along (path.throw _) hs₃
  split
  · exact .of_along (path.throw _) hs
  · exact .of_along (path.throw _) hs

/-- After each statement no more than one error has been recorded since the last test, or two since the
start of the statement. -/
theorem within_statementRound (before : Runs statementRound env () s₀ () s)
    (round : statementRound () env s = .ok (.again ()) s') : Within env s₀ 1 s' := by
  cases turn_of_statementRound round with
  | statement going next _ read =>
    have hstatement := moderate_statement before going next
    rcases attempt_ok read with hok | ⟨-, x, s₃, herror, hsync⟩
    · exact hstatement.ok hok
    · exact (hstatement.refused herror).trans (adds_recovered hsync)

/-! ## The whole description -/

theorem statementRound_done {u : Unit} (h : statementRound () env s = .ok (.done u) s') :
    (s.report.full = true ∧ s' = s) ∨ (s.report.full = false ∧ Adds 0 s s') := by
  cases turn_of_statementRound h with
  | full full => exact .inl ⟨full, rfl⟩
  | ended going next => exact .inr ⟨going, takingPath_adds.peek.of_ok next⟩

/-- At the end of a reading no more than one error has been recorded since the last test at which the limit
was not reached, or two if that was before a statement. -/
theorem within_read (h₀ : s₀.report.full = false) (hnone : (read env s₀).2 = none) :
    Within env s₀ 1 (read env s₀).1 := by
  obtain ⟨u, s, hrun, hlast⟩ := rounds_ok (description_of_unfailed hnone)
  rcases statementRound_done hlast with ⟨hfull, heq⟩ | ⟨going, hadds⟩
  · rw [heq]
    cases hrun with
    | start =>
      rw [h₀] at hfull
      cases hfull
    | next before round _ => exact within_statementRound before round
  · exact .inr ⟨s, .statement hrun, going, hadds.mono (Nat.zero_le 1)⟩

/-- A statement that gives a result in a reading that does not fail is followed by the next one. -/
theorem runs_statement (before : Runs statementRound env () s₀ () s) (hnone : (read env s₀).2 = none)
    (going : s.report.full = false) (next : peek env s = .ok t s₁) (hkind : t.kind ≠ .eof)
    (h : statement env s₁ = .ok () s') : Runs statementRound env () s₀ () s' := by
  have hattempt : attempt t s₁.taken false () statement env s₁ = .ok () s' := by
    rw [attempt, tryCatch_apply, h]
  have round : statementRound () env s = .ok (.again ()) s' := by
    rw [statementRound_attempt going next hkind, bind_apply, hattempt]
    rfl
  refine before.next round ?_
  by_contra hleft
  rw [read_eq_of_runs before, read, description, rounds, round] at hnone
  dsimp only at hnone
  rw [if_neg hleft] at hnone
  cases hnone

/-- Where the limit is reached when it is tested, nothing more is recorded. -/
theorem Tests.report_eq (h : Tests env s₀ s) (hfull : s.report.full = true)
    (hnone : (read env s₀).2 = none) : (read env s₀).1.report = s.report := by
  -- the statement that is being read ends in a state with this report, and then the reading ends
  have hlast {s' : State} (before : Runs statementRound env () s₀ () s') (hs : s'.report = s.report) :
      (read env s₀).1.report = s.report := by
    have hround : statementRound () env s' = .ok (.done ()) s' := by
      rw [statementRound, get_bind_apply, hs, if_pos hfull]
      rfl
    rw [read_eq_of_runs before, read, description, rounds, hround]
    exact hs
  cases h with
  | statement before => exact hlast before rfl
  | @member d₀ d s₄ _ opens body =>
    obtain ⟨s₁, s₂, form, typedef, before, enters, hopen⟩ := opens
    obtain ⟨t, s₃, next⟩ := enters.exists_next
    have hbody : members d₀ env s₄ = .ok none s := by
      have hround : memberRound d env s = .ok (.done none) s := by
        rw [memberRound, get_bind_apply, if_pos hfull]
        rfl
      have hrest : members d₀ env s₄ = members d env s := body.rounds_eq
      rw [hrest, members, rounds, hround]
    have hstatement : Reader.statement env s₃ = .ok () { s with script := s.script.discardClass } := by
      rw [enters.statement_eq next, aggregate, bind_apply, hopen]
      dsimp only
      rw [bind_apply, hbody]
      rfl
    have hkind : t.kind ≠ .eof := enters.kind_ne next
    exact hlast (runs_statement before hnone enters.going next hkind hstatement) rfl
  | @enumerator keyword e₀ e s₄ _ opens body =>
    obtain ⟨s₁, t, s₃, before, going, next, word, hopen⟩ := opens
    have hbody : enumMembers keyword e₀ env s₄ = .ok none s := by
      have hround : enumRound keyword e env s = .ok (.done none) s := by
        rw [enumRound, get_bind_apply, if_pos hfull]
        rfl
      have hrest : enumMembers keyword e₀ env s₄ = enumMembers keyword e env s := body.rounds_eq
      rw [hrest, enumMembers, rounds, hround]
    have hstatement : Reader.statement env s₃ = .ok () s := by
      rw [statement_eq_enumeration next word, enumeration, bind_apply, hopen]
      change (enumMembers keyword e₀ >>= enumClosing) env s₄ = _
      rw [bind_apply, hbody]
      rfl
    have hkind : t.kind ≠ .eof := by
      rw [kind_of_isWord word]
      decide
    exact hlast (runs_statement before hnone going next hkind hstatement) rfl

theorem Tests.advances (h : Tests env s₀ s) : Advances s₀ s := by
  have hruns {s₁ : State} (before : Runs statementRound env () s₀ () s₁) : Advances s₀ s₁ :=
    Advancing.runs (fun _ => .statementRound) before
  cases h with
  | statement before => exact hruns before
  | member opens body =>
    obtain ⟨s₁, s₂, form, typedef, before, enters, hopen⟩ := opens
    obtain ⟨t, s₃, next⟩ := enters.exists_next
    have hopened := (Between.taken_lt enters next hopen).1
    exact ((hruns before).trans hopened).trans (Advancing.runs Between.advancing_memberRound body)
  | enumerator opens body =>
    obtain ⟨s₁, t, s₃, before, going, next, word, hopen⟩ := opens
    have hopened := (Advancing.peek.of_ok next).trans (Takes.enumOpening.adv.of_ok hopen)
    exact ((hruns before).trans hopened).trans (Advancing.runs (.enumRound _) body)

end RecordView.Declaration
