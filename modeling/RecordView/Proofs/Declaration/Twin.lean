import RecordView.Proofs.Reader.Twin

/-! Two readings of declarations side by side: from directives and members to a whole description. -/
namespace RecordView.Declaration
open Reader

variable {u₁ u₂ : Settings}

namespace Twin

variable {T : Twin} {s₁ s₂ : State} {d₁ d₂ d₁' d₂' : Draft}

/-! ## Comments and directives -/

/-- Two results that look the same are both values, or the same error. -/
theorem cases_of_map_eq {ε α γ : Type} {v : α → γ} {x₁ x₂ : Except ε α} (h : x₁.map v = x₂.map v) :
    (∃ a₁ a₂, x₁ = .ok a₁ ∧ x₂ = .ok a₂ ∧ v a₁ = v a₂) ∨ ∃ e, x₁ = .error e ∧ x₂ = .error e := by
  cases x₁ with
  | ok a₁ =>
    cases x₂ with
    | ok a₂ => exact .inl ⟨a₁, a₂, rfl, rfl, Except.ok.inj h⟩
    | error e => cases h
  | error e =>
    cases x₂ with
    | ok a₂ => cases h
    | error e' =>
      cases h
      exact .inr ⟨e, rfl, rfl⟩

theorem sim_comment (t : Token) : T.Sim id (comment t) (comment t) := by
  refine sim_modify (fun _ => advances_of_place rfl) fun s₁ s₂ h => ?_
  refine { h with commentSeen := rfl, script := fun he => ?_ }
  have hkeeps : keepsComment s₁ = keepsComment s₂ := by
    rw [keepsComment, keepsComment, eq_of_view he h.settings, h.commentSeen, h.declared]
  dsimp only
  rw [hkeeps, h.script he]

theorem apply_view (h : T.view u₁ = T.view u₂) (name value : String) (declared : Bool) :
    (u₁.apply name value declared).map T.view = (u₂.apply name value declared).map T.view := by
  by_cases he : T.exact = true
  · rw [eq_of_view he h]
  · have hview : T.view = Settings.plain := by
      funext u
      exact if_neg he
    rw [hview, ← Settings.apply_plain, plain_eq h, Settings.apply_plain]

theorem sim_applySetting (name value : String) :
    T.Sim id (applySetting name value) (applySetting name value) := by
  refine ⟨bodyPath_advances.setting name value, fun {s₁ s₂} hs => ?_⟩
  rw [applySetting_eq, get_bind_apply, get_bind_apply]
  split
  · refine .ok rfl { hs with script := fun he => ?_ }
    dsimp only
    rw [hs.script he]
  · have happly : (s₁.settings.apply name value s₁.declared).map T.view =
        (s₂.settings.apply name value s₂.declared).map T.view := by
      rw [hs.declared]
      exact apply_view hs.settings name value s₂.declared
    rcases cases_of_map_eq happly with ⟨u₁, u₂, h₁, h₂, hu⟩ | ⟨r, h₁, h₂⟩
    · rw [h₁, h₂]
      exact .ok rfl { hs with settings := hu }
    · rw [h₁, h₂]
      exact .error _ hs

/-! ## Writing -/

theorem sim_write {f₁ f₂ : State → Except Failure Script}
    (h : ∀ s₁ s₂, T.Rel s₁ s₂ → T.exact = true → f₁ s₁ = f₂ s₂) : T.Sim id (write f₁) (write f₂) := by
  refine ⟨Along.write isPath_advances fun _ _ _ => advances_of_place rfl, fun {s₁ s₂} hs => ?_⟩
  rw [write_apply, write_apply]
  by_cases he : T.exact = true
  · rw [h s₁ s₂ hs he]
    cases f₂ s₂ with
    | ok script => exact .ok rfl { hs with script := fun _ => rfl }
    | error f => exact .error _ hs
  · cases f₁ s₁ with
    | error f => exact .failed₁ fun he' => absurd he' he
    | ok script₁ =>
      cases f₂ s₂ with
      | error f => exact .failed₂ (Bool.eq_false_iff.mpr he)
      | ok script₂ => exact .ok rfl { hs with script := fun he' => absurd he' he }

theorem sim_perform {steps₁ steps₂ : List Step}
    (h : steps₁.map (·.relabel T.labels) = steps₂.map (·.relabel T.labels)) :
    T.Sim id (perform steps₁) (perform steps₂) := by
  induction steps₁ generalizing steps₂ with
  | nil =>
    cases steps₂ with
    | nil => exact sim_pure rfl
    | cons step₂ steps₂ => cases h
  | cons step₁ steps₁ ih =>
    cases steps₂ with
    | nil => cases h
    | cons step₂ steps₂ =>
      obtain ⟨hstep, hsteps⟩ := List.cons.inj h
      refine sim_seq ?_ fun _ => ih hsteps
      cases step₁ with
      | field f₁ =>
        cases step₂ with
        | note n => cases hstep
        | field f₂ =>
          refine sim_write fun s₁ s₂ hs he => ?_
          have hf : f₁.relabel T.labels = f₂.relabel T.labels := Step.field.inj hstep
          rw [T.labels_id he, Field.relabel_id] at hf
          have hf' : f₁ = f₂ := hf
          rw [hs.script he, eq_of_view he hs.settings, hf']
      | note n =>
        cases step₂ with
        | field f => cases hstep
        | note n' =>
          have hn : n.relabel T.labels = n'.relabel T.labels := Step.note.inj hstep
          rw [n.relabel_ofMark, n'.relabel_ofMark] at hn
          exact hn ▸ sim_log n

theorem sim_advanceTo (hd : d₁.relabel T.labels = d₂.relabel T.labels)
    (hd' : d₁'.relabel T.labels = d₂'.relabel T.labels) :
    T.Sim id (advanceTo d₁ d₁') (advanceTo d₂ d₂') := by
  have hsteps : d₁'.steps.map (·.relabel T.labels) = d₂'.steps.map (·.relabel T.labels) :=
    congrArg Draft.steps hd'
  have hlength : d₁.steps.length = d₂.steps.length := by
    have h : (d₁.relabel T.labels).steps.length = (d₂.relabel T.labels).steps.length := by rw [hd]
    simpa only [Draft.relabel, List.length_map] using h
  refine sim_perform ?_
  rw [List.map_drop, List.map_drop, hsteps, hlength]

/-! ## Members -/

def around (T : Twin) (u : Surroundings) : Settings × Registry × Scope × (String → Bool) :=
  (T.view u.settings, u.registry.relabel T.labels, u.constants,
    fun name => T.mark (u.padding.toList.isPrefixOf name.toList))

theorem sim_surroundings : T.Sim T.around surroundings surroundings := by
  refine ⟨fun _ s => .refl s, fun {s₁ s₂} hs => .ok ?_ hs⟩
  show (_, _, _, _) = (_, _, _, _)
  rw [hs.settings, hs.registry, hs.constants, funext T.marks]

theorem scope_eq {u₁ u₂ : Surroundings} (h : T.around u₁ = T.around u₂) : u₁.scope = u₂.scope := by
  simp only [around, Prod.mk.injEq] at h
  obtain ⟨hsettings, -, hconstants, -⟩ := h
  have hscope (u : Surroundings) : u.scope = u.constants.shadowing u.settings.plain.flags := rfl
  rw [hscope, hscope, plain_eq hsettings, hconstants]

theorem declare_eq (f : FieldStatement) {u₁ u₂ : Surroundings} (hu : T.around u₁ = T.around u₂)
    (hd : d₁.relabel T.labels = d₂.relabel T.labels) :
    (f.declare u₁ d₁).map (·.relabel T.labels) = (f.declare u₂ d₂).map (·.relabel T.labels) := by
  simp only [around, Prod.mk.injEq] at hu
  obtain ⟨hsettings, hregistry, hconstants, hmarks⟩ := hu
  have hplain := plain_eq hsettings
  -- neither the meaning of a statement nor its place depends on the other settings
  have hresolve : f.resolve u₁ d₁ = f.resolve u₂ d₂ := by
    have hu (u : Surroundings) (d : Draft) : f.resolve u d =
        f.resolve ⟨u.settings.plain, u.registry.relabel T.labels, u.constants, ""⟩
          (d.relabel T.labels) := by
      rw [← f.resolve_ofMark u d]
      rfl
    rw [hu u₁, hu u₂, hplain, hregistry, hconstants, hd]
  have hput (c : Content) :
      (f.put u₁ d₁ c).relabel T.labels = (f.put u₂ d₂ c).relabel T.labels := by
    have hu (u : Surroundings) (d : Draft) : (f.put u d c).relabel T.labels =
        f.putAs u.settings.plain (T.mark (f.isPadding u)) (d.relabel T.labels) c := by
      rw [FieldStatement.put_eq, FieldStatement.putAs_relabel, f.relabel_ofMark]
      rfl
    have hmark : T.mark (f.isPadding u₁) = T.mark (f.isPadding u₂) := congrFun hmarks f.name.text
    rw [hu u₁, hu u₂, hplain, hmark, hd]
  rw [FieldStatement.declare, FieldStatement.declare, hresolve]
  cases f.resolve u₂ d₂ with
  | error e => rfl
  | ok c => exact congrArg Except.ok (hput c)

theorem sim_orThrow {α γ : Type} {v : α → γ} {x₁ x₂ : Except (Halt Diagnostic) α}
    (h : x₁.map v = x₂.map v) : T.Sim v (orThrow x₁) (orThrow x₂) := by
  rcases cases_of_map_eq h with ⟨a₁, a₂, rfl, rfl, ha⟩ | ⟨e, rfl, rfl⟩
  · exact sim_pure ha
  · exact sim_throw e

theorem openUnion_eq (hd : d₁.relabel T.labels = d₂.relabel T.labels) (hu : u₁.plain = u₂.plain) :
    (d₁.openUnion u₁).relabel T.labels = (d₂.openUnion u₂).relabel T.labels := by
  have h (u : Settings) (d : Draft) :
      (d.openUnion u).relabel T.labels = (d.relabel T.labels).openUnion u.plain :=
    Draft.openUnion_relabel u d
  rw [h, h, hd, hu]

theorem flush_eq (hd : d₁.relabel T.labels = d₂.relabel T.labels) (hu : u₁.plain = u₂.plain) :
    (d₁.flush u₁).relabel T.labels = (d₂.flush u₂).relabel T.labels := by
  have h (u : Settings) (d : Draft) :
      (d.flush u).relabel T.labels = (d.relabel T.labels).flush u.plain :=
    Draft.flush_relabel u d
  rw [h, h, hd, hu]

theorem closeUnion_eq (hd : d₁.relabel T.labels = d₂.relabel T.labels) (hu : u₁.plain = u₂.plain) :
    (d₁.closeUnion u₁).1.relabel T.labels = (d₂.closeUnion u₂).1.relabel T.labels ∧
      (d₁.closeUnion u₁).2 = (d₂.closeUnion u₂).2 := by
  have h (u : Settings) (d : Draft) :
      ((d.closeUnion u).1.relabel T.labels, (d.closeUnion u).2) =
        (d.relabel T.labels).closeUnion u.plain :=
    (Draft.closeUnion_relabel u d).symm
  have heq : ((d₁.closeUnion u₁).1.relabel T.labels, (d₁.closeUnion u₁).2) =
      ((d₂.closeUnion u₂).1.relabel T.labels, (d₂.closeUnion u₂).2) := by
    rw [h, h, hd, hu]
  exact Prod.mk.inj heq

/-! ## Declarations -/

theorem taken_eq {r₁ r₂ : Registry} (h : r₁.relabel T.labels = r₂.relabel T.labels) (name : String) :
    r₁.taken name = r₂.taken name := by
  rw [← r₁.taken_relabel (R := T.labels), h, r₂.taken_relabel]

theorem sim_discardClass : T.Sim id discardClass discardClass :=
  sim_modify (fun _ => advances_of_place rfl) fun _ _ h =>
    { h with script := fun he => congrArg Script.discardClass (h.script he) }

theorem sim_register {t₁ t₂ : TypeInfo} (ht : t₁.relabel T.labels = t₂.relabel T.labels) :
    T.Sim id (register t₁) (register t₂) := by
  refine ⟨declarationPath_advances.register t₁, fun {s₁ s₂} hs => ?_⟩
  have hregister : (s₁.registry.register t₁).map (·.relabel T.labels) =
      (s₂.registry.register t₂).map (·.relabel T.labels) := by
    rw [← Registry.register_relabel, hs.registry, ht, Registry.register_relabel]
  rw [register_apply, register_apply]
  rcases cases_of_map_eq hregister with ⟨r₁, r₂, h₁, h₂, hr⟩ | ⟨p, h₁, h₂⟩
  · rw [h₁, h₂]
    exact .ok rfl { hs with registry := hr }
  · rw [h₁, h₂]
    exact .error _ hs

/-- A warning is written or not, and that is all. -/
theorem warnOfPadding_apply (d : Draft) (t : TypeInfo) (env : Env) (s : State) :
    ∃ warnings notes, warnOfPadding d t env s =
      .ok () { s with report := { s.report with warnings }, notes } := by
  unfold warnOfPadding
  split
  · exact ⟨_, _, rfl⟩
  · exact ⟨_, _, rfl⟩

theorem sim_warnOfPadding (d₁ d₂ : Draft) (t₁ t₂ : TypeInfo) :
    T.Sim id (warnOfPadding d₁ t₁) (warnOfPadding d₂ t₂) := by
  refine ⟨tokenPath_advances.warnOfPadding d₁ t₁, fun {s₁ s₂} hs => ?_⟩
  obtain ⟨_, _, h₁⟩ := warnOfPadding_apply d₁ t₁ T.env₁ s₁
  obtain ⟨_, _, h₂⟩ := warnOfPadding_apply d₂ t₂ T.env₂ s₂
  rw [h₁, h₂]
  exact .ok rfl { hs with }

/-! ## The comparison -/

/-- A statement starts where both readings have come as far, or both have taken tokens since. -/
def Since (T : Twin) (i : Nat × Nat) (s : State) : Prop :=
  i.1 + T.start₂ = i.2 + T.start₁ ∧ T.base ≤ i.1 ∧ i.1 ≤ s.taken ∨
    i.1 < s.taken ∧ i.2 + T.start₁ < s.taken + T.start₂ ∧ T.base < s.taken

theorem Since.mono {i : Nat × Nat} {s s' : State} (h : T.Since i s) (hle : s.taken ≤ s'.taken) :
    T.Since i s' := by
  unfold Since at h ⊢
  omega

def Alike (T : Twin) (s₁ s₂ : State) : Prop :=
  T.view s₁.settings = T.view s₂.settings ∧
    s₁.registry.relabel T.labels = s₂.registry.relabel T.labels ∧ s₁.constants = s₂.constants

/-- Two readings side by side; the first one goes on by itself where it is lost. -/
def comparison (T : Twin) : Comparison where
  env₁ := T.env₁
  env₂ := T.env₂
  rel i s₁ s₂ := T.Rel s₁ s₂ ∧ T.Since i s₁
  keep := T.Lost
  fails _ := T.Lost
  loose₁ := T.exact = true → T.rest₁ ≠ []
  loose₂ := T.exact = false
  refusal := Eq
  labels := .ofMark id
  place _ := True
  alike := T.Alike
  around u₁ u₂ := T.around u₁ = T.around u₂
  draft d₁ d₂ := d₁.relabel T.labels = d₂.relabel T.labels
  type t₁ t₂ := t₁.relabel T.labels = t₂.relabel T.labels
  value _ := True

section Judgments

variable {α γ : Type} {i : Nat × Nat} {v : α → γ} {V : α → α → Prop} {m₁ m₂ : Reader α}

theorem Sim.judge (h : T.Sim v m₁ m₂) (hV : ∀ a₁ a₂, v a₁ = v a₂ → V a₁ a₂) :
    T.comparison.Judge i V m₁ m₂ := by
  refine ⟨fun s hs => ?_, fun {s₁ s₂} hs => ?_⟩
  · have hlost : T.Lost (after m₁ T.env₁ s) := hs.mono (h.adv T.env₁ s)
    unfold after at hlost
    show Expected _ _ _ (m₁ T.env₁ s)
    cases hend : m₁ T.env₁ s with
    | ok a s' =>
      rw [hend] at hlost
      exact ⟨hlost, a, hV a a rfl⟩
    | error e s' =>
      rw [hend] at hlost
      cases e with
      | refused d => exact ⟨hlost, d, rfl⟩
      | failed f => exact hlost
  · have hmeets := h.meets hs.1
    have hadv := h.adv T.env₁ s₁
    rw [← finalState_eq] at hadv
    show T.comparison.Outcome i V (m₁ T.env₁ s₁) (m₂ T.env₂ s₂)
    generalize m₁ T.env₁ s₁ = r₁ at hmeets hadv ⊢
    generalize m₂ T.env₂ s₂ = r₂ at hmeets ⊢
    cases hmeets with
    | ok value rel => exact .ok (hV _ _ value) ⟨rel, hs.2.mono hadv.taken⟩
    | error e rel =>
      cases e with
      | refused d => exact .refused rfl ⟨rel, hs.2.mono hadv.taken⟩
      | failed f => exact .failed f ⟨rel, hs.2.mono hadv.taken⟩
    | failed₁ loose => exact .failed₁ loose
    | failed₂ loose => exact .failed₂ loose
    | lost lost =>
      refine .apart ?_
      cases r₁ with
      | ok a s' => exact ⟨lost, a, hV a a rfl⟩
      | error e s' =>
        cases e with
        | refused d => exact ⟨lost, d, rfl⟩
        | failed f => exact lost

theorem Sim.same (h : T.Sim id m₁ m₂) : T.comparison.Judge i Eq m₁ m₂ := h.judge fun _ _ h => h

theorem Meets.of_outcome {r₁ r₂ : EStateM.Result (Halt Diagnostic) State α}
    (h : T.comparison.Outcome i V r₁ r₂) (hv : ∀ a₁ a₂, V a₁ a₂ → v a₁ = v a₂) : T.Meets v r₁ r₂ := by
  cases h with
  | ok value rel => exact .ok (hv _ _ value) rel.1
  | refused refusal rel =>
    cases refusal
    exact .error _ rel.1
  | failed f rel => exact .error _ rel.1
  | failed₁ loose => exact .failed₁ loose
  | failed₂ loose => exact .failed₂ loose
  | apart kept =>
    refine .lost ?_
    cases r₁ with
    | ok a s => exact kept.1
    | error e s =>
      cases e with
      | refused d => exact kept.1
      | failed f => exact kept

theorem sim_of_judge (hadv : Advancing m₁) (h : ∀ i, T.comparison.Judge i V m₁ m₂)
    (hv : ∀ a₁ a₂, V a₁ a₂ → v a₁ = v a₂) : T.Sim v m₁ m₂ := by
  refine ⟨hadv, fun {s₁ s₂} hs => .of_outcome ((h (s₁.taken, s₂.taken)).meets ⟨hs, .inl ?_⟩) hv⟩
  exact ⟨hs.taken, Nat.le_trans T.base_le hs.started, Nat.le_refl _⟩

end Judgments

theorem shape_eq (hd : d₁.relabel T.labels = d₂.relabel T.labels) : Comparison.SameShape d₁ d₂ where
  name := (congrArg Draft.name hd :)
  form := (congrArg Draft.form hd :)
  discarded := (congrArg Draft.discarded hd :)
  inUnion := by rw [← d₁.inUnion_relabel (R := T.labels), hd, d₂.inUnion_relabel]
  inAnonymousUnion := by
    rw [← d₁.inAnonymousUnion_relabel (R := T.labels), hd, d₂.inAnonymousUnion_relabel]

theorem finish_eq (hd : d₁.relabel T.labels = d₂.relabel T.labels) (hu : u₁.plain = u₂.plain)
    (name : String) : Option.Rel T.comparison.type (d₁.finish u₁ name) (d₂.finish u₂ name) := by
  have hfinish : (d₁.finish u₁ name).map (·.relabel T.labels) =
      (d₂.finish u₂ name).map (·.relabel T.labels) := by
    have h (u : Settings) (d : Draft) : (d.finish u name).map (·.relabel T.labels) =
        (d.relabel T.labels).finish u.plain name := (Draft.finish_relabel u d name).symm
    rw [h, h, hd, hu]
  generalize d₁.finish u₁ name = x₁ at hfinish ⊢
  generalize d₂.finish u₂ name = x₂ at hfinish ⊢
  cases x₁ with
  | none =>
    cases x₂ with
    | none => exact .none
    | some t₂ => cases hfinish
  | some t₁ =>
    cases x₂ with
    | none => cases hfinish
    | some t₂ => exact .some (Option.some.inj hfinish)

theorem agrees (T : Twin) : T.comparison.Agrees where
  left hs hu := by
    have hleft := hs.1.left
    have hleft' := hu.1.left
    omega
  full {_ s _} hs := by
    by_cases hlost : T.Lost s
    · exact .inl hlost
    · exact .inr (hs.1.full hlost)
  start hs := ⟨hs.1, .inl ⟨hs.1.taken, Nat.le_trans T.base_le hs.1.started, Nat.le_refl _⟩⟩
  back hs hu := by
    refine ⟨hu.1, hs.2.mono ?_⟩
    rcases hu.2 with ⟨-, -, hle⟩ | ⟨hlt, -⟩
    · exact hle
    · exact Nat.le_of_lt hlt
  untouched hs := by
    have htaken := hs.1.taken
    have hsince := hs.2
    unfold Since at hsince
    omega
  last _ hs hne := by
    have hsince := hs.2
    unfold Since at hsince
    rcases hs.1.last with hlast | hlast
    · rw [hlast]
    · omega
  later _ _ := Iff.rfl
  alike_self _ := ⟨rfl, rfl, rfl⟩
  alike_rel hs := ⟨hs.1.settings, hs.1.registry, hs.1.constants⟩
  constants hs := hs.2.2
  taken name hs := taken_eq hs.2.1 name
  shape hd := shape_eq hd
  place hd := (congrArg Draft.location hd.symm :)
  size ht := ⟨(congrArg TypeInfo.name ht :), (congrArg TypeInfo.form ht :),
    (congrArg TypeInfo.byteLength ht :), (congrArg TypeInfo.alignment ht :)⟩
  finish name hs hd := finish_eq hd (plain_eq hs.1) name
  finishEnum {s s'} e name hs := by
    have h (u : Settings) : e.finish u name = e.finish u.plain name := rfl
    rw [h s.settings, h s'.settings, plain_eq hs.1]
    rfl

theorem tokens (T : Twin) : T.comparison.Tokens where
  toAgrees := T.agrees
  loops := .of_fails fun _ hs => hs
  peek := sim_peek.judge fun _ _ h => ⟨h.symm, trivial⟩
  peekSecond := sim_peekSecond.judge fun _ _ h => h.symm
  advance := sim_advance.judge fun _ _ h => ⟨h.symm, trivial⟩
  log n := by
    show T.comparison.Judge _ Eq (log n) (log (n.relabel (.ofMark id)))
    rw [n.relabel_ofMark]
    exact (sim_log n).same
  refusal {l} p _ := by
    show (⟨p, some l, none⟩ : Diagnostic) = ⟨p.relabel (.ofMark id), some l, none⟩
    rw [p.relabel_ofMark]
  surroundings := sim_surroundings.judge fun _ _ h => h
  evaluate {_ u _ l} ts hu _ := by
    have hts : ts.map (·.relabel T.comparison.labels) = ts := List.map_id ts
    rw [hts, ← scope_eq hu]
    exact (sim_orThrow (v := id) rfl).judge fun _ _ h => ⟨h, trivial⟩
  int _ := trivial

theorem descriptions (T : Twin) : T.comparison.Descriptions where
  toTokens := T.tokens
  report {_ l} p _ := by
    show T.comparison.Judge _ Eq (report l p) (report l (p.relabel (.ofMark id)))
    rw [p.relabel_ofMark]
    exact (sim_report l p).same
  record {_ d _ t} hd _ := by
    cases hd
    exact (sim_record d t).same
  comment {_ t} _ := (sim_comment t).same
  setting name value := (sim_applySetting name value).same
  declare {_ f f' _ _ _ _} hf hu hd := by
    have hsame : f' = f := hf.1.trans f.relabel_ofMark
    rw [hsame]
    exact (sim_orThrow (declare_eq f hu hd)).judge fun _ _ h => h
  advanceTo hd he := (sim_advanceTo hd he).same
  openUnion hs hd _ := openUnion_eq hd (plain_eq hs.1)
  closeUnion hs hd _ := closeUnion_eq hd (plain_eq hs.1)
  flush hs hd := flush_eq hd (plain_eq hs.1)
  location _ := trivial
  enumerator := T.tokens.enumerator_of fun name value _ => Sim.same (sim_modify
    (fun _ => advances_of_place rfl) fun _ _ h => { h with constants := congrArg (·.set name value) h.constants })
  discard hd := (congrArg (fun d : Draft => { d with discarded := true }) hd :)
  named name hd := (congrArg (fun d : Draft => { d with name := some name }) hd :)
  header {s₁ s₂ keyword name _ parent _} form typedef hs _ hname hparent := by
    have hheader : (Header.of s₁.registry form typedef keyword name parent).relabel T.labels =
        (Header.of s₂.registry form typedef keyword name parent).relabel T.labels := by
      rw [Header.of_ofMark, hs.2.1, Header.of_ofMark]
    rw [Header.relabel_ofMark, Header.relabel_ofMark] at hheader
    rw [hname.eq rfl, hparent.eq rfl]
    exact .of_eq rfl (congrArg Header.draft hheader) (congrArg Header.errors hheader.symm :)
      (fun _ _ => trivial) (congrArg Header.notes hheader.symm :)
  opened := Sim.same (sim_modify (fun _ => advances_of_place rfl) fun _ _ h => { h with declared := rfl })
  openClass name := Sim.same (sim_modify (fun _ => advances_of_place rfl) fun _ _ h =>
    { h with script := fun he => congrArg (Script.openClass · name) (h.script he) })
  discardClass := sim_discardClass.same
  register ht := (sim_register ht).same
  closeClass {_ t₁ t₂} ht := by
    refine (sim_write fun s₁ s₂ hs he => ?_).same
    have hregistry := hs.registry
    change t₁.relabel T.labels = t₂.relabel T.labels at ht
    rw [T.labels_id he, Registry.relabel_id, Registry.relabel_id] at hregistry
    rw [T.labels_id he, TypeInfo.relabel_id] at ht
    have ht' : t₁ = t₂ := ht
    rw [hs.script he, eq_of_view he hs.settings, hregistry, ht']
  warnOfPadding _ _ := (sim_warnOfPadding _ _ _ _).same
  addEnum _ _ := (sim_write fun s₁ s₂ hs he => by rw [hs.script he, eq_of_view he hs.settings]).same

/-! ## Rounds and descriptions -/

def bodyView (T : Twin) : Option Draft → Option Draft := Option.map (Draft.relabel T.labels)

theorem bodyView_eq {x₁ x₂ : Option Draft} (h : Option.Rel T.comparison.draft x₁ x₂) :
    T.bodyView x₁ = T.bodyView x₂ := by
  cases h with
  | none => rfl
  | some hd => exact congrArg some hd

def roundView {α β γ δ : Type} (w : β → δ) (v : α → γ) : Round β α → Round δ γ
  | .again b => .again (w b)
  | .done a => .done (v a)

theorem sim_opening (form : Form) (typedef : Bool) :
    T.Sim (Draft.relabel T.labels) (opening form typedef) (opening form typedef) :=
  sim_of_judge (declarationPath_advances.opening form typedef)
    (fun _ => T.descriptions.opening form typedef) fun _ _ h => h

theorem sim_memberRound (d : Draft) :
    T.Sim (roundView (Draft.relabel T.labels) T.bodyView) (memberRound d) (memberRound d) := by
  refine sim_of_judge (bodyPath_advances.memberRound d) (fun _ => T.descriptions.memberRound rfl)
    fun r₁ r₂ hr => ?_
  cases hr with
  | again h => exact congrArg Round.again h
  | done h => exact congrArg Round.done (bodyView_eq h)

theorem sim_statementRound : T.Sim (roundView id id) (statementRound ()) (statementRound ()) := by
  refine sim_of_judge .statementRound (fun _ => T.descriptions.statements.statementRound)
    fun r₁ r₂ hr => ?_
  cases hr with
  | again h => exact congrArg Round.again h
  | done h => exact congrArg Round.done h

/-- The rest of a struct or union, from a place between its members on. -/
theorem sim_body (d : Draft) (typedef : Bool) :
    T.Sim id (members d >>= closing typedef) (members d >>= closing typedef) :=
  sim_of_judge (Advancing.bind (bodyPath_advances.members d) (declarationPath_advances.closing typedef))
    (fun _ => (T.descriptions.members rfl).bind fun _ _ => T.descriptions.closing typedef) fun _ _ h => h

theorem sim_description : T.Sim id description description :=
  sim_of_judge .description (fun _ => T.descriptions.statements.description) fun _ _ h => h

/-- Both go on after a statement that is refused. -/
theorem meets_recover {t : Token} {start₁ start₂ : Nat} (d : Diagnostic) (hs : T.Rel s₁ s₂)
    (hsince : T.Since (start₁, start₂) s₁) :
    T.Meets id (recover t start₁ false () (.refused d) T.env₁ s₁)
      (recover t start₂ false () (.refused d) T.env₂ s₂) := by
  have hrecover : T.comparison.Judge (start₁, start₂) Eq (recover t start₁ false () (.refused d))
      (recover t start₂ false () (.refused d)) :=
    (sim_record d t).same.seq fun _ => (T.tokens.synchronize t.line false).seq fun _ => .pure rfl
  exact .of_outcome (hrecover.meets ⟨hs, hsince⟩) fun _ _ h => h

/-- Two descriptions that are read to their ends. -/
theorem rel_read (h : T.Meets id (description T.env₁ s₁) (description T.env₂ s₂))
    (h₁ : (read T.env₁ s₁).2 = none) (h₂ : (read T.env₂ s₂).2 = none)
    (hlost : ¬ T.Lost (read T.env₁ s₁).1) : T.Rel (read T.env₁ s₁).1 (read T.env₂ s₂).1 := by
  rw [read_fst, ← finalState_eq] at hlost
  unfold read at h₁ h₂ ⊢
  generalize description T.env₁ s₁ = r₁ at *
  generalize description T.env₂ s₂ = r₂ at *
  cases h with
  | ok _ rel => exact rel
  | lost lost => exact absurd lost hlost
  | failed₁ _ => cases h₁
  | failed₂ _ => cases h₂
  | error e rel =>
    cases e with
    | refused d => exact rel
    | failed f => cases h₁

end Twin
end RecordView.Declaration
