import RecordView.Proofs.Compiler
import RecordView.Proofs.Declaration.Survey

/-! A script is written in one dialect, which is settled before its first type; and up to there, every
condition of a description is decided under the language that has been set before it. -/
namespace RecordView.Compiler
open Declaration Reader Script

theorem errors_override (s : State) (name value : String)
    (h : s.report.errors.filter (·.problem.isCondition) = []) :
    (override s name value).report.errors.filter (·.problem.isCondition) = [] := by
  refine override_elim s name value (fun _ => h) (fun _ _ _ => h) fun r _ => ?_
  simpa [Report.add, Problem.isCondition, Problem.kind] using h

/-- Before the first token is read, there are no conditions. -/
theorem survey_start (o : Options) (source : String) :
    (start o source).survey = { settings := (start o source).settings } := by
  have hstart : (o.overrides.entries.foldl (fun s e => override s e.1 e.2)
      { unread := [], report := { limit := o.maxErrors } }).report.errors.filter
        (·.problem.isCondition) = [] := by
    refine List.foldlRecOn _ _ ?_ ?_
      (motive := fun s : State => s.report.errors.filter (·.problem.isCondition) = [])
    · rfl
    · exact fun s h e _ => errors_override s e.1 e.2 h
  obtain ⟨settings, script, report, heq⟩ :=
    overrides_eq o.overrides.entries { unread := [], report := { limit := o.maxErrors } }
  unfold start
  dsimp only
  rw [heq] at hstart ⊢
  unfold tokens Token.scan State.survey
  cases Token.scanFrom o.file .start {} source.toList with
  | ok ts =>
    dsimp only at hstart ⊢
    rw [hstart]
    rfl
  | error p =>
    dsimp only at hstart ⊢
    rw [show (report.add _).errors = report.errors ++ [_] from rfl, List.filter_append, hstart]
    rfl

/-- The dialect of a script is settled when the first body is opened. Up to there, a condition is
decided as in a survey of the tokens, which sets each accepted language as soon as it has been seen. -/
theorem compile_dialect (o : Options) (source : String) :
    let env : Env := ⟨o.padding, lineOf source⟩
    let s₀ := start o source
    let last := (Declaration.read env s₀).1
    -- up to the first brace
    (∀ s, Leading env s₀ s → ∃ seen v, s₀.unread = seen ++ s.unread ∧
      Survey.follow env.sourceLine { settings := s₀.settings } seen = (v, none) ∧ s.Agrees v) ∧
    (∀ s f, Declaration.read env s₀ = (s, some f) → s.declared = false → ∃ v,
      Survey.follow env.sourceLine { settings := s₀.settings } s₀.unread = (v, some f) ∧ s.Agrees v) ∧
    -- from a brace on
    (∀ s s', Runs statementRound env () s₀ () s → Begins env s s' → s'.declared = true) ∧
    (∀ s, Visits env s₀ s → s.declared = true → Leads s last ∧
      ∀ s', Leads s s' → s'.declared = true ∧ s'.settings.dialect = last.settings.dialect) ∧
    -- at the end
    last.script.InDialect last.settings.dialect ∧
    ∀ c, (compile o source).result = .ok c → c.language = last.settings.language ∧
      c.platform = last.settings.platform ∧ c.code = last.script.assemble last.settings source := by
  intro env s₀ last
  obtain ⟨unread, settings, script, report, notes, hstart⟩ := start_eq o source
  have hrest : AtRest env s₀ s₀ := by
    have hs₀ : s₀ = { unread, settings, script, report, notes } := hstart
    rw [hs₀]
    exact atRest_start rfl rfl rfl
  have hsurvey : s₀.survey = { settings := s₀.settings } := survey_start o source
  have hscript : ∀ δ, s₀.script.InDialect δ := by
    refine start_script (P := fun script => ∀ δ, script.InDialect δ) o source (fun δ => ⟨?_, ?_⟩)
      fun script text hs δ => (hs δ).verbatim text
    · intro i hi
      cases hi
    · intro c hc
      cases hc
  have hleads : Leads s₀ last := by
    have h := leads_description env s₀
    rwa [← read_fst] at h
  refine ⟨fun s hs => ?_, fun s f hread hs => ?_, fun s s' _ hs => hs.declared,
    fun s hs hdeclared => ?_, ?_, ?_⟩
  · obtain ⟨v, hagrees, seen, htokens, hfollow, -⟩ := hs.surveyed hrest
    rw [hsurvey] at hfollow
    exact ⟨seen, v, htokens, hfollow, hagrees⟩
  · have hend := description_of_read hread
    have hsafe : Safe env anything description := safe_description
    have hf : f.Arithmetic := hsafe.triple.of_failed (steady_start o source) hend
    have hstalled : f ≠ .stalled := by
      rintro rfl
      rcases hf with hf | hf <;> cases hf
    rw [← hsurvey]
    exact surveyed_of_failed hrest hend hs hstalled
  · have hend := hs.leads hdeclared
    refine ⟨hend, fun s' hs' => ⟨hs'.declared hdeclared, ?_⟩⟩
    rw [hs'.dialect hdeclared, hend.dialect hdeclared]
  · have hspoken : last.Spoken := hleads.keeps (fun _ _ => Event.spoken) fun δ _ => hscript δ
    exact hspoken _ fun _ => rfl
  · intro c hc
    obtain ⟨s, rfl, -, rfl⟩ := code_eq hc
    exact ⟨rfl, rfl, rfl⟩

def branchSource : String :=
  "#pragma language(typescript)\n#if __COMPILEDATAVIEW_TYPESCRIPT__\n#endif\nstruct A{uint8_t a;};"

theorem compile_dialect_branch : ∃ s, Leading ⟨"__", lineOf branchSource⟩ (start {} branchSource) s ∧
    s.declared = true ∧ ∃ seen v, (start {} branchSource).unread = seen ++ s.unread ∧
      Survey.follow (lineOf branchSource) { settings := (start {} branchSource).settings } seen = (v, none) ∧
      v.notes = [.condition 2 true] ∧ v.settings.language = .typescript := by
  have hread : (match runs? statementRound ⟨"__", lineOf branchSource⟩ 1 () (start {} branchSource) with
      | some (_, s₁) =>
        match firstBody? ⟨"__", lineOf branchSource⟩ .struct s₁ with
        | some (_, s) => decide (s₁.declared = false ∧
            s.notes.filter Note.isCondition = [.condition 2 true] ∧ s.settings.language = .typescript)
        | none => false
      | none => false) = true := by
    decide +kernel
  split at hread
  · rename_i s₁ hrun
    split at hread
    · rename_i d s hbody
      obtain ⟨hundeclared, hnotes, hlanguage⟩ := of_decide_eq_true hread
      obtain ⟨s₂, henters, hopen⟩ := enters_of_firstBody? hbody
      have hbegins : Begins ⟨"__", lineOf branchSource⟩ s₁ s := .aggregate henters hopen
      have hleading : Leading ⟨"__", lineOf branchSource⟩ (start {} branchSource) s :=
        .brace (runs_of_runs? hrun) hundeclared hbegins
      obtain ⟨seen, v, htokens, hfollow, hagrees⟩ := (compile_dialect {} branchSource).1 s hleading
      refine ⟨s, hleading, hbegins.declared, seen, v, htokens, hfollow, ?_, ?_⟩
      · rw [← hagrees.notes, hnotes]
      · rw [← hagrees.language, hlanguage]
    · cases hread
  · cases hread

end RecordView.Compiler
