import RecordView.Compiler
import RecordView.Proofs.Declaration.Safety

/-! What holds of every compilation, whatever the description and the options are. -/
namespace RecordView.Compiler
open Declaration Reader

/-! ## The start -/

/-- A setting from outside is text to take over, or it is applied, or it is refused. -/
@[elab_as_elim]
theorem override_elim {P : State → Prop} (s : State) (name value : String)
    (hverbatim : name = "inject" → P { s with script := s.script.verbatim value })
    (happlied : ∀ settings, name ≠ "inject" → s.settings.apply name value = .ok settings →
      P { s with settings })
    (hrefused : ∀ r, s.settings.apply name value = .error r →
      P { s with report := s.report.add ⟨.setting r, none, none⟩ }) : P (override s name value) := by
  unfold override
  split
  · next hname => exact hverbatim hname
  · next hname =>
    rw [Settings.change_eq]
    cases happly : s.settings.apply name value with
    | ok settings => exact happlied settings hname happly
    | error r => exact hrefused r happly

theorem overrides_eq (es : List (String × String)) (s : State) : ∃ settings script report,
    es.foldl (fun s e => override s e.1 e.2) s = { s with settings, script, report } := by
  refine es.foldlRecOn (motive := fun s' => ∃ settings script report,
    s' = { s with settings, script, report }) _ ?_ ?_
  · exact ⟨_, _, _, rfl⟩
  · rintro _ ⟨settings, script, report, rfl⟩ e -
    exact override_elim _ e.1 e.2 (fun _ => ⟨_, _, _, rfl⟩) (fun _ _ _ => ⟨_, _, _, rfl⟩)
      fun _ _ => ⟨_, _, _, rfl⟩

theorem start_eq (o : Options) (source : String) : ∃ unread settings script report notes,
    start o source = { unread, settings, script, report, notes } := by
  obtain ⟨settings, script, report, heq⟩ :=
    overrides_eq o.overrides.entries { unread := [], report := { limit := o.maxErrors } }
  unfold start
  dsimp only
  rw [heq]
  unfold tokens
  split
  · exact ⟨_, _, _, _, _, rfl⟩
  · exact ⟨_, _, _, _, _, rfl⟩

/-- Before the first token is read, nothing is written but text from outside. -/
theorem start_script {P : Script → Prop} (o : Options) (source : String) (hempty : P {})
    (hverbatim : ∀ script text, P script → P (script.verbatim text)) : P (start o source).script := by
  have hoverride (s : State) (hs : P s.script) (e : String × String) :
      P (override s e.1 e.2).script :=
    override_elim s e.1 e.2 (fun _ => hverbatim _ _ hs) (fun _ _ _ => hs) fun _ _ => hs
  have htokens (s : State) : (tokens s o.file source).script = s.script := by
    unfold tokens
    split
    · rfl
    · rfl
  unfold start
  rw [htokens]
  refine List.foldlRecOn (motive := fun s => P s.script) _ _ ?_ fun s hs e _ => hoverride s hs e
  exact hempty

theorem start_registry (o : Options) (source : String) : (start o source).registry = {} := by
  obtain ⟨_, _, _, _, _, heq⟩ := start_eq o source
  rw [heq]

theorem start_decls (o : Options) (source : String) : (start o source).script.decls = [] :=
  start_script (P := fun script => script.decls = []) o source rfl fun script text hs => by
    rw [Script.decls_verbatim, hs]

theorem steady_start (o : Options) (source : String) : (start o source).Steady := by
  obtain ⟨unread, settings, script, report, notes, heq⟩ := start_eq o source
  rw [heq]
  refine ⟨⟨fun e he => ?_, fun _ => rfl⟩, fun e he => ?_⟩
  · cases he
  · cases he

/-! ## The end -/

/-- What a reading that does not fail makes of a description. -/
def outcome (source : String) (s : State) : Compilation :=
  ⟨s.script.assemble s.settings source, s.report, s.settings.language, s.settings.platform⟩

theorem result_eq (o : Options) (source : String) :
    (compile o source).result =
      let r := Declaration.read ⟨o.padding, lineOf source⟩ (start o source)
      r.2.elim (.ok (outcome source r.1)) .error := by
  unfold compile
  generalize Declaration.read ⟨o.padding, lineOf source⟩ (start o source) = r
  obtain ⟨s, failure⟩ := r
  cases failure with
  | none => rfl
  | some f => rfl

theorem result_of_none {o : Options} {source : String}
    (h : (Declaration.read ⟨o.padding, lineOf source⟩ (start o source)).2 = none) :
    (compile o source).result =
      .ok (outcome source (Declaration.read ⟨o.padding, lineOf source⟩ (start o source)).1) := by
  have hresult := result_eq o source
  dsimp only at hresult
  rw [h] at hresult
  exact hresult

/-- The result of a compilation is the text of the script that the reading has written. -/
theorem code_eq {o : Options} {source : String} {c : Compilation}
    (h : (compile o source).result = .ok c) :
    ∃ s, (Declaration.read ⟨o.padding, lineOf source⟩ (start o source)).1 = s ∧
      (Declaration.read ⟨o.padding, lineOf source⟩ (start o source)).2 = none ∧
      c = ⟨s.script.assemble s.settings source, s.report, s.settings.language, s.settings.platform⟩ := by
  unfold compile at h
  cases hread : Declaration.read ⟨o.padding, lineOf source⟩ (start o source) with
  | mk s failure =>
    rw [hread] at h
    cases failure with
    | none => exact ⟨s, rfl, rfl, (Except.ok.inj h).symm⟩
    | some f => exact absurd h (by simp)

/-- A compilation gives a result, or it fails of arithmetic: the remainder of an infinite number is
taken, or an integer has more digits than are written. No refused statement ends it. -/
theorem compile_fails_of_arithmetic (o : Options) (source : String) :
    (∀ d s, description ⟨o.padding, lineOf source⟩ (start o source) ≠ .error (.refused d) s) ∧
      ((∃ c, (compile o source).result = .ok c) ∨
        (compile o source).result = .error .infiniteDividend ∨
        (compile o source).result = .error .tooManyDigits) := by
  let env : Env := ⟨o.padding, lineOf source⟩
  have hunrefused := Unrefused.description env (start o source)
  have hdescription : Safe env anything description := safe_description
  have hsafe := hdescription.triple (start o source) (steady_start o source)
  refine ⟨hunrefused, ?_⟩
  unfold compile Declaration.read
  cases hend : description env (start o source) with
  | ok _ s => exact .inl ⟨_, rfl⟩
  | error e s =>
    cases e with
    | refused d => exact absurd hend (hunrefused d s)
    | failed f =>
      rw [hend] at hsafe
      refine .inr ?_
      rcases hsafe with rfl | rfl
      · exact .inl rfl
      · exact .inr rfl

end RecordView.Compiler
