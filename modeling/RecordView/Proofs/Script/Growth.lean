import RecordView.Proofs.Declaration.Path
import RecordView.Proofs.Script.Emission

/-! The class of a body grows at its end only: what is written for a member stays as it is. -/
namespace RecordView.Declaration
open Reader Script

variable {env : Env} {s s' : State} {d : Draft} {quiet : Bool}

/-! ## What is added to the open class -/

/-- The open class has got more members; if `quiet`, these are accessors, and the settings are the
same. -/
structure Appends (quiet : Bool) (s s' : State) : Prop where
  members : ∀ o, s.script.current = some o → ∃ ms probed,
    s'.script.current = some { o with members := o.members ++ ms, probed } ∧
      (quiet = true → ∀ m ∈ ms, m.accessor?.isSome)
  settings : quiet = true → s'.settings = s.settings

theorem appends_of_script (h : s'.script = s.script) (hs : quiet = true → s'.settings = s.settings) :
    Appends quiet s s' := by
  refine ⟨fun o ho => ⟨[], o.probed, ?_, fun _ m hm => by cases hm⟩, hs⟩
  rw [h, ho, List.append_nil]

theorem isPath_appends : IsPath (Appends quiet) := by
  refine ⟨fun s => appends_of_script rfl fun _ => rfl, fun {s₁ s₂ s₃} h h' => ⟨fun o ho => ?_, ?_⟩⟩
  · obtain ⟨ms, probed, ho', hms⟩ := h.members o ho
    obtain ⟨ms', probed', ho'', hms'⟩ := h'.members _ ho'
    refine ⟨ms ++ ms', probed', by rw [ho'', List.append_assoc], fun hq m hm => ?_⟩
    rcases List.mem_append.mp hm with hm | hm
    · exact hms hq m hm
    · exact hms' hq m hm
  · intro hq
    rw [h'.settings hq, h.settings hq]

theorem appends_of_script_eq (h : s'.script = s.script) : Appends false s s' :=
  appends_of_script h fun hq => absurd hq Bool.false_ne_true

theorem appends_verbatim {text : String} (h : s'.script = s.script.verbatim text) :
    Appends false s s' := by
  refine ⟨fun o ho => ⟨[.verbatim text], o.probed, ?_, fun hq => ?_⟩, fun hq => ?_⟩
  · simp only [h, verbatim, ho]
  · cases hq
  · cases hq

theorem appends_comment (t : Token) : Along (Appends false) (comment t) :=
  .comment (fun _ => appends_of_script_eq rfl) fun _ => appends_verbatim rfl

theorem appends_addField (f : Field) :
    Along (Appends quiet) (write fun s => s.script.addField s.settings f) := by
  refine .write isPath_appends fun s script h => ⟨fun o ho => ?_, fun _ => rfl⟩
  rcases addField_eq_ok_iff.mp h with ⟨-, rfl⟩ | ⟨o', a, ho', -, -, rfl⟩
  · exact isPath_appends.refl s |>.members o ho
  · cases ho.symm.trans ho'
    exact ⟨[.accessor a], _, rfl, fun _ m hm => by simp_all [Member.accessor?]⟩

theorem fieldPath_appends : FieldPath (Appends quiet) where
  toTokenPath := .of_held isPath_appends fun held =>
    appends_of_script (congrArg State.script held :) fun _ => (congrArg State.settings held :)
  field := appends_addField

theorem asidePath_appends : AsidePath (Appends false) where
  toTokenPath := fieldPath_appends.toTokenPath
  comment := appends_comment
  setting _ _ := .applySetting isPath_appends (fun _ => appends_verbatim rfl) fun _ _ _ =>
    appends_of_script_eq rfl

/-- The next token is neither a comment nor a directive. -/
def Quiet (env : Env) (s : State) : Prop :=
  ∀ t s', peek env s = .ok t s' → t.kind ≠ .comment ∧ t.kind ≠ .directive

theorem Quiet.peek {t : Token} (h : Quiet env s) (next : peek env s = .ok t s') : Quiet env s' := by
  intro t' s'' hpeek
  rw [peek_peek next] at hpeek
  cases hpeek
  exact h t s' next

theorem appends_member (hq : quiet = true → Quiet env s) :
    Appends quiet s (after (member d) env s) := by
  have path : FieldPath (Appends quiet) := fieldPath_appends
  have hpure : Along (Appends quiet) (pure d : Reader Draft) := path.pure d
  have hadvance : Along (Appends quiet) advance := path.advance
  cases hpeek : peek env s with
  | error e s₁ =>
    rw [member, after_bind_error hpeek]
    exact path.peek.of_error hpeek
  | ok t s₁ =>
    rw [member, after_bind_ok hpeek]
    refine isPath_appends.trans (path.peek.of_ok hpeek) ?_
    -- comments and directives are the only members that are taken over as they are
    split
    · rename_i hkind
      cases quiet with
      | true => exact absurd hkind (hq rfl t s₁ hpeek).1
      | false => exact path.bind hadvance (fun _ => path.bind (appends_comment t) fun _ => hpure) env s₁
    split
    · rename_i hkind
      cases quiet with
      | true => exact absurd hkind (hq rfl t s₁ hpeek).2
      | false => exact path.bind asidePath_appends.directive (fun _ => hpure) env s₁
    split
    · exact path.bind hadvance (fun _ => hpure) env s₁
    split
    · exact path.throw _ env s₁
    split
    · exact path.throw _ env s₁
    · refine path.bind (path.startsUnion t) (fun _ => ?_) env s₁
      refine .ite (path.openUnion d) (.ite ?_ (path.fieldMember d))
      exact path.bind path.skipNested fun _ => path.throw _

theorem appends_memberRound (hq : quiet = true → Quiet env s) :
    Appends quiet s (after (memberRound d) env s) := by
  have path : FieldPath (Appends quiet) := fieldPath_appends
  have hpure (r : Round Draft (Option Draft)) :
      Along (Appends quiet) (pure r : Reader (Round Draft (Option Draft))) := path.pure r
  rw [memberRound, after_get_bind]
  split
  · exact hpure _ env s
  cases hpeek : peek env s with
  | error e s₁ =>
    rw [after_bind_error hpeek]
    exact path.peek.of_error hpeek
  | ok t s₁ =>
    rw [after_bind_ok hpeek]
    refine isPath_appends.trans (path.peek.of_ok hpeek) ?_
    rw [after_get_bind, memberAt]
    split
    · exact path.bind (path.report _ _) (fun _ => hpure _) env s₁
    split
    · refine path.bind (path.advance) (fun _ => .ite ?_ ?_) env s₁
      · exact path.bind (path.closeUnion d t _) fun _ => hpure _
      · exact .get_bind fun env s => path.bind (path.perform _) (fun _ => hpure _) env s
    · rw [after_bind_pure]
      exact path.after_attempt t _ false d (appends_member fun h => (hq h).peek hpeek)

/-- What the rounds of a body write stands behind what was written before. -/
theorem appends_runs {d₀ : Draft} {s₀ : State}
    (hq : quiet = true → ∀ d s, Runs memberRound env d₀ s₀ d s → Quiet env s)
    (h : Runs memberRound env d₀ s₀ d s) : Appends quiet s₀ s := by
  induction h with
  | start => exact isPath_appends.refl _
  | @next d d' s s' before round _ ih =>
    have hround := appends_memberRound (d := d) fun h => hq h d s before
    rw [after_of_ok round] at hround
    exact isPath_appends.trans ih hround

theorem appends_members {d₁ : Draft}
    (hq : quiet = true → ∀ d' s', Runs memberRound env d s d' s' → Quiet env s')
    (h : members d env s = .ok (some d₁) s') : Appends quiet s s' := by
  obtain ⟨d₂, s₂, hrun, hdone⟩ := members_ok h
  have hround := appends_memberRound (d := d₂) fun h => hq h d₂ s₂ hrun
  rw [after_of_ok hdone] at hround
  exact isPath_appends.trans (appends_runs hq hrun) hround

end RecordView.Declaration
