import RecordView.Proofs.Declaration.History

/-! Where a declaration leads: a relation between states holds along what stands around the members of a
body if it holds along the taking of tokens, along comments and settings, and along what is declared. -/
namespace RecordView.Declaration
open Reader

variable {R : State → State → Prop}

structure EnumPath (R : State → State → Prop) : Prop extends AsidePath R where
  constant : ∀ (s : State) name value, s.constants.contains name = false →
    R s { s with constants := s.constants.set name value }

inductive MemberEnds (env : Env) (s : State) : State → Prop where
  | comma {s' : State} (taken : accept "," env s = .ok true s') : MemberEnds env s s'
  | brace {s₁ s' : State} (no_comma : accept "," env s = .ok false s₁)
      (next : check "\x7d" env s₁ = .ok true s') : MemberEnds env s s'

section Enumerator

variable {env : Env} {s s' : State} {e e' : EnumDraft}

theorem MemberEnds.held (h : MemberEnds env s s') : s'.held = s.held := by
  cases h with
  | comma taken => exact (held_accept _).of_ok taken
  | brace no_comma next => rw [(held_check _).of_ok next, (held_accept _).of_ok no_comma]

/-- A member that is accepted has a name that is new. -/
theorem enumerator_ok (h : enumerator e env s = .ok e' s') :
    ∃ name value s₁ s₂ s₃, expectName .constantName env s = .ok name s₁ ∧
      s₁.constants.contains name.text = false ∧ memberValue e name env s₁ = .ok value s₂ ∧
      MemberEnds env s₂ s₃ ∧ e' = e.add name.text value ∧
      s' = { s₃ with constants := s₃.constants.set name.text value } := by
  obtain ⟨name, s₁, hname, h⟩ := bind_ok.mp h
  rw [get_bind_apply] at h
  split at h
  · cases h
  rename_i hnew
  obtain ⟨value, s₂, hvalue, h⟩ := bind_ok.mp h
  obtain ⟨comma, s₃, hcomma, h⟩ := bind_ok.mp h
  refine ⟨name, value, s₁, s₂, ?_⟩
  cases comma with
  | true =>
    cases h
    exact ⟨s₃, hname, Bool.eq_false_iff.mpr hnew, hvalue, .comma hcomma, rfl, rfl⟩
  | false =>
    obtain ⟨brace, s₄, hbrace, h⟩ := bind_ok.mp h
    cases brace with
    | false =>
      obtain ⟨_, _, -, h⟩ := bind_ok.mp h
      cases h
    | true =>
      cases h
      exact ⟨s₄, hname, Bool.eq_false_iff.mpr hnew, hvalue, .brace hcomma hbrace, rfl, rfl⟩

/-- A member that is refused has only taken tokens. -/
theorem enumerator_error {x : Halt Diagnostic} (h : enumerator e env s = .error x s') :
    s'.held = s.held := by
  rcases bind_error.mp h with h | ⟨name, s₁, hname, h⟩
  · exact (held_expectName _).of_error h
  have held₁ : s₁.held = s.held := (held_expectName _).of_ok hname
  rw [get_bind_apply] at h
  split at h
  · cases h
    exact held₁
  rcases bind_error.mp h with h | ⟨value, s₂, hvalue, h⟩
  · exact ((held_memberValue e name).of_error h).trans held₁
  have held₂ : s₂.held = s.held := ((held_memberValue e name).of_ok hvalue).trans held₁
  rcases bind_error.mp h with h | ⟨comma, s₃, hcomma, h⟩
  · exact ((held_accept _).of_error h).trans held₂
  have held₃ : s₃.held = s.held := ((held_accept _).of_ok hcomma).trans held₂
  cases comma with
  | true => cases h
  | false =>
    rcases bind_error.mp h with h | ⟨brace, s₄, hbrace, h⟩
    · exact ((held_check _).of_error h).trans held₃
    have held₄ : s₄.held = s.held := ((held_check _).of_ok hbrace).trans held₃
    cases brace with
    | true => cases h
    | false =>
      rcases bind_error.mp h with h | ⟨t, s₅, hpeek, h⟩
      · exact (held_peek.of_error h).trans held₄
      · cases h
        exact (held_peek.of_ok hpeek).trans held₄

end Enumerator

namespace EnumPath

variable (hR : EnumPath R)
include hR

theorem enumerator (e : EnumDraft) : Along R (enumerator e) := hR.toTakingPath.enumerator hR.constant e

theorem enumMembers (keyword : Token) (e : EnumDraft) : Along R (enumMembers keyword e) :=
  hR.toAsidePath.enumMembers hR.enumerator keyword e

end EnumPath

/-- A relation that holds along what declarations do besides the members of their bodies. -/
structure DeclarationPath (R : State → State → Prop) : Prop extends EnumPath R, OpeningPath R where
  discardClass : ∀ s : State, R s { s with script := s.script.discardClass }
  register : ∀ t, Along R (register t)
  closeClass : ∀ t, Along R (write fun s => s.script.closeClass s.settings s.registry t)
  addEnum : ∀ name members, Along R (write fun s => s.script.addEnum s.settings name members)

theorem held_openEnum (keyword : Token) (name : Option Token) (backing : Primitive) :
    Keeps State.held (openEnum keyword name backing) := by
  refine .bind .get fun s => ?_
  dsimp only
  split
  · exact .bind (held_report _ _) fun _ => .pure _
  · exact .pure _

namespace DeclarationPath

variable (hR : DeclarationPath R)
include hR

theorem declarations (env : Env) (s₀ : State) : (along R env s₀).comparison.Declarations :=
  { hR.toAsidePath.enums hR.enumerator env s₀, hR.openings env s₀ with
    location := fun _ => trivial
    discard := fun hd => ⟨congrArg (fun d : Draft => { d with discarded := true }) hd.1, trivial⟩
    named := fun name hd => ⟨congrArg (fun d : Draft => { d with name := some name }) hd.1, trivial⟩
    discardClass := Along.same hR.toIsPath fun _ s => hR.discardClass s
    register := fun _ => (hR.register _).same hR.toIsPath
    closeClass := fun _ => (hR.closeClass _).same hR.toIsPath
    warnOfPadding := fun _ _ => (hR.warnOfPadding _ _).same hR.toIsPath
    addEnum := fun name members => (hR.addEnum name members).same hR.toIsPath }

theorem closeAggregate (d : Draft) : Along R (closeAggregate d) :=
  .of_judge hR.toIsPath (0, 0) fun env s => (hR.declarations env s).closeAggregate ⟨rfl, trivial⟩

theorem closing (typedef : Bool) (d : Option Draft) : Along R (closing typedef d) := by
  have hsame (env : Env) (s : State) : Option.Rel (along R env s).comparison.draft d d := by
    cases d with
    | none => exact .none
    | some d => exact .some ⟨rfl, trivial⟩
  exact .of_judge hR.toIsPath (0, 0) fun env s => (hR.declarations env s).closing typedef (hsame env s)

theorem closeEnum (e : EnumDraft) (name : String) : Along R (closeEnum e name) :=
  .of_judge hR.toIsPath (0, 0) fun env s => (hR.declarations env s).closeEnum e name

theorem enumClosing (e : Option EnumDraft) : Along R (enumClosing e) :=
  .of_judge hR.toIsPath (0, 0) fun env s => (hR.declarations env s).enumClosing e

theorem enumeration : Along R enumeration :=
  .of_judge hR.toIsPath (0, 0) fun env s => (hR.declarations env s).enumeration

end DeclarationPath

/-- A statement leads where declarations lead; where it opens a struct or union, this is for the struct
or union to say. -/
theorem path_statementRound {env : Env} {s : State} (hR : DeclarationPath R)
    (haggregate : ∀ form typedef s₁, Enters env s form typedef s₁ →
      R s₁ (after (aggregate form typedef) env s₁)) : R s (after (statementRound ()) env s) :=
  after_statementRound hR.toAsidePath id hR.trans hR.trans (fun _ s₁ _ _ _ => hR.enumeration env s₁)
    haggregate

end RecordView.Declaration
