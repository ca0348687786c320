import RecordView.Proofs.Reader.Advance
import RecordView.Proofs.Reader.Frame

/-! How a round of a body or of the description goes, what a round of the body of a struct or union can do
to the draft, and how a body is opened. -/
namespace RecordView

inductive Draft.Change (u : Surroundings) (d : Draft) : Draft → Prop where
  | same : Change u d d
  | field (f : FieldStatement) {c : Content} (h : f.resolve u d = .ok c) : Change u d (f.put u d c)
  | openUnion (h : d.inUnion = false) : Change u d (d.openUnion u.settings)
  | closeUnion (h : d.inAnonymousUnion = true) : Change u d (d.closeUnion u.settings).1

variable {r : Registry} {form : Form}

namespace Declaration

def State.surroundings (env : Env) (s : State) : Surroundings :=
  ⟨s.settings, s.registry, s.constants, env.padding⟩

namespace Reader

variable {env : Env} {s s' : State} {d d' : Draft}

/-! ## Rounds of a body -/

theorem surroundings_eq (h : s'.context = s.context) : s'.surroundings env = s.surroundings env := by
  simp only [State.context, Prod.mk.injEq] at h
  obtain ⟨hs, hr, hc, -⟩ := h
  simp only [State.surroundings, hs, hr, hc]

/-- A field is read and accepted. -/
theorem field_ok (h : field d env s = .ok d' s') : ∃ f s₁ c, fieldStatement env s = .ok f s₁ ∧
    f.resolve (s.surroundings env) d = .ok c ∧ d' = f.put (s.surroundings env) d c := by
  obtain ⟨f, s₁, hf, h⟩ := bind_ok.mp h
  obtain ⟨u, s₂, hu, h⟩ := bind_ok.mp h
  obtain ⟨d₁, s₃, hd, h⟩ := bind_ok.mp h
  obtain ⟨_, s₄, -, h⟩ := bind_ok.mp h
  cases h
  have hu' : u = s.surroundings env := by
    cases hu
    exact surroundings_eq (held_fieldStatement.context.of_ok hf)
  subst hu'
  cases hr : f.declare (s.surroundings env) d with
  | error e =>
    rw [hr] at hd
    cases hd
  | ok d₂ =>
    rw [hr] at hd
    cases hd
    obtain ⟨c, hc, hp⟩ := bind_eq_ok_iff.mp hr
    cases hp
    exact ⟨f, s₁, c, hf, hc, rfl⟩

theorem openUnion_ok (h : openUnion d env s = .ok d' s') :
    d.inUnion = false ∧ d' = d.openUnion s.settings := by
  obtain ⟨keyword, s₁, h₁, h⟩ := bind_ok.mp h
  obtain ⟨_, s₂, h₂, h⟩ := bind_ok.mp h
  have hs : s₂.context = s.context := by
    rw [held_advance.context.of_ok h₂, held_advance.context.of_ok h₁]
  dsimp only at h
  split at h
  · cases h
  · rename_i hd
    obtain ⟨s₃, s₄, hg, h⟩ := bind_ok.mp h
    cases hg
    obtain ⟨_, s₅, -, h⟩ := bind_ok.mp h
    cases h
    have hset : s₂.settings = s.settings := congrArg Prod.fst hs
    rw [hset]
    exact ⟨Bool.eq_false_iff.mpr hd, rfl⟩

theorem closeUnion_ok {brace : Token} {start : Nat}
    (h : closeUnion d brace start env s = .ok d' s') : d' = (d.closeUnion s.settings).1 := by
  obtain ⟨s₁, s₂, hg, h⟩ := bind_ok.mp h
  cases hg
  obtain ⟨_, s₃, -, h⟩ := bind_ok.mp h
  obtain ⟨_, s₄, -, h⟩ := bind_ok.mp h
  cases h
  rfl

theorem attempt_ok {α : Type} {t : Token} {start : Nat} {commaEnds : Bool} {fallback a : α}
    {m : Reader α} (h : attempt t start commaEnds fallback m env s = .ok a s') :
    m env s = .ok a s' ∨
      (a = fallback ∧ ∃ x s₁, m env s = .error (.refused x) s₁ ∧
        synchronize t.line start commaEnds env { s₁ with report := s₁.report.add (located env x t) } =
          .ok () s') := by
  rw [attempt, tryCatch_apply] at h
  cases hm : m env s with
  | ok b s₁ =>
    rw [hm] at h
    exact .inl h
  | error e s₁ =>
    rw [hm] at h
    cases e with
    | failed f => cases h
    | refused r =>
      dsimp only at h
      rw [recover_refused] at h
      obtain ⟨_, s₂, hsync, h⟩ := bind_ok.mp h
      cases h
      exact .inr ⟨rfl, r, s₁, rfl, hsync⟩

theorem member_ok (h : member d env s = .ok d' s') : Draft.Change (s.surroundings env) d d' := by
  obtain ⟨t, s₁, hp, h⟩ := bind_ok.mp h
  have hs : s₁.context = s.context := held_peek.context.of_ok hp
  -- a comment, a directive and an empty statement leave the draft as it is
  split at h
  · obtain ⟨_, s₂, -, h⟩ := bind_ok.mp h
    obtain ⟨_, s₃, -, h⟩ := bind_ok.mp h
    cases h
    exact .same
  split at h
  · obtain ⟨_, s₂, -, h⟩ := bind_ok.mp h
    cases h
    exact .same
  split at h
  · obtain ⟨_, s₂, -, h⟩ := bind_ok.mp h
    cases h
    exact .same
  split at h
  · cases h
  split at h
  · cases h
  obtain ⟨_, s₂, hu, h⟩ := bind_ok.mp h
  have hs₂ : s₂.context = s.context := by rw [(held_startsUnion t).context.of_ok hu, hs]
  rw [← surroundings_eq hs₂]
  split at h
  · obtain ⟨hd, rfl⟩ := openUnion_ok h
    exact .openUnion hd
  split at h
  · obtain ⟨_, s₃, -, h⟩ := bind_ok.mp h
    cases h
  · obtain ⟨f, _, c, -, hc, rfl⟩ := field_ok h
    exact .field f hc

/-- How a round of the body of a struct or union goes: there are too many errors, the input ends, a
brace ends an anonymous union or the body, or a member is read. -/
inductive MemberTurn (env : Env) (d : Draft) (s : State) : Round Draft (Option Draft) → State → Prop where
  | full (full : s.report.full = true) : MemberTurn env d s (.done none) s
  | ended {t : Token} {s₁ s' : State} (going : s.report.full = false) (next : peek env s = .ok t s₁)
      (reported : report d.location (.malformed (.incomplete d.form)) env s₁ = .ok () s') :
      MemberTurn env d s (.done none) s'
  | unionEnd {t x : Token} {s₁ s₂ s' : State} {d' : Draft} (going : s.report.full = false)
      (next : peek env s = .ok t s₁) (kind : t.kind ≠ .eof) (brace : t.isSymbol "\x7d" = true)
      (taken : advance env s₁ = .ok x s₂) (anonymous : d.inAnonymousUnion = true)
      (closed : closeUnion d t s₁.taken env s₂ = .ok d' s') : MemberTurn env d s (.again d') s'
  | bodyEnd {t x : Token} {s₁ s₂ s' : State} (going : s.report.full = false)
      (next : peek env s = .ok t s₁) (kind : t.kind ≠ .eof) (taken : advance env s₁ = .ok x s₂)
      (outside : d.inAnonymousUnion = false)
      (placed : advanceTo d (d.flush s₂.settings) env s₂ = .ok () s') :
      MemberTurn env d s (.done (some (d.flush s₂.settings))) s'
  | member {t : Token} {s₁ s' : State} {d' : Draft} (going : s.report.full = false)
      (next : peek env s = .ok t s₁) (kind : t.kind ≠ .eof)
      (read : attempt t s₁.taken false d (member d) env s₁ = .ok d' s') :
      MemberTurn env d s (.again d') s'

theorem memberRound_turn {r : Round Draft (Option Draft)} (h : memberRound d env s = .ok r s') :
    MemberTurn env d s r s' := by
  rw [memberRound, get_bind_apply] at h
  split at h
  · rename_i hfull
    cases h
    exact .full hfull
  rename_i hgoing
  have going := Bool.eq_false_iff.mpr hgoing
  obtain ⟨t, s₁, next, h⟩ := bind_ok.mp h
  rw [get_bind_apply, memberAt] at h
  split at h
  · obtain ⟨_, s₂, reported, h⟩ := bind_ok.mp h
    cases h
    exact .ended going next reported
  rename_i kind
  split at h
  · rename_i brace
    obtain ⟨x, s₂, taken, h⟩ := bind_ok.mp h
    split at h
    · rename_i anonymous
      obtain ⟨d', s₃, closed, h⟩ := bind_ok.mp h
      cases h
      exact .unionEnd going next kind brace taken anonymous closed
    · rename_i outside
      rw [get_bind_apply] at h
      obtain ⟨_, s₃, placed, h⟩ := bind_ok.mp h
      cases h
      exact .bodyEnd going next kind taken (Bool.eq_false_iff.mpr outside) placed
  · obtain ⟨d', s₂, read, h⟩ := bind_ok.mp h
    cases h
    exact .member going next kind read

/-- How a round of the body of an enum goes. -/
inductive EnumRoundTurn (env : Env) (keyword : Token) (e : EnumDraft) (s : State) :
    Round EnumDraft (Option EnumDraft) → State → Prop where
  | full (full : s.report.full = true) : EnumRoundTurn env keyword e s (.done none) s
  | ended {t : Token} {s₁ s' : State} (going : s.report.full = false) (next : peek env s = .ok t s₁)
      (reported : report keyword.location (.malformed (.incomplete .enum)) env s₁ = .ok () s') :
      EnumRoundTurn env keyword e s (.done none) s'
  | bodyEnd {t x : Token} {s₁ s' : State} (going : s.report.full = false) (next : peek env s = .ok t s₁)
      (taken : advance env s₁ = .ok x s') : EnumRoundTurn env keyword e s (.done (some e)) s'
  | member {t : Token} {s₁ s' : State} {e' : EnumDraft} (going : s.report.full = false)
      (next : peek env s = .ok t s₁) (kind : t.kind ≠ .eof)
      (read : attempt t s₁.taken true e (enumMember e) env s₁ = .ok e' s') :
      EnumRoundTurn env keyword e s (.again e') s'

theorem turn_of_enumRound {keyword : Token} {e : EnumDraft} {r : Round EnumDraft (Option EnumDraft)}
    (h : enumRound keyword e env s = .ok r s') : EnumRoundTurn env keyword e s r s' := by
  rw [enumRound, get_bind_apply] at h
  split at h
  · rename_i hfull
    cases h
    exact .full hfull
  rename_i hgoing
  have going := Bool.eq_false_iff.mpr hgoing
  obtain ⟨t, s₁, next, h⟩ := bind_ok.mp h
  rw [get_bind_apply, enumeratorAt] at h
  split at h
  · obtain ⟨_, s₂, reported, h⟩ := bind_ok.mp h
    cases h
    exact .ended going next reported
  rename_i kind
  split at h
  · obtain ⟨x, s₂, taken, h⟩ := bind_ok.mp h
    cases h
    exact .bodyEnd going next taken
  · obtain ⟨e', s₂, read, h⟩ := bind_ok.mp h
    cases h
    exact .member going next kind read

/-- How a round of the whole description goes. -/
inductive StatementTurn (env : Env) (s : State) : Round Unit Unit → State → Prop where
  | full (full : s.report.full = true) : StatementTurn env s (.done ()) s
  | ended {t : Token} {s' : State} (going : s.report.full = false) (next : peek env s = .ok t s')
      (kind : t.kind = .eof) : StatementTurn env s (.done ()) s'
  | statement {t : Token} {s₁ s' : State} (going : s.report.full = false) (next : peek env s = .ok t s₁)
      (kind : t.kind ≠ .eof) (read : attempt t s₁.taken false () statement env s₁ = .ok () s') :
      StatementTurn env s (.again ()) s'

theorem turn_of_statementRound {r : Round Unit Unit} (h : statementRound () env s = .ok r s') :
    StatementTurn env s r s' := by
  rw [statementRound, get_bind_apply] at h
  split at h
  · rename_i hfull
    cases h
    exact .full hfull
  rename_i hgoing
  have going := Bool.eq_false_iff.mpr hgoing
  obtain ⟨t, s₁, next, h⟩ := bind_ok.mp h
  rw [get_bind_apply, statementAt] at h
  split at h
  · rename_i kind
    cases h
    exact .ended going next kind
  · rename_i kind
    obtain ⟨_, s₂, read, h⟩ := bind_ok.mp h
    cases h
    exact .statement going next kind read

/-- A round goes on with one of the changes, or reads the closing brace of the body and places the
bit fields that still wait, or gives up. The settings are those at its start. -/
theorem memberRound_ok {r : Round Draft (Option Draft)} (h : memberRound d env s = .ok r s') :
    (∃ d', r = .again d' ∧ Draft.Change (s.surroundings env) d d') ∨
      (r = .done (some (d.flush s.settings)) ∧ d.inAnonymousUnion = false ∧
        s'.context = s.context) ∨ r = .done none := by
  cases memberRound_turn h with
  | full => exact .inr (.inr rfl)
  | ended => exact .inr (.inr rfl)
  | @unionEnd t _ s₁ s₂ _ d₁ _ next _ _ taken anonymous closed =>
    have hs₂ : s₂.context = s.context := by
      rw [held_advance.context.of_ok taken, held_peek.context.of_ok next]
    rw [← surroundings_eq hs₂]
    obtain rfl := closeUnion_ok closed
    exact .inl ⟨_, rfl, .closeUnion anonymous⟩
  | @bodyEnd t _ s₁ s₂ _ _ next _ taken outside placed =>
    have hs₂ : s₂.context = s.context := by
      rw [held_advance.context.of_ok taken, held_peek.context.of_ok next]
    have hset : s₂.settings = s.settings := congrArg Prod.fst hs₂
    refine .inr (.inl ⟨by rw [hset], outside, ?_⟩)
    rw [Keeps.of_ok (fieldPath_context.perform _) placed, hs₂]
  | @member t s₁ _ d₁ _ next _ read =>
    rcases attempt_ok read with hm | ⟨rfl, -⟩
    · rw [← surroundings_eq (held_peek.context.of_ok next)]
      exact .inl ⟨d₁, rfl, member_ok hm⟩
    · exact .inl ⟨d₁, rfl, .same⟩

theorem memberRound_again (h : memberRound d env s = .ok (.again d') s') :
    Draft.Change (s.surroundings env) d d' := by
  rcases memberRound_ok h with ⟨d₁, hr, hc⟩ | ⟨hr, -, -⟩ | hr
  · cases hr
    exact hc
  · cases hr
  · cases hr

theorem memberRound_done (h : memberRound d env s = .ok (.done (some d')) s') :
    d.inAnonymousUnion = false ∧ d' = d.flush s.settings ∧ s'.context = s.context := by
  rcases memberRound_ok h with ⟨d₁, hr, hc⟩ | ⟨hr, hd, hs⟩ | hr
  · cases hr
  · cases hr
    exact ⟨hd, rfl, hs⟩
  · cases hr

end Reader

/-- A round takes the draft `d` to `d'`, whether the body goes on or ends with it. -/
def Turns (env : Env) (d : Draft) (s : State) (d' : Draft) : Prop :=
  ∃ s', Reader.memberRound d env s = .ok (.again d') s' ∨
    Reader.memberRound d env s = .ok (.done (some d')) s'

/-- A round changes the draft, or ends the body. -/
def Acts (env : Env) (d : Draft) (s : State) : Prop :=
  (∃ d' s', Reader.memberRound d env s = .ok (.again d') s' ∧ d' ≠ d) ∨
    ∃ d' s', Reader.memberRound d env s = .ok (.done (some d')) s'

/-! ## How a body is opened -/

/-- A draft as a header leaves it: nothing is placed, and it starts from the end of the type that it
extends, if there is one, and with the names of its fields. Unless it is discarded, its name is
free. -/
structure Fresh (r : Registry) (form : Form) (d : Draft) : Prop where
  form_eq : d.form = form
  steps_eq : d.steps = []
  run_eq : d.run = {}
  overlap_eq : d.overlap = if form = .union then some {} else none
  start : (d.parent = none ∧ d.names = [] ∧ d.cursor = 0 ∧ d.alignment = 1) ∨
    ∃ p, r.find? p.name = some p ∧ d.parent = some p.name ∧ d.cursor = p.byteLength ∧
      d.alignment = p.alignment ∧ d.names = (r.allFields p).map (·.name) ∧
      p.isAggregate = true ∧ p.hasFlexible = false ∧ form ≠ .union
  free : d.discarded = false → ∀ name, d.name = some name → r.taken name = false

theorem find?_name {name : String} {t : TypeInfo} (h : r.find? name = some t) : r.find? t.name = some t := by
  have hn : t.name = name := by simpa using List.find?_some h
  rw [hn, h]

theorem fresh_discard {h : Header} (hf : Fresh r form h.draft) (location : Location) (p : Problem) :
    Fresh r form (h.discard location p).draft :=
  { hf with free := fun hd => by cases hd }

theorem fresh_withParent {h : Header} {parent : Option Token} (hf : Fresh r form h.draft) :
    Fresh r form (h.withParent r parent).draft := by
  unfold Header.withParent
  split
  · exact hf
  · rename_i t
    split
    · exact fresh_discard hf _ _
    · rename_i p hp
      obtain ⟨hp, haggregate⟩ := Option.filter_eq_some_iff.mp hp
      split
      · exact fresh_discard hf _ _
      rename_i hclosed
      split
      · exact fresh_discard hf _ _
      · rename_i hform
        rw [hf.form_eq] at hform
        exact { hf with
          start := .inr ⟨p, find?_name hp, rfl, rfl, rfl, rfl, haggregate,
            Bool.eq_false_iff.mpr hclosed, hform⟩ }

theorem fresh_withName (r : Registry) (form : Form) (typedef : Bool) (location : Location)
    (name : Option Token) :
    Fresh r form (Header.withName
      ⟨.empty (if typedef then none else name.map (·.text)) form location typedef, [], []⟩ r
        name).draft := by
  have hempty (given : Option String) (location : Location) (discarded : Bool)
      (hg : discarded = false → ∀ n, given = some n → r.taken n = false) :
      Fresh r form { Draft.empty given form location typedef with discarded } :=
    ⟨rfl, rfl, rfl, rfl, .inl ⟨rfl, rfl, rfl, rfl⟩, hg⟩
  have hdiscarded (given : Option String) (location : Location) :
      Fresh r form { Draft.empty given form location typedef with discarded := true } :=
    hempty given location true fun h => by cases h
  unfold Header.withName
  cases typedef with
  | true => exact hempty none _ false fun _ n hn => by cases hn
  | false =>
    cases name with
    | none => exact hdiscarded _ _
    | some t =>
      simp only [Draft.empty, Bool.false_eq_true, if_false]
      split
      · exact hdiscarded _ _
      · rename_i hfree
        refine hempty _ _ false fun _ n hn => ?_
        cases hn
        exact Bool.eq_false_iff.mpr hfree

theorem fresh_header (r : Registry) (form : Form) (typedef : Bool) (keyword : Token)
    (name parent : Option Token) :
    Fresh r form (Header.of r form typedef keyword name parent).draft :=
  fresh_withParent (fresh_withName r form typedef keyword.location name)

namespace Reader

variable {env : Env} {s s' : State} {d d' : Draft}

/-- Behind the brace of a head the types are those before it. -/
theorem headed_ok {β γ : Type} {x : Reader β} {k : Token → Option Token → β → Reader γ} {c : γ}
    (hx : Keeps State.held x) (h : (advance >>= fun t => headed x (k t)) env s = .ok c s') :
    ∃ keyword name b s₁ s₂ s₃, (advance >>= fun _ => declaredName) env s = .ok name s₁ ∧
      x env s₁ = .ok b s₂ ∧ s₃.registry = s.registry ∧ k keyword name b env s₃ = .ok c s' := by
  obtain ⟨keyword, s₁, h₁, h⟩ := bind_ok.mp h
  obtain ⟨name, s₂, h₂, h⟩ := bind_ok.mp h
  obtain ⟨b, s₃, h₃, h⟩ := bind_ok.mp h
  obtain ⟨_, s₄, h₄, h⟩ := bind_ok.mp h
  obtain ⟨_, s₅, h₅, h⟩ := bind_ok.mp h
  have hc : s₄.context = s.context := by
    rw [(held_expectAs _ _).context.of_ok h₄, hx.context.of_ok h₃,
      (Keeps.context tokenPath_held.declaredName).of_ok h₂, held_advance.context.of_ok h₁]
  cases h₅
  exact ⟨keyword, name, b, s₂, s₃, _, bind_ok.mpr ⟨keyword, s₁, h₁, h₂⟩, h₃, congrArg (·.2.1) hc, h⟩

/-- A body is opened with the draft of its header, and with a class that has no members. -/
theorem opening_header {typedef : Bool} (h : opening form typedef env s = .ok d s') :
    (∃ keyword name parent s₁ s₂, (advance >>= fun _ => declaredName) env s = .ok name s₁ ∧
        parentName env s₁ = .ok parent s₂ ∧
        d = (Header.of s.registry form typedef keyword name parent).draft) ∧
      ∃ script name, s'.script = Script.openClass script name := by
  obtain ⟨keyword, name, parent, _, _, s₁, hname, hparent, hr, h⟩ := headed_ok tokenPath_held.parentName h
  obtain ⟨_, _, hget, h⟩ := bind_ok.mp h
  obtain ⟨_, s₂, -, h⟩ := bind_ok.mp h
  obtain ⟨_, s₃, -, h⟩ := bind_ok.mp h
  obtain ⟨_, s₄, h₄, h⟩ := bind_ok.mp h
  obtain ⟨_, s₅, h₅, h⟩ := bind_ok.mp h
  cases h
  cases h₄
  cases hget
  rw [← hr]
  exact ⟨⟨keyword, name, parent, _, _, hname, hparent, rfl⟩, _, _,
    (congrArg State.script ((held_log _).of_ok h₅) :)⟩

theorem opening_ok {typedef : Bool} (h : opening form typedef env s = .ok d s') :
    Fresh s.registry form d ∧ s'.context = s.context := by
  obtain ⟨⟨_, _, _, _, _, -, -, rfl⟩, -⟩ := opening_header h
  exact ⟨fresh_header _ _ _ _ _ _, (context_opening form typedef).of_ok h⟩

end Reader
end Declaration
end RecordView
