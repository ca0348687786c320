import RecordView.Proofs.Declaration.History
import RecordView.Proofs.Layout.Change

/-! What is written for a body: the class of a declared type has one accessor for each of its fields
that is no padding, in their order, each made under the settings of the round that places its field. -/
namespace RecordView

def visible (fs : List Field) : List Field := fs.filter (!·.padding)

namespace Script

variable {P : Settings → Prop} {as : List Accessor}

def Member.accessor? : Member → Option Accessor
  | .accessor a => some a
  | .verbatim _ => none

def accessorsOf (ms : List Member) : List Accessor := ms.filterMap Member.accessor?

theorem mem_accessorsOf {ms : List Member} {a : Accessor} : a ∈ accessorsOf ms ↔ .accessor a ∈ ms := by
  constructor
  · intro h
    obtain ⟨m, hm, ha⟩ := List.mem_filterMap.mp h
    cases m with
    | accessor b =>
      cases ha
      exact hm
    | verbatim text => cases ha
  · intro h
    exact List.mem_filterMap.mpr ⟨_, h, rfl⟩

def accessors? (s : Script) : Option (List Accessor) := s.current.map (accessorsOf ·.members)

/-- The accessor is that of the field, under settings with the property. -/
def Serves (P : Settings → Prop) (a : Accessor) (f : Field) : Prop :=
  ∃ u, P u ∧ accessor u f = .ok a

theorem exists_served {α β : Type} {R : α → β → Prop} {as : List α} {fs : List β}
    (h : List.Forall₂ R as fs) {a : α} (ha : a ∈ as) : ∃ f ∈ fs, R a f := by
  induction h with
  | nil => cases ha
  | cons first _ ih =>
    rcases List.mem_cons.mp ha with rfl | ha
    · exact ⟨_, List.mem_cons_self, first⟩
    · obtain ⟨f, hf, hserves⟩ := ih ha
      exact ⟨f, List.mem_cons_of_mem _ hf, hserves⟩

theorem accessors?_verbatim (s : Script) (text : String) :
    (s.verbatim text).accessors? = s.accessors? := by
  unfold verbatim
  split
  · rename_i c hc
    simp [accessors?, hc, accessorsOf, Member.accessor?]
  · rename_i hc
    simp [accessors?, hc]

theorem addField_ok {s s' : Script} {u : Settings} {f : Field} (hs : s.accessors? = some as)
    (hu : P u) (h : s.addField u f = .ok s') :
    ∃ bs, s'.accessors? = some (as ++ bs) ∧ List.Forall₂ (Serves P) bs (visible [f]) := by
  obtain ⟨c, hc, rfl⟩ := Option.map_eq_some_iff.mp hs
  rcases addField_eq_ok_iff.mp h with ⟨hunwritten, rfl⟩ | ⟨c', a, hc', hp, ha, rfl⟩
  · have hp : f.padding = true := hunwritten.resolve_left (by simp [hc])
    refine ⟨[], by rw [hs, List.append_nil], ?_⟩
    simp [visible, hp]
  · cases hc.symm.trans hc'
    refine ⟨[a], ?_, ?_⟩
    · simp [accessors?, addAccessor, accessorsOf, Member.accessor?]
    · have hv : visible [f] = [f] := by simp [visible, hp]
      rw [hv]
      exact .cons ⟨u, hu, ha⟩ .nil

end Script

variable {form : Form} {typedef : Bool} {s₀ : State}

namespace Declaration
open Reader Script

variable {α β : Type} {env : Env} {s s' : State} {d d' : Draft} {P : Settings → Prop} {as : List Accessor}
  {m : Reader α}

/-! ## What is written at once -/

def State.accessors (s : State) : Option (List Accessor) := s.script.accessors?

/-- The open class has got the accessors of some fields, after those that it had. -/
def Gains (P : Settings → Prop) (as : List Accessor) (fs : List Field) (s : State) : Prop :=
  ∃ bs, s.accessors = some (as ++ bs) ∧ List.Forall₂ (Serves P) bs (visible fs)

theorem gains_nil : Gains P as [] s ↔ s.accessors = some as := by
  constructor
  · rintro ⟨bs, hs, hall⟩
    cases hall
    rw [hs, List.append_nil]
  · intro hs
    exact ⟨[], by rw [hs, List.append_nil], .nil⟩

theorem Gains.append {fs gs : List Field} (h : Gains P as fs s)
    (h' : ∀ bs, s.accessors = some bs → Gains P bs gs s') : Gains P as (fs ++ gs) s' := by
  obtain ⟨bs, hs, hb⟩ := h
  obtain ⟨cs, hs', hc⟩ := h' _ hs
  refine ⟨bs ++ cs, by rw [hs', List.append_assoc], ?_⟩
  rw [visible, List.filter_append]
  exact List.rel_append hb hc

theorem Reader.Keeps.accessors (hm : Keeps State.held m) : Keeps State.accessors m :=
  hm.comp State.accessors

def Stands (P : Settings → Prop) (as : List Accessor) (s : State) : Prop :=
  s.accessors = some as ∧ P s.settings

theorem Stands.of_held {a : α} (h : Stands P as s) (hm : Keeps State.held m) (ha : m env s = .ok a s') :
    Stands P as s' := by
  obtain ⟨hs, hP⟩ := h
  exact ⟨(hm.accessors.of_ok ha).trans hs, (hm.context.settings.of_ok ha).symm ▸ hP⟩

theorem write_ok {f : State → Except Failure Script} (h : write f env s = .ok () s') :
    ∃ script, f s = .ok script ∧ s' = { s with script } := by
  rw [write_apply] at h
  cases hf : f s with
  | ok script =>
    rw [hf] at h
    cases h
    exact ⟨script, rfl, rfl⟩
  | error g =>
    rw [hf] at h
    cases h

/-- Fields get their accessors one after another. -/
theorem perform_ok {steps : List Step} (hs : Stands P as s) (h : perform steps env s = .ok () s') :
    Gains P as (steps.filterMap Step.field?) s' := by
  induction steps generalizing s as with
  | nil =>
    cases h
    exact gains_nil.mpr hs.1
  | cons step steps ih =>
    obtain ⟨_, s₁, h₁, hrest⟩ := bind_ok.mp h
    cases step with
    | note n => exact ih (hs.of_held (held_log n) h₁) hrest
    | field f =>
      obtain ⟨script, hf, rfl⟩ := write_ok h₁
      have hfirst : Gains P as [f] { s with script } := addField_ok hs.1 hs.2 hf
      exact hfirst.append fun bs hb => ih ⟨hb, hs.2⟩ hrest

/-- Writing fails or is done, but is never refused. -/
theorem perform_ne_refused (steps : List Step) (e : Diagnostic) :
    perform steps env s ≠ .error (.refused e) s' := by
  induction steps generalizing s with
  | nil =>
    intro h
    cases h
  | cons step steps ih =>
    intro h
    rcases bind_error.mp h with h₁ | ⟨_, s₁, -, hrest⟩
    · cases step with
      | note n =>
        have hlog : log n env s = .error (.refused e) s' := h₁
        unfold log at hlog
        split at hlog <;> cases hlog
      | field f =>
        have hwrite : write (fun s => s.script.addField s.settings f) env s =
            .error (.refused e) s' := h₁
        rw [write_apply] at hwrite
        split at hwrite <;> cases hwrite
    · exact ih hrest

/-! ## Members -/

theorem accessors_comment (t : Token) : Keeps State.accessors (comment t) :=
  Along.comment (R := fun s s' => s'.accessors = s.accessors) (fun _ => rfl) fun s =>
    accessors?_verbatim s.script t.text

theorem accessors_applySetting (name value : String) :
    Keeps State.accessors (applySetting name value) :=
  Along.applySetting (isPath_keeps _) (fun s => accessors?_verbatim s.script value) fun _ _ _ => rfl

theorem accessors_directive : Keeps State.accessors directive :=
  (tokenPath_keeps State.accessors).directive accessors_applySetting

/-- A reading that succeeds has the property, and one that is refused writes no accessor. -/
def Emits (m : Reader α) (env : Env) (s : State) (Q : α → State → Prop) : Prop :=
  (∀ a s', m env s = .ok a s' → Q a s') ∧
    ∀ e s', m env s = .error (.refused e) s' → s'.accessors = s.accessors

theorem Emits.of_keeps {Q : α → State → Prop} (hm : Keeps State.accessors m)
    (h : ∀ a s', m env s = .ok a s' → Q a s') : Emits m env s Q :=
  ⟨h, fun _ _ he => hm.of_error he⟩

theorem Emits.bind {f : α → Reader β} {Q : β → State → Prop} (hm : Keeps State.accessors m)
    (hf : ∀ a s₁, m env s = .ok a s₁ → Emits (f a) env s₁ Q) : Emits (m >>= f) env s Q := by
  constructor
  · intro b s' h
    obtain ⟨a, s₁, h₁, h⟩ := bind_ok.mp h
    exact (hf a s₁ h₁).1 b s' h
  · intro e s' h
    rcases bind_error.mp h with h₁ | ⟨a, s₁, h₁, h⟩
    · exact hm.of_error h₁
    · rw [(hf a s₁ h₁).2 e s' h, hm.of_ok h₁]

theorem Emits.ite {c : Prop} [Decidable c] {m₁ m₂ : Reader α} {Q : α → State → Prop}
    (h₁ : Emits m₁ env s Q) (h₂ : Emits m₂ env s Q) : Emits (if c then m₁ else m₂) env s Q := by
  split
  · exact h₁
  · exact h₂

theorem Emits.refuse {Q : α → State → Prop} (location : Location) (p : Problem) :
    Emits (refuse location p) env s Q := by
  refine .of_keeps (.refuse _ _) fun a s' h => ?_
  cases h

/-- The open class has got the accessors of what has been placed since the draft was `d`. -/
def Writes (P : Settings → Prop) (as : List Accessor) (d d' : Draft) (s : State) : Prop :=
  Gains P as ((d'.steps.drop d.steps.length).filterMap Step.field?) s

theorem writes_same : Writes P as d d s ↔ s.accessors = some as := by
  rw [Writes, List.drop_length]
  exact gains_nil

protected theorem Emits.advanceTo (d d' : Draft) (hs : Stands P as s) :
    Emits (do
      advanceTo d d'
      return d') env s (Writes P as d) := by
  constructor
  · intro d'' s' h
    obtain ⟨_, s₁, h₁, h⟩ := bind_ok.mp h
    cases h
    exact perform_ok hs h₁
  · intro e s' h
    rcases bind_error.mp h with h₁ | ⟨_, s₁, -, h⟩
    · exact absurd h₁ (perform_ne_refused _ e)
    · cases h

theorem Emits.field (d : Draft) (hs : Stands P as s) : Emits (field d) env s (Writes P as d) := by
  refine .bind held_fieldStatement.accessors fun f s₁ h₁ => ?_
  refine .bind (tokenPath_keeps State.accessors).surroundings fun u s₂ h₂ => ?_
  refine .bind (.orThrow _) fun d' s₃ h₃ => ?_
  have hs₂ := (hs.of_held held_fieldStatement h₁).of_held tokenPath_held.surroundings h₂
  exact .advanceTo d d' (hs₂.of_held (.orThrow _) h₃)

theorem Emits.openUnion (d : Draft) (hs : Stands P as s) :
    Emits (openUnion d) env s (Writes P as d) := by
  have last (s₁ : State) (hs₁ : Stands P as s₁) :
      Emits (do
        let d' := d.openUnion (← get).settings
        advanceTo d d'
        return d') env s₁ (Writes P as d) := by
    refine .bind .get fun s₂ s₃ h₃ => ?_
    exact .advanceTo d _ (hs₁.of_held .get h₃)
  refine .bind held_advance.accessors fun keyword s₁ h₁ => ?_
  refine .bind held_advance.accessors fun _ s₂ h₂ => ?_
  have hs₂ := (hs.of_held held_advance h₁).of_held held_advance h₂
  refine .ite (.bind (.refuse _ _) fun _ s₃ h₃ => ?_) (last s₂ hs₂)
  exact last s₃ (hs₂.of_held (.refuse _ _) h₃)

theorem Emits.member (d : Draft) (hs : Stands P as s) : Emits (member d) env s (Writes P as d) := by
  -- a comment, a directive and an empty statement write no accessor
  have same (s₁ : State) (h₁ : s₁.accessors = s.accessors) :
      Emits (pure d) env s₁ (Writes P as d) := by
    refine .of_keeps (.pure d) fun d' s₂ h => ?_
    cases h
    exact writes_same.mpr (h₁.trans hs.1)
  refine .bind held_peek.accessors fun t s₁ h₁ => ?_
  have h₁' : s₁.accessors = s.accessors := held_peek.accessors.of_ok h₁
  have hadvance (a : Token) (s₂ : State) (h₂ : advance env s₁ = .ok a s₂) :
      s₂.accessors = s.accessors := (held_advance.accessors.of_ok h₂).trans h₁'
  refine .ite ?_ (.ite ?_ (.ite ?_ (.ite (.refuse _ _)
    (.ite (.refuse _ _) ?_))))
  · refine .bind held_advance.accessors fun _ s₂ h₂ => ?_
    refine .bind (accessors_comment t) fun _ s₃ h₃ => same s₃ ?_
    exact ((accessors_comment t).of_ok h₃).trans (hadvance _ s₂ h₂)
  · refine .bind accessors_directive fun _ s₂ h₂ => same s₂ ?_
    exact (accessors_directive.of_ok h₂).trans h₁'
  · exact .bind held_advance.accessors fun _ s₂ h₂ => same s₂ (hadvance _ s₂ h₂)
  · refine .bind (held_startsUnion t).accessors fun _ s₂ h₂ => ?_
    have hs₂ := (hs.of_held held_peek h₁).of_held (held_startsUnion t) h₂
    refine .ite (.openUnion d hs₂) (.ite ?_ (.field d hs₂))
    exact .bind (tokenPath_keeps State.accessors).skipNested fun _ s₃ _ => .refuse _ _

/-- After a statement that is refused, no more is written than if it had not stood there. -/
theorem attempt_writes {t : Token} {start : Nat} (hs : Stands P as s)
    (h : attempt t start false d (member d) env s = .ok d' s') : Writes P as d d' s' := by
  obtain ⟨hok, hrefused⟩ : Emits (member d) env s (Writes P as d) := Emits.member d hs
  rw [attempt, tryCatch_apply] at h
  cases hm : member d env s with
  | ok d₁ s₁ =>
    rw [hm] at h
    cases h
    exact hok _ _ hm
  | error e s₁ =>
    rw [hm] at h
    cases e with
    | failed f => cases h
    | refused r =>
      have hrecover : s'.accessors = s₁.accessors :=
        ((tokenPath_keeps State.accessors).recover _ _ _ _ _).of_ok h
      obtain ⟨_, s₂, -, h⟩ := bind_ok.mp h
      obtain ⟨_, s₃, -, h⟩ := bind_ok.mp h
      cases h
      exact writes_same.mpr (by rw [hrecover, hrefused r s₁ hm, hs.1])

theorem closeUnion_writes {brace : Token} {start : Nat} (hs : Stands P as s)
    (h : closeUnion d brace start env s = .ok d' s') : Writes P as d d' s' := by
  obtain ⟨s₁, s₂, hg, h⟩ := bind_ok.mp h
  cases hg
  obtain ⟨_, s₂, h₂, h⟩ := bind_ok.mp h
  obtain ⟨_, s₃, h₃, h⟩ := bind_ok.mp h
  cases h
  have hend : s'.accessors = s₂.accessors := by
    refine Keeps.of_ok ((tokenPath_keeps State.accessors).attempt brace start false () ?_) h₃
    exact Keeps.bind (held_expectAs _ _).accessors fun _ =>
      .ite (.refuse _ _) (.pure _)
  obtain ⟨bs, hb, hall⟩ := perform_ok hs h₂
  exact ⟨bs, hend.trans hb, hall⟩

/-! ## Bodies -/

/-- A round writes the accessors of the fields that it places. -/
theorem memberRound_writes {r : Round Draft (Option Draft)} (hs : Stands P as s)
    (h : memberRound d env s = .ok r s') (hr : r = .again d' ∨ r = .done (some d')) :
    Writes P as d d' s' := by
  cases memberRound_turn h with
  | full => simp at hr
  | ended => simp at hr
  | @unionEnd _ _ _ _ _ d₁ _ next _ _ taken _ closed =>
    obtain rfl : d₁ = d' := by simpa using hr
    exact closeUnion_writes ((hs.of_held held_peek next).of_held held_advance taken) closed
  | @bodyEnd _ _ _ s₂ _ _ next _ taken _ placed =>
    obtain rfl : d.flush s₂.settings = d' := by simpa using hr
    exact perform_ok ((hs.of_held held_peek next).of_held held_advance taken) placed
  | @member _ _ _ d₁ _ next _ read =>
    obtain rfl : d₁ = d' := by simpa using hr
    exact attempt_writes (hs.of_held held_peek next) read

/-! ## Bodies -/

section Bodies

variable {d₀ : Draft} {s₀ : State} {Q : Accessor → Field → Prop}

/-- In the body that is opened with `d₀` in state `s₀`, the field is placed by a round that starts with
these settings. -/
def Places (env : Env) (d₀ : Draft) (s₀ : State) (f : Field) (u : Settings) : Prop :=
  ∃ d s r d' s', Runs memberRound env d₀ s₀ d s ∧ memberRound d env s = .ok r s' ∧
    (r = .again d' ∨ r = .done (some d')) ∧ f ∈ d'.fields.drop d.fields.length ∧ s.settings = u

/-- The accessor of the field is made when the field is placed. -/
def Makes (env : Env) (d₀ : Draft) (s₀ : State) (a : Accessor) (f : Field) : Prop :=
  ∃ u, Places env d₀ s₀ f u ∧ accessor u f = .ok a

/-- The open class has accessors for what the draft has placed. -/
def Served (Q : Accessor → Field → Prop) (d : Draft) (s : State) : Prop :=
  ∃ as, s.accessors = some as ∧ List.Forall₂ Q as (visible d.fields)

theorem forall₂_mem {R : α → β → Prop} {xs : List α} {ys : List β} (h : List.Forall₂ R xs ys) :
    List.Forall₂ (fun x y => R x y ∧ y ∈ ys) xs ys := by
  induction h with
  | nil => exact .nil
  | cons first _ ih =>
    exact .cons ⟨first, List.mem_cons_self⟩ (ih.imp fun _ _ h => ⟨h.1, List.mem_cons_of_mem _ h.2⟩)

/-- A round adds the accessors of the fields that it places. -/
theorem Served.step {r : Round Draft (Option Draft)} (h : Served Q d s)
    (hQ : ∀ a f, Makes env d₀ s₀ a f → Q a f) (hrun : Runs memberRound env d₀ s₀ d s)
    (hround : memberRound d env s = .ok r s') (hr : r = .again d' ∨ r = .done (some d'))
    (hsteps : d.steps <+: d'.steps) : Served Q d' s' := by
  obtain ⟨as, hs, hold⟩ := h
  obtain ⟨bs, hs', hnew⟩ := memberRound_writes (P := (· = s.settings)) ⟨hs, rfl⟩ hround hr
  obtain ⟨steps, hsteps⟩ := hsteps
  have hfields : d'.fields = d.fields ++ (d'.steps.drop d.steps.length).filterMap Step.field? := by
    rw [Draft.fields, Draft.fields, ← hsteps, List.filterMap_append, List.drop_left]
  refine ⟨as ++ bs, hs', ?_⟩
  rw [hfields, visible, List.filter_append]
  refine List.rel_append hold ((forall₂_mem hnew).imp fun a f => ?_)
  rintro ⟨⟨u, rfl, ha⟩, hf⟩
  refine hQ a f ⟨s.settings, ⟨d, s, r, d', s', hrun, hround, hr, ?_, rfl⟩, ha⟩
  rw [hfields, List.drop_left]
  exact (List.mem_filter.mp hf).1

theorem runs_served (hQ : ∀ a f, Makes env d₀ s₀ a f → Q a f) (hrun : Runs memberRound env d₀ s₀ d s)
    (h₀ : Served Q d₀ s₀) : Served Q d s := by
  induction hrun with
  | start => exact h₀
  | next before round _ ih => exact ih.step hQ before round (.inl rfl) (memberRound_again round).follows.steps

theorem members_served {d₁ : Draft} (hQ : ∀ a f, Makes env d₀ s₀ a f → Q a f)
    (h : members d₀ env s₀ = .ok (some d₁) s') (h₀ : Served Q d₀ s₀) : Served Q d₁ s' := by
  obtain ⟨d₂, s₂, hrun, hdone⟩ := members_ok h
  refine (runs_served hQ hrun h₀).step hQ hrun hdone (.inr rfl) ?_
  obtain ⟨-, rfl, -⟩ := memberRound_done hdone
  exact (Draft.follows_flush _ d₂).steps

/-- Under these settings something in a body is declared. -/
def InForce (env : Env) (d₀ : Draft) (s₀ : State) (u : Settings) : Prop :=
  ∃ d s, Runs memberRound env d₀ s₀ d s ∧ Acts env d s ∧ s.settings = u

theorem Places.inForce {f : Field} {u : Settings} (h : Places env d₀ s₀ f u) : InForce env d₀ s₀ u := by
  obtain ⟨d, s, r, d', s', hrun, hround, hr, hf, hu⟩ := h
  refine ⟨d, s, hrun, ?_, hu⟩
  rcases hr with rfl | rfl
  · refine .inl ⟨d', s', hround, ?_⟩
    rintro rfl
    rw [List.drop_length] at hf
    cases hf
  · exact .inr ⟨d', s', hround⟩

theorem Makes.serves {a : Accessor} {f : Field} (h : Makes env d₀ s₀ a f) :
    Serves (InForce env d₀ s₀) a f := by
  obtain ⟨u, hplaces, ha⟩ := h
  exact ⟨u, hplaces.inForce, ha⟩

def Serving (P : Settings → Prop) (d : Draft) (s : State) : Prop := Gains P [] d.fields s

theorem runs_serving (h : Runs memberRound env d₀ s₀ d s)
    (h₀ : Serving (InForce env d₀ s₀) d₀ s₀) : Serving (InForce env d₀ s₀) d s :=
  runs_served (fun _ _ => Makes.serves) h h₀

end Bodies

theorem opening_class (h : opening form typedef env s = .ok d s') :
    ∃ name, s'.script.current = some { name } := by
  obtain ⟨-, script, name, hopen⟩ := opening_header h
  exact ⟨name, by rw [hopen]; rfl⟩

theorem opening_served {Q : Accessor → Field → Prop} (h : opening form typedef env s = .ok d s') :
    Served Q d s' := by
  have hfields : d.fields = [] := by
    rw [Draft.fields, (opening_ok h).1.steps_eq]
    rfl
  obtain ⟨name, hopen⟩ := opening_class h
  refine ⟨[], ?_, ?_⟩
  · rw [State.accessors, accessors?, hopen]
    rfl
  · rw [hfields]
    exact .nil

theorem opening_serving (h : opening form typedef env s = .ok d s') : Serving P d s' := opening_served h

/-! ## The whole description -/

/-- When a struct or union is to be declared, the open class has the accessors of its fields, each made when
its field was placed. -/
theorem Completes.makes {t : TypeInfo} (hrun : Runs statementRound env () s₀ () s) (h : Completes env s t s')
    (ht : t.backing = none) :
    ∃ d₀ s₁ as, Opens env s₀ d₀ s₁ ∧ Closes env d₀ s₁ t ∧ s'.accessors = some as ∧
      List.Forall₂ (Makes env d₀ s₁) as (visible t.fields) := by
  cases h with
  | enum => cases ht
  | @aggregate form typedef s₁ s₂ s₃ _ d₀ d₁ _ enters opens body ends =>
    obtain ⟨as, hs, hall⟩ := members_served (fun _ _ ha => ha) body (opening_served opens)
    refine ⟨d₀, s₂, as, ⟨s, s₁, form, typedef, hrun, enters, opens⟩, ends.closes body, ?_, ?_⟩
    · show s'.held.accessors = some as
      rw [ends.held]
      exact hs
    · obtain ⟨name, hfinish⟩ := ends.finish
      obtain ⟨-, rfl⟩ := finish_some hfinish
      exact hall

theorem Completes.serving {t : TypeInfo} (hrun : Runs statementRound env () s₀ () s)
    (h : Completes env s t s') (ht : t.backing = none) :
    ∃ d₀ s₁ as, Opens env s₀ d₀ s₁ ∧ Closes env d₀ s₁ t ∧ s'.accessors = some as ∧
      List.Forall₂ (Serves (InForce env d₀ s₁)) as (visible t.fields) := by
  obtain ⟨d₀, s₁, as, hopens, hcloses, has, hmakes⟩ := h.makes hrun ht
  exact ⟨d₀, s₁, as, hopens, hcloses, has, hmakes.imp fun _ _ => Makes.serves⟩

/-- Every class of the script is that of a declared type, and has one accessor for each of its fields
that is no padding. -/
theorem read_serves (env : Env) (h₀ : s₀.script.decls = []) :
    ∀ c, .classDecl c ∈ (read env s₀).1.script.items →
      ∃ t ∈ (read env s₀).1.registry.types, t.name = c.name ∧
        ∃ d₀ s₁, Opens env s₀ d₀ s₁ ∧ Closes env d₀ s₁ t ∧
          List.Forall₂ (Serves (InForce env d₀ s₁)) (accessorsOf c.members) (visible t.fields) := by
  let P (r : Registry) (items : List Item) : Prop := ∀ c, .classDecl c ∈ items →
    ∃ t ∈ r.types, t.name = c.name ∧ ∃ d₀ s₁, Opens env s₀ d₀ s₁ ∧ Closes env d₀ s₁ t ∧
      List.Forall₂ (Serves (InForce env d₀ s₁)) (accessorsOf c.members) (visible t.fields)
  have hstart : P s₀.registry s₀.script.decls := by
    rw [h₀]
    intro c hc
    cases hc
  have hall : P (read env s₀).1.registry (read env s₀).1.script.decls := by
    refine (output_growth hstart ?_).2
    intro s t s' items hrun hs ht hputs c hc
    rcases List.mem_append.mp hc with hc | hc
    · obtain ⟨u, hu, hrest⟩ := hs c hc
      exact ⟨u, List.mem_append_left _ hu, hrest⟩
    · cases hputs with
      | nothing => cases hc
      | enum e => simp at hc
      | @aggregate o backing current =>
        obtain ⟨d₀, s₁, as, hopens, hcloses, has, hserves⟩ := ht.serving hrun backing
        have heq : accessorsOf o.members = as := by
          rw [State.accessors, accessors?, current] at has
          exact Option.some.inj has
        have hc' : c = classOf s'.settings ⟨s'.registry.types ++ [t]⟩ t o := by simpa using hc
        subst hc'
        subst heq
        exact ⟨t, List.mem_append_right _ (List.mem_singleton_self t), rfl, d₀, s₁, hopens, hcloses,
          hserves⟩
  intro c hc
  refine hall c ?_
  simpa [decls, Item.isDecl] using hc

end Declaration
end RecordView
