import Mathlib.Logic.Relation
import RecordView.Proofs.Declaration.Path

/-! What a reading does to its state besides taking tokens: every reading is a sequence of events, and
types are declared and written only once a body has been opened. -/
namespace RecordView.Declaration
open Reader

variable {α β : Type} {env : Env} {s s' : State} {f : α → Reader β}

inductive Event : State → State → Prop where
  | tokens {s s' : State} (held : s'.held = s.held) : Event s s'
  | comment (s : State) (t : Token) :
      Event s { s with
        commentSeen := true
        script := if keepsComment s then s.script.verbatim t.text else s.script }
  | inject (s : State) (text : String) : Event s { s with script := s.script.verbatim text }
  | setting {s : State} {name value : String} {u : Settings}
      (applied : s.settings.apply name value s.declared = .ok u) : Event s { s with settings := u }
  | opened (s : State) : Event s { s with declared := true }
  | constant (s : State) (name : String) (value : Constant) :
      Event s { s with constants := s.constants.set name value }
  | openClass {s : State} (name : Option String) (declared : s.declared = true) :
      Event s { s with script := s.script.openClass name }
  | discardClass (s : State) : Event s { s with script := s.script.discardClass }
  | field {s : State} {f : Field} {script : Script} (declared : s.declared = true)
      (added : s.script.addField s.settings f = .ok script) : Event s { s with script }
  | register {s : State} {t : TypeInfo} {registry : Registry} (declared : s.declared = true)
      (registered : s.registry.register t = .ok registry) : Event s { s with registry }
  | closeClass {s : State} {t : TypeInfo} {script : Script} (declared : s.declared = true)
      (closed : s.script.closeClass s.settings s.registry t = .ok script) : Event s { s with script }
  | addEnum {s : State} {name : String} {members : List (String × Constant)} {script : Script}
      (declared : s.declared = true) (added : s.script.addEnum s.settings name members = .ok script) :
      Event s { s with script }

abbrev Leads : State → State → Prop := Relation.ReflTransGen Event

theorem Event.declared (h : Event s s') (hs : s.declared = true) : s'.declared = true := by
  cases h with
  | tokens held =>
    have heq : s'.declared = s.declared := (congrArg State.declared held :)
    rw [heq, hs]
  | opened => rfl
  | _ => exact hs

theorem Leads.declared (h : Leads s s') (hs : s.declared = true) : s'.declared = true := by
  induction h with
  | refl => exact hs
  | tail _ event ih => exact event.declared ih

/-- What each event keeps, a sequence of events keeps. -/
theorem Leads.keeps {P : State → Prop} (h : Leads s s') (hP : ∀ s s', Event s s' → P s → P s')
    (hs : P s) : P s' := by
  induction h with
  | refl => exact hs
  | tail _ event ih => exact hP _ _ event ih

theorem isPath_leads : IsPath Leads := ⟨fun _ => .refl, fun h h' => h.trans h'⟩

theorem leads_bind {m : Reader α} (hm : Along Leads m) (hf : ∀ a, Along Leads (f a)) :
    Along Leads (m >>= f) := .bind isPath_leads hm hf

theorem leads_of_held {m : Reader α} (hm : Keeps State.held m) : Along Leads m :=
  .of_keeps hm fun _ _ h => .single (.tokens h)

/-! ## Comments and directives -/

theorem asidePath_leads : AsidePath Leads where
  toTokenPath := .of_held isPath_leads fun held => .single (.tokens held)
  comment t _ s := .single (.comment s t)
  setting _ value := Along.applySetting isPath_leads (fun s => .single (.inject s value)) fun _ _ h =>
    .single (.setting h)

/-! ## Bodies -/

/-- Once a body has been opened, there are only events from one state to the other. -/
def Inside (s s' : State) : Prop := s.declared = true → Leads s s'

theorem isPath_inside : IsPath Inside :=
  ⟨fun _ _ => .refl, fun h h' hs => (h hs).trans (h' ((h hs).declared hs))⟩

theorem inside_of_leads {m : Reader α} (hm : Along Leads m) : Along Inside m :=
  fun env s _ => hm env s

theorem inside_of_held {m : Reader α} (hm : Keeps State.held m) : Along Inside m :=
  inside_of_leads (leads_of_held hm)

theorem inside_bind {m : Reader α} (hm : Along Inside m) (hf : ∀ a, Along Inside (f a)) :
    Along Inside (m >>= f) := .bind isPath_inside hm hf

theorem bodyPath_inside : BodyPath Inside where
  toTokenPath := .of_held isPath_inside fun held _ => .single (.tokens held)
  comment t := inside_of_leads (asidePath_leads.comment t)
  setting name value := inside_of_leads (asidePath_leads.setting name value)
  field _ := Along.write isPath_inside fun _ _ h hs => .single (.field hs h)

/-! ## Declarations -/

theorem declarationPath_inside : DeclarationPath Inside where
  toAsidePath := bodyPath_inside.toAsidePath
  constant s name value _ _ := .single (.constant s name value)
  opened s _ := .single (.opened s)
  openClass _ name hs := .single (.openClass name hs)
  discardClass s _ := .single (.discardClass s)
  register _ := Along.register isPath_inside fun _ _ h hs => .single (.register hs h)
  closeClass _ := Along.write isPath_inside fun _ _ h hs => .single (.closeClass hs h)
  addEnum _ _ := Along.write isPath_inside fun _ _ h hs => .single (.addEnum hs h)

theorem declared_of_opened {m : Reader α} {a : α} (hm : Along Inside m)
    (h : (do
      modify fun s => { s with declared := true }
      m : Reader α) env s = .ok a s') : s'.declared = true := by
  have hrest : Leads { s with declared := true } s' := hm.of_ok (s := { s with declared := true }) h rfl
  exact hrest.declared rfl

/-- After a reading that opens a brace. -/
theorem leads_bind_inside {m : Reader α} (hm : Along Leads m)
    (hopened : ∀ env s a s', m env s = .ok a s' → s'.declared = true) (hf : ∀ a, Along Inside (f a)) :
    Along Leads (m >>= f) := by
  intro env s
  cases h : m env s with
  | ok a s₁ =>
    rw [after_bind_ok h]
    exact (hm.of_ok h).trans (hf a env s₁ (hopened env s a s₁ h))
  | error e s₁ =>
    rw [after_bind_error h]
    exact hm.of_error h

theorem inside_openBody (form : Form) (typedef : Bool) (keyword : Token) (name parent : Option Token) :
    Along Inside (openBody form typedef keyword name parent) := by
  refine .get_bind fun env s => ?_
  refine inside_bind (inside_of_held (.forM (fun (l, p) => held_report l p) _)) (fun _ => ?_) env s
  refine inside_bind (inside_of_held (.forM held_log _)) fun _ => inside_bind ?_ fun _ => ?_
  · exact fun env s hs => .single (.openClass _ hs)
  · exact inside_bind (inside_of_held (held_log _)) fun _ => inside_of_held (.pure _)

section Heads

variable {β γ : Type} {x : Reader β} {k : Token → Option Token → β → Reader γ}
  (hk : ∀ keyword name b, Along Inside (k keyword name b))
include hk

theorem leads_headed (hx : Keeps State.held x) : Along Leads (advance >>= fun t => headed x (k t)) := by
  refine leads_bind (leads_of_held held_advance) fun keyword => ?_
  refine leads_bind (leads_of_held tokenPath_held.declaredName) fun name => ?_
  refine leads_bind (leads_of_held hx) fun b => ?_
  refine leads_bind (leads_of_held (held_expectAs _ _)) fun _ => ?_
  exact fun env s => .head (.opened s) (hk keyword name b env { s with declared := true } rfl)

theorem declared_headed {c : γ} (h : (advance >>= fun t => headed x (k t)) env s = .ok c s') :
    s'.declared = true := by
  obtain ⟨keyword, s₁, -, h⟩ := bind_ok.mp h
  obtain ⟨name, s₂, -, h⟩ := bind_ok.mp h
  obtain ⟨b, s₃, -, h⟩ := bind_ok.mp h
  obtain ⟨_, s₄, -, h⟩ := bind_ok.mp h
  exact declared_of_opened (hk keyword name b) h

end Heads

theorem leads_opening (form : Form) (typedef : Bool) : Along Leads (opening form typedef) :=
  leads_headed (inside_openBody form typedef) tokenPath_held.parentName

theorem declared_opening {form : Form} {typedef : Bool} {d : Draft}
    (h : opening form typedef env s = .ok d s') : s'.declared = true :=
  declared_headed (inside_openBody form typedef) h

theorem leads_aggregate (form : Form) (typedef : Bool) : Along Leads (aggregate form typedef) :=
  leads_bind_inside (leads_opening form typedef) (fun _ _ _ _ h => declared_opening h) fun d =>
    inside_bind (bodyPath_inside.members d) (declarationPath_inside.closing typedef)

/-! ## Enums -/

theorem inside_openEnum (keyword : Token) (name : Option Token) (backing : Primitive) :
    Along Inside (openEnum keyword name backing) := inside_of_held (held_openEnum keyword name backing)

theorem declared_enumOpening {x : Token × EnumDraft} (h : enumOpening env s = .ok x s') :
    s'.declared = true := declared_headed inside_openEnum h

theorem leads_enumeration : Along Leads enumeration :=
  leads_bind_inside (leads_headed inside_openEnum tokenPath_held.backingType)
    (fun _ _ _ _ h => declared_enumOpening h) fun (keyword, e) =>
    inside_bind (declarationPath_inside.enumMembers keyword e) declarationPath_inside.enumClosing

/-! ## The whole description -/

theorem leads_statementRound : Along Leads (statementRound ()) :=
  asidePath_leads.statementRound leads_aggregate leads_enumeration

theorem leads_description : Along Leads description :=
  asidePath_leads.description leads_aggregate leads_enumeration

/-! ## What is written -/

/-- A property of scripts that no event breaks. -/
structure ScriptInvariant (P : Script → Prop) : Prop where
  verbatim : ∀ (script : Script) text, P script → P (script.verbatim text)
  openClass : ∀ (script : Script) name, P script → P (script.openClass name)
  discardClass : ∀ script : Script, P script → P script.discardClass
  addField : ∀ (script : Script) u f script', script.addField u f = .ok script' → P script → P script'
  closeClass : ∀ (script : Script) u r t script', script.closeClass u r t = .ok script' →
    P script → P script'
  addEnum : ∀ (script : Script) u name members script', script.addEnum u name members = .ok script' →
    P script → P script'

theorem ScriptInvariant.event {P : Script → Prop} (hP : ScriptInvariant P) (h : Event s s')
    (hs : P s.script) : P s'.script := by
  cases h with
  | tokens held =>
    have heq : s'.script = s.script := (congrArg State.script held :)
    rw [heq]
    exact hs
  | comment t =>
    dsimp only
    split
    · exact hP.verbatim _ t.text hs
    · exact hs
  | inject text => exact hP.verbatim _ text hs
  | setting => exact hs
  | opened => exact hs
  | constant => exact hs
  | openClass name => exact hP.openClass _ name hs
  | discardClass => exact hP.discardClass _ hs
  | field _ added => exact hP.addField _ _ _ _ added hs
  | register => exact hs
  | closeClass _ closed => exact hP.closeClass _ _ _ _ _ closed hs
  | addEnum _ added => exact hP.addEnum _ _ _ _ _ added hs

/-- What no event breaks holds at the end of a reading. -/
theorem ScriptInvariant.description {P : Script → Prop} (hP : ScriptInvariant P) (env : Env)
    (hs : P s.script) : P (after description env s).script :=
  (leads_description env s).keeps (P := fun s => P s.script) (fun _ _ => hP.event) hs

end RecordView.Declaration
