import RecordView.Proofs.Declaration.Event
import RecordView.Proofs.Declaration.Scoping
import RecordView.Proofs.Settings

/-! From the first body on, a reading keeps to one dialect, and so does all that it writes. -/
namespace RecordView
namespace Script

abbrev Dialect := Language × Platform × HostEndian

def Member.InDialect (δ : Dialect) : Member → Prop
  | .accessor a => ∃ u f, Settings.dialect u = δ ∧ Script.accessor u f = .ok a
  | .verbatim _ => True

structure ClassDecl.InDialect (δ : Dialect) (c : ClassDecl) : Prop where
  language : c.language = δ.1
  members : ∀ m ∈ c.members, m.InDialect δ
  json : ∀ m ∈ c.json, m.language = δ.1

structure EnumDecl.InDialect (δ : Dialect) (e : EnumDecl) : Prop where
  language : e.language = δ.1
  members : ∃ values : List (String × Constant),
    values.mapM (fun (m, v) => do return (m, ← literal δ.1 v)) = .ok e.members

def Item.InDialect (δ : Dialect) : Item → Prop
  | .classDecl c => c.InDialect δ
  | .enumDecl e => e.InDialect δ
  | .verbatim _ => True

variable {δ : Dialect} {s s' : Script} {u : Settings}

/-- All that has been written is in the dialect, also what the open class holds so far. -/
structure InDialect (δ : Dialect) (s : Script) : Prop where
  items : ∀ i ∈ s.items, i.InDialect δ
  current : ∀ c, s.current = some c → ∀ m ∈ c.members, m.InDialect δ

theorem InDialect.verbatim (h : s.InDialect δ) (text : String) : (s.verbatim text).InDialect δ := by
  unfold Script.verbatim
  split
  · rename_i c hc
    refine ⟨h.items, fun c' hc' m hm => ?_⟩
    cases hc'
    rcases List.mem_append.mp hm with hm | hm
    · exact h.current c hc m hm
    · rw [List.mem_singleton.mp hm]
      trivial
  · refine ⟨fun i hi => ?_, h.current⟩
    rcases List.mem_append.mp hi with hi | hi
    · exact h.items i hi
    · rw [List.mem_singleton.mp hi]
      trivial

theorem InDialect.addField {f : Field} (h : s.InDialect δ) (hu : u.dialect = δ)
    (ha : s.addField u f = .ok s') : s'.InDialect δ := by
  rcases addField_eq_ok_iff.mp ha with ⟨-, rfl⟩ | ⟨c, a, hc, -, haccessor, rfl⟩
  · exact h
  refine ⟨h.items, fun c' hc' m hm => ?_⟩
  cases hc'
  rcases List.mem_append.mp hm with hm | hm
  · exact h.current c hc m hm
  · rw [List.mem_singleton.mp hm]
    exact ⟨u, f, hu, haccessor⟩

theorem InDialect.closeClass {r : Registry} {t : TypeInfo} (h : s.InDialect δ) (hu : u.dialect = δ)
    (hc : s.closeClass u r t = .ok s') : s'.InDialect δ := by
  rcases closeClass_eq_ok_iff.mp hc with ⟨-, rfl⟩ | ⟨c, hcurrent, -, rfl⟩
  · exact h
  · refine ⟨fun i hi => ?_, fun c' hc' => by cases hc'⟩
    rcases List.mem_append.mp hi with hi | hi
    · exact h.items i hi
    rw [List.mem_singleton.mp hi]
    refine ⟨congrArg Prod.fst hu, h.current c hcurrent, fun m hm => ?_⟩
    unfold classOf at hm
    dsimp only at hm
    split at hm
    · cases hm
      exact congrArg Prod.fst hu
    · cases hm

theorem InDialect.addEnum {name : String} {members : List (String × Constant)} (h : s.InDialect δ)
    (hu : u.dialect = δ) (ha : s.addEnum u name members = .ok s') : s'.InDialect δ := by
  obtain ⟨written, hwritten, ha⟩ := bind_eq_ok_iff.mp ha
  cases ha
  have hlanguage : u.language = δ.1 := congrArg Prod.fst hu
  refine ⟨fun i hi => ?_, h.current⟩
  rcases List.mem_append.mp hi with hi | hi
  · exact h.items i hi
  · rw [List.mem_singleton.mp hi]
    exact ⟨hlanguage, members, by rw [← hlanguage]; exact hwritten⟩

end Script

namespace Declaration
open Reader Script

variable {env : Env} {s s' s₀ s₁ s₂ : State} {t : Token}

/-! ## Events -/

theorem Event.dialect (h : Event s s') (hs : s.declared = true) :
    s'.settings.dialect = s.settings.dialect := by
  cases h with
  | tokens held =>
    have heq : s'.settings = s.settings := (congrArg State.settings held :)
    rw [heq]
  | setting applied =>
    rw [hs] at applied
    exact Settings.apply_dialect applied
  | _ => rfl

/-- From the first body on, the dialect stays. -/
theorem Leads.dialect (h : Leads s s') (hs : s.declared = true) :
    s'.settings.dialect = s.settings.dialect := by
  induction h with
  | refl => rfl
  | tail before event ih => rw [event.dialect (Leads.declared before hs), ih]

/-- All that has been written is in the dialect of the settings; before the first body, nothing has
been written in any dialect. -/
def State.Spoken (s : State) : Prop :=
  ∀ δ, (s.declared = true → δ = s.settings.dialect) → s.script.InDialect δ

theorem Event.spoken (h : Event s s') (hs : s.Spoken) : s'.Spoken := by
  intro δ hδ
  cases h with
  | tokens held =>
    have hscript : s'.script = s.script := (congrArg State.script held :)
    have hsettings : s'.settings = s.settings := (congrArg State.settings held :)
    have hdeclared : s'.declared = s.declared := (congrArg State.declared held :)
    rw [hscript]
    refine hs δ fun h => ?_
    rw [← hsettings]
    exact hδ (hdeclared.trans h)
  | comment t =>
    dsimp only
    split
    · exact (hs δ hδ).verbatim t.text
    · exact hs δ hδ
  | inject text => exact (hs δ hδ).verbatim text
  | setting applied =>
    refine hs δ fun h => ?_
    rw [h] at applied
    rw [hδ h]
    exact Settings.apply_dialect applied
  | opened => exact hs δ fun _ => hδ rfl
  | constant => exact hs δ hδ
  | openClass name =>
    refine ⟨(hs δ hδ).items, fun c hc m hm => ?_⟩
    cases hc
    cases hm
  | discardClass => exact ⟨(hs δ hδ).items, fun c hc => by cases hc⟩
  | field declared added => exact (hs δ hδ).addField (hδ declared).symm added
  | register => exact hs δ hδ
  | closeClass declared closed => exact (hs δ hδ).closeClass (hδ declared).symm closed
  | addEnum declared added => exact (hs δ hδ).addEnum (hδ declared).symm added

/-! ## Points of a reading -/

theorem leads_of_round (before : Runs statementRound env () s₀ () s₁)
    (h : Leads s (after (statementRound ()) env s₁)) : Leads s (read env s₀).1 := by
  rw [read_eq_of_runs before, read_fst]
  exact h.trans (Along.rounds_of_step isPath_leads (fun _ => leads_statementRound) ())

/-- The statement that starts in a state opens a body in another one. -/
inductive Begins (env : Env) (s : State) : State → Prop where
  | aggregate {form : Form} {typedef : Bool} {d : Draft} {s₁ s' : State}
      (enters : Enters env s form typedef s₁) (opens : opening form typedef env s₁ = .ok d s') :
      Begins env s s'
  | enum {t : Token} {x : Token × EnumDraft} {s₁ s' : State} (going : s.report.full = false)
      (next : peek env s = .ok t s₁) (word : t.isWord "enum" = true)
      (opens : enumOpening env s₁ = .ok x s') : Begins env s s'

theorem Begins.declared (h : Begins env s s') : s'.declared = true := by
  cases h with
  | aggregate _ opens => exact declared_opening opens
  | enum _ _ _ opens => exact declared_enumOpening opens

/-- The members of a struct or union, and what stands after them, lead to the end. -/
theorem leads_of_members {form : Form} {typedef : Bool} {d₀ d : Draft} {s₂ s₃ : State}
    (before : Runs statementRound env () s₀ () s₁) (enters : Enters env s₁ form typedef s₂)
    (opens : opening form typedef env s₂ = .ok d₀ s₃) (body : Runs memberRound env d₀ s₃ d s')
    (h : Leads s (after (members d >>= closing typedef) env s')) : Leads s (read env s₀).1 := by
  obtain ⟨t, s₄, next⟩ := enters.exists_next
  have hround : after (statementRound ()) env s₁ = after (restOfStatement t s₄.taken typedef d) env s' :=
    (after_congr (Between.round_eq enters next opens body)).trans (after_bind_pure _ _ _ _)
  refine leads_of_round before ?_
  rw [hround]
  exact asidePath_leads.after_attempt t s₄.taken false () h

/-- So do the members of an enum. -/
theorem leads_of_enumMembers {x : Token × EnumDraft} {e : EnumDraft} {s₂ s₃ : State}
    (before : Runs statementRound env () s₀ () s₁) (going : s₁.report.full = false)
    (next : peek env s₁ = .ok t s₂) (word : t.isWord "enum" = true)
    (opens : enumOpening env s₂ = .ok x s₃) (body : Runs (enumRound x.1) env x.2 s₃ e s')
    (h : Leads s (after (enumMembers x.1 e >>= enumClosing) env s')) : Leads s (read env s₀).1 := by
  have hkind : t.kind ≠ .eof := by
    rw [kind_of_isWord word]
    decide
  have hbody : enumMembers x.1 x.2 env s₃ = enumMembers x.1 e env s' := body.rounds_eq
  have hstatement : statement env s₂ = (enumMembers x.1 e >>= enumClosing) env s' := by
    rw [statement_eq_enumeration next word, enumeration, bind_apply, opens]
    dsimp only
    rw [bind_apply, bind_apply, hbody]
  refine leads_of_round before ?_
  rw [after_congr (statementRound_attempt going next hkind), after_bind_pure]
  refine asidePath_leads.after_attempt t s₂.taken false () ?_
  rwa [after_congr hstatement]

/-- From every point of a reading after the first brace, events lead to its end. -/
theorem Visits.leads (h : Visits env s₀ s) (hs : s.declared = true) : Leads s (read env s₀).1 := by
  cases h with
  | statement before =>
    rw [read_eq_of_runs before, read_fst]
    exact leads_description env s
  | member opens body =>
    obtain ⟨s₁, s₂, form, typedef, before, enters, hopen⟩ := opens
    refine leads_of_members before enters hopen body ?_
    exact inside_bind (bodyPath_inside.members _) (declarationPath_inside.closing typedef) env s hs
  | enumerator before going next word opens body =>
    refine leads_of_enumMembers before going next word opens body ?_
    exact inside_bind (declarationPath_inside.enumMembers _ _) declarationPath_inside.enumClosing env s hs
  | declaration before completes =>
    cases completes with
    | enum going next word opens body ends named =>
      refine leads_of_enumMembers before going next word opens .start ?_
      rw [after_bind_ok body]
      show Leads _ (after (accept ";" >>= _) _ _)
      rw [after_bind_ok ends, named]
      exact declarationPath_inside.closeEnum _ _ env s hs
    | aggregate enters opens body ends =>
      obtain ⟨d', name, hclosing, -⟩ := ends.exists_closing
      refine leads_of_members before enters opens .start ?_
      rw [after_bind_ok body, after_congr hclosing]
      exact declarationPath_inside.closeAggregate d' env s hs
  | last => exact .refl

end Declaration
end RecordView
