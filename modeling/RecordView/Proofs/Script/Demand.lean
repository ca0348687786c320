import RecordView.Proofs.Declaration.Dialect
import RecordView.Proofs.Script.Supply
import RecordView.Proofs.Script.Words

/-! Why a script declares a helper class or the host variable: an accessor that needs it has been
written, into a class that stays or into one that is discarded. -/
namespace RecordView

variable {u : Settings} {s₁ : State}

namespace Script

variable {s s' : Script} {a : Accessor} {w : String}

/-- The script is to declare the name at its top. -/
def Notes (s : Script) (w : String) : Prop :=
  (∃ h ∈ s.helpers, h.name = w) ∨ (s.host = true ∧ hostVariable = w)

instance (s : Script) (w : String) : Decidable (s.Notes w) := inferInstanceAs (Decidable (_ ∨ _))

def openAccessors (s : Script) : List Accessor := s.accessors?.getD []

theorem notes_congr (hhelpers : s'.helpers = s.helpers) (hhost : s'.host = s.host) :
    s'.Notes w ↔ s.Notes w := by
  unfold Notes
  rw [hhelpers, hhost]

theorem mem_helpers_addAccessor (s : Script) (o : OpenClass) (a : Accessor) (h : Helper) :
    h ∈ (s.addAccessor o a).helpers ↔ h ∈ s.helpers ∨ a.helper? = some h := by
  unfold addAccessor
  cases a.helper? with
  | none => simp
  | some x =>
    show h ∈ (if s.helpers.contains x then s.helpers else s.helpers ++ [x]) ↔ _
    split
    · next hx =>
      have hmem : x ∈ s.helpers := by simpa using hx
      constructor
      · exact .inl
      · rintro (h | h)
        · exact h
        · cases h
          exact hmem
    · rw [List.mem_append, List.mem_singleton, Option.some_inj, eq_comm]

/-- With an accessor, the script notes what the accessor needs. -/
theorem notes_addAccessor (s : Script) (o : OpenClass) (a : Accessor) :
    (s.addAccessor o a).Notes w ↔ s.Notes w ∨ a.Needs w := by
  have hhost : (s.addAccessor o a).host = true ↔ s.host = true ∨ a.probesHost = true := Bool.or_eq_true_iff
  unfold Notes Accessor.Needs
  simp only [mem_helpers_addAccessor, hhost]
  constructor
  · rintro (⟨h, hh | hh, hw⟩ | ⟨hh | hh, hw⟩)
    · exact .inl (.inl ⟨h, hh, hw⟩)
    · exact .inr (.inl ⟨h, hh, hw⟩)
    · exact .inl (.inr ⟨hh, hw⟩)
    · exact .inr (.inr ⟨hh, hw⟩)
  · rintro ((⟨h, hh, hw⟩ | ⟨hh, hw⟩) | (⟨h, hh, hw⟩ | ⟨hh, hw⟩))
    · exact .inl ⟨h, .inl hh, hw⟩
    · exact .inr ⟨.inl hh, hw⟩
    · exact .inl ⟨h, .inr hh, hw⟩
    · exact .inr ⟨.inr hh, hw⟩

theorem notes_verbatim (s : Script) (text : String) : (s.verbatim text).Notes w ↔ s.Notes w := by
  unfold verbatim
  split
  · exact notes_congr rfl rfl
  · exact notes_congr rfl rfl

theorem openAccessors_verbatim (s : Script) (text : String) :
    (s.verbatim text).openAccessors = s.openAccessors := by
  rw [openAccessors, accessors?_verbatim]
  rfl

theorem notes_closeClass {r : Registry} {t : TypeInfo} (h : s.closeClass u r t = .ok s') :
    s'.Notes w ↔ s.Notes w := by
  rcases closeClass_eq_ok_iff.mp h with ⟨-, rfl⟩ | ⟨o, -, -, rfl⟩
  · rfl
  · exact notes_congr rfl rfl

theorem notes_addEnum {name : String} {members : List (String × Constant)}
    (h : s.addEnum u name members = .ok s') : s'.Notes w ↔ s.Notes w := by
  obtain ⟨written, -, h⟩ := bind_eq_ok_iff.mp h
  cases h
  exact notes_congr rfl rfl

theorem openAccessors_addAccessor {o : OpenClass} (h : s.current = some o) (a : Accessor) :
    (s.addAccessor o a).openAccessors = s.openAccessors ++ [a] := by
  simp [openAccessors, accessors?, addAccessor, h, accessorsOf, Member.accessor?]

/-- What the accessors of the open class need is noted. -/
theorem Complete.notes (h : s.Complete) (ha : a ∈ s.openAccessors) (hneeds : a.Needs w) : s.Notes w := by
  unfold openAccessors accessors? at ha
  cases ho : s.current with
  | none => simp [ho] at ha
  | some o =>
    have hmem : .accessor a ∈ o.members := by
      rw [ho] at ha
      exact mem_accessorsOf.mp ha
    have hsupplied := h.current o ho
    rcases hneeds with ⟨x, hx, hw⟩ | ⟨hprobes, hw⟩
    · exact .inl ⟨x, hsupplied.helper a hmem x hx, hw⟩
    · exact .inr ⟨hsupplied.host (hsupplied.probe a hmem hprobes), hw⟩

end Script

namespace Declaration
open Reader Script

variable {env : Env} {s s' s₀ : State} {a : Accessor} {w : String}

/-! ## Bodies -/

/-- From one state to the other the open class keeps its accessors, and what is noted meanwhile, one of
them needs. -/
structure Collects (s s' : State) : Prop where
  accessors : s.script.openAccessors ⊆ s'.script.openAccessors
  noted : ∀ w, s'.script.Notes w → s.script.Notes w ∨ ∃ a ∈ s'.script.openAccessors, a.Needs w

theorem collects_of_script (h : s'.script = s.script) : Collects s s' := by
  refine ⟨?_, fun w hw => .inl ?_⟩
  · rw [h]
    exact List.Subset.refl _
  · rwa [← h]

theorem collects_verbatim {text : String} (h : s'.script = s.script.verbatim text) : Collects s s' := by
  refine ⟨?_, fun w hw => .inl ?_⟩
  · rw [h, openAccessors_verbatim]
    exact List.Subset.refl _
  · rwa [h, notes_verbatim] at hw

theorem isPath_collects : IsPath Collects where
  refl _ := collects_of_script rfl
  trans := by
    intro s₁ s₂ s₃ h h'
    refine ⟨List.Subset.trans h.accessors h'.accessors, fun w hw => ?_⟩
    rcases h'.noted w hw with hw | hw
    · rcases h.noted w hw with hw | ⟨a, ha, hneeds⟩
      · exact .inl hw
      · exact .inr ⟨a, h'.accessors ha, hneeds⟩
    · exact .inr hw

theorem collects_addField (f : Field) :
    Along Collects (write fun s => s.script.addField s.settings f) := by
  refine .write isPath_collects fun s script hadd => ?_
  rcases addField_eq_ok_iff.mp hadd with ⟨-, rfl⟩ | ⟨o, a, ho, -, -, rfl⟩
  · exact collects_of_script rfl
  · refine ⟨?_, fun w hw => ?_⟩
    · rw [openAccessors_addAccessor ho]
      exact List.subset_append_left _ _
    · rcases (notes_addAccessor s.script o a).mp hw with hw | hw
      · exact .inl hw
      · refine .inr ⟨a, ?_, hw⟩
        rw [openAccessors_addAccessor ho]
        exact List.mem_append_right _ (List.mem_singleton_self a)

theorem bodyPath_collects : BodyPath Collects where
  toTokenPath := .of_held isPath_collects fun held => collects_of_script (congrArg State.script held :)
  comment _ := .comment (fun _ => collects_of_script rfl) fun _ => collects_verbatim rfl
  setting _ _ := .applySetting isPath_collects (fun _ => collects_verbatim rfl) fun _ _ _ =>
    collects_of_script rfl
  field := collects_addField

/-! ## The whole description -/

/-- In the reading of a description from `s₀`, the accessor is written into the class of some body. -/
def Written (env : Env) (s₀ : State) (a : Accessor) : Prop :=
  ∃ d₀ s₁ d s, Opens env s₀ d₀ s₁ ∧ Runs memberRound env d₀ s₁ d s ∧
    a ∈ (after (memberRound d) env s).script.openAccessors

/-- What is noted from one state to the other, an accessor with the property needs. -/
def Noted (W : Accessor → Prop) (s s' : State) : Prop :=
  ∀ w, s'.script.Notes w → s.script.Notes w ∨ ∃ a, W a ∧ a.Needs w

theorem noted_of_notes {W : Accessor → Prop} (h : ∀ w, s'.script.Notes w → s.script.Notes w) :
    Noted W s s' := fun w hw => .inl (h w hw)

theorem noted_of_script {W : Accessor → Prop} (hhelpers : s'.script.helpers = s.script.helpers)
    (hhost : s'.script.host = s.script.host) : Noted W s s' :=
  noted_of_notes fun _ => (notes_congr hhelpers hhost).mp

theorem isPath_noted (W : Accessor → Prop) : IsPath (Noted W) where
  refl _ := noted_of_script rfl rfl
  trans := by
    intro s₁ s₂ s₃ h h' w hw
    rcases h' w hw with hw | hw
    · exact h w hw
    · exact .inr hw

theorem declarationPath_noted (W : Accessor → Prop) : DeclarationPath (Noted W) where
  toTokenPath := .of_held (isPath_noted W) fun held =>
    noted_of_script (congrArg (·.script.helpers) held :) (congrArg (·.script.host) held :)
  comment t := .comment (fun _ => noted_of_script rfl rfl) fun s => noted_of_notes fun _ =>
    (notes_verbatim s.script t.text).mp
  setting _ value := .applySetting (isPath_noted W) (fun s => noted_of_notes fun _ =>
    (notes_verbatim s.script value).mp) fun _ _ _ => noted_of_script rfl rfl
  opened _ := noted_of_script rfl rfl
  constant _ _ _ _ := noted_of_script rfl rfl
  openClass _ _ := noted_of_script rfl rfl
  discardClass _ := noted_of_script rfl rfl
  register _ := .register (isPath_noted W) fun _ _ _ => noted_of_script rfl rfl
  closeClass _ := .write (isPath_noted W) fun _ _ h => noted_of_notes fun _ => (notes_closeClass h).mp
  addEnum _ _ := .write (isPath_noted W) fun _ _ h => noted_of_notes fun _ => (notes_addEnum h).mp

/-- A struct or union notes what the accessors need that are written into its class. -/
theorem noted_aggregate {form : Form} {typedef : Bool} (before : Runs statementRound env () s₀ () s)
    (enters : Enters env s form typedef s₁) :
    Noted (Written env s₀) s₁ (after (aggregate form typedef) env s₁) := by
  have hR := declarationPath_noted (Written env s₀)
  refine hR.after_bind (hR.opening form typedef env s₁) fun d₀ s₂ opens => ?_
  refine hR.after_bind ?_ fun d₁ s₃ _ => hR.closing typedef d₁ env s₃
  obtain ⟨d, s₃, hrun, hlast⟩ := exists_after_rounds memberRound env d₀ s₂
  rw [members, hlast]
  intro w hw
  have hcollects : Collects s₂ (after (memberRound d) env s₃) :=
    bodyPath_collects.trans (Along.runs bodyPath_collects.toIsPath bodyPath_collects.memberRound hrun)
      (bodyPath_collects.memberRound d env s₃)
  rcases hcollects.noted w hw with hw | ⟨a, ha, hneeds⟩
  · exact .inl hw
  · exact .inr ⟨a, ⟨d₀, s₂, d, s₃, ⟨s, s₁, form, typedef, before, enters, opens⟩, hrun, ha⟩, hneeds⟩

/-- What a reading notes, an accessor needs that it has written. -/
theorem noted_read (env : Env) (s₀ : State) : Noted (Written env s₀) s₀ (read env s₀).1 := by
  have hR := declarationPath_noted (Written env s₀)
  have step (s : State) (before : Runs statementRound env () s₀ () s) :
      Noted (Written env s₀) s (after (statementRound ()) env s) :=
    path_statementRound hR fun _ _ _ enters => noted_aggregate before enters
  have run (u : Unit) (s : State) (before : Runs statementRound env () s₀ u s) :
      Noted (Written env s₀) s₀ s := by
    induction before with
    | start => exact hR.refl s₀
    | next before round _ ih =>
      have hround := step _ before
      rw [after_of_ok round] at hround
      exact hR.trans ih hround
  obtain ⟨⟨⟩, s, before, hlast⟩ := exists_after_rounds statementRound env () s₀
  rw [read_fst, description, hlast]
  exact hR.trans (run () s before) (step s before)

/-- What is noted stays noted. -/
theorem scriptInvariant_notes (w : String) : ScriptInvariant (Script.Notes · w) where
  verbatim script text hs := (notes_verbatim script text).mpr hs
  openClass _ _ hs := (notes_congr rfl rfl).mpr hs
  discardClass _ hs := (notes_congr rfl rfl).mpr hs
  addField script u f script' added hs := by
    rcases addField_eq_ok_iff.mp added with ⟨-, rfl⟩ | ⟨o, a, -, -, -, rfl⟩
    · exact hs
    · exact (notes_addAccessor script o a).mpr (.inl hs)
  closeClass _ _ _ _ _ closed hs := (notes_closeClass closed).mpr hs
  addEnum _ _ _ _ _ added hs := (notes_addEnum added).mpr hs

/-- What an accessor needs that is written into some class, is noted at the end. -/
theorem Written.notes (h : Written env s₀ a) (h₀ : s₀.script.Complete) (hneeds : a.Needs w) :
    (read env s₀).1.script.Notes w := by
  obtain ⟨d₀, s₁, d, s, ⟨s₂, s₃, form, typedef, before, enters, opens⟩, body, ha⟩ := h
  have hopened : s₁.declared = true := declared_opening opens
  have hbody : Leads s₁ s := Along.runs isPath_inside bodyPath_inside.memberRound body hopened
  have hround : Leads s (after (memberRound d) env s) :=
    bodyPath_inside.memberRound d env s (hbody.declared hopened)
  have hstart : Leads s₀ (after (memberRound d) env s) :=
    ((((Along.runs isPath_leads (fun _ => leads_statementRound) before).trans (.single (.tokens enters.held))).trans
      ((leads_opening form typedef).of_ok opens)).trans hbody).trans hround
  have hcomplete : (after (memberRound d) env s).script.Complete :=
    hstart.keeps (P := (·.script.Complete)) (fun _ _ => scriptInvariant_complete.event) h₀
  have hend : Leads (after (memberRound d) env s) (read env s₀).1 := by
    refine leads_of_members before enters opens body ?_
    have hdeclared : (after (memberRound d) env s).declared = true :=
      hround.declared (hbody.declared hopened)
    have hmembers : Leads (after (memberRound d) env s) (after (members d) env s) :=
      Along.rounds_of_step isPath_inside bodyPath_inside.memberRound d hdeclared
    cases hlast : members d env s with
    | error e s' => rwa [after_bind_error hlast, ← after_of_error hlast]
    | ok d' s' =>
      rw [after_of_ok hlast] at hmembers
      rw [after_bind_ok hlast]
      exact hmembers.trans (declarationPath_inside.closing typedef d' env s' (hmembers.declared hdeclared))
  exact hend.keeps (P := (·.script.Notes w)) (fun _ _ => (scriptInvariant_notes w).event)
    (hcomplete.notes ha hneeds)

/-- The accessors of a class that is to be declared are written into it. -/
theorem Completes.written {t : TypeInfo} {o : OpenClass} (before : Runs statementRound env () s₀ () s)
    (h : Completes env s t s') (ht : t.backing = none) (ho : s'.script.current = some o)
    (ha : .accessor a ∈ o.members) : Written env s₀ a := by
  cases h with
  | enum => cases ht
  | @aggregate form typedef s₁ s₂ s₃ _ d d₁ _ enters opens body ends =>
    obtain ⟨d₂, s₄, hrun, hdone⟩ := members_ok body
    refine ⟨d, s₂, d₂, s₄, ⟨s, s₁, form, typedef, before, enters, opens⟩, hrun, ?_⟩
    have hscript : s'.script = s₃.script := (congrArg State.script ends.held :)
    rw [after_of_ok hdone, openAccessors, accessors?, ← hscript, ho]
    exact mem_accessorsOf.mpr ha

/-- The accessors of the classes in a script are among those that have been written. -/
theorem written_read (hdecls : s₀.script.decls = []) (hnone : (read env s₀).2 = none) {c : ClassDecl}
    (hc : .classDecl c ∈ (read env s₀).1.script.items) (ha : .accessor a ∈ c.members) :
    Written env s₀ a := by
  refine items_growth (P := fun _ items => ∀ c, .classDecl c ∈ items → ∀ a, .accessor a ∈ c.members →
    Written env s₀ a) ?_ ?_ hnone c (List.mem_filter.mpr ⟨hc, rfl⟩) a ha
  · rw [hdecls]
    intro c hc
    cases hc
  · intro s t s' i before hs ht hi c hc a ha
    rcases List.mem_append.mp hc with hc | hc
    · exact hs c hc a ha
    · cases List.mem_singleton.mp hc
      cases hi with
      | aggregate backing current => exact ht.written before backing current ha

/-! ## Discarded bodies -/

def State.top (s : State) : List Item × List String := (s.script.items, s.script.exports)

/-- While a class is open, nothing is declared and nothing is written at the top. -/
def Stays (s s' : State) : Prop :=
  s.script.current.isSome = true →
    s'.script.current.isSome = true ∧ s'.top = s.top ∧ s'.registry = s.registry

theorem stays_of_script (hscript : s'.script = s.script) (hregistry : s'.registry = s.registry) :
    Stays s s' := by
  intro hs
  refine ⟨by rwa [hscript], ?_, hregistry⟩
  rw [State.top, hscript]
  rfl

theorem stays_verbatim {text : String} (hscript : s'.script = s.script.verbatim text)
    (hregistry : s'.registry = s.registry) : Stays s s' := by
  intro hs
  obtain ⟨o, ho⟩ := Option.isSome_iff_exists.mp hs
  rw [State.top, hscript, verbatim, ho]
  exact ⟨rfl, rfl, hregistry⟩

theorem isPath_stays : IsPath Stays where
  refl _ := stays_of_script rfl rfl
  trans := by
    intro s₁ s₂ s₃ h h' hs
    obtain ⟨hcurrent, htop, hregistry⟩ := h hs
    obtain ⟨hcurrent', htop', hregistry'⟩ := h' hcurrent
    exact ⟨hcurrent', htop'.trans htop, hregistry'.trans hregistry⟩

theorem bodyPath_stays : BodyPath Stays where
  toTokenPath := .of_held isPath_stays fun held =>
    stays_of_script (congrArg State.script held :) (congrArg State.registry held :)
  comment _ := .comment (fun _ => stays_of_script rfl rfl) fun _ => stays_verbatim rfl rfl
  setting _ _ := .applySetting isPath_stays (fun _ => stays_verbatim rfl rfl) fun _ _ _ =>
    stays_of_script rfl rfl
  field f := by
    refine .write isPath_stays fun s script hadd => ?_
    rcases addField_eq_ok_iff.mp hadd with ⟨-, rfl⟩ | ⟨o, a, -, -, -, rfl⟩
    · exact stays_of_script rfl rfl
    · exact fun _ => ⟨rfl, rfl, rfl⟩

/-- Once the type is declared, the rest leaves it so. -/
theorem registry_writeClass (d : Draft) (t : TypeInfo) : Keeps State.registry (do
    write fun s => s.script.closeClass s.settings s.registry t
    log (.classEmitted t.name t.byteLength)
    warnOfPadding d t
    log (.aggregate t.form t.name t.byteLength t.alignment)) := by
  have hlog (n : Note) : Keeps State.registry (log n) := (held_log n).context.declarations.registry
  refine .bind (Along.write (isPath_keeps _) fun _ _ _ => rfl) fun _ => ?_
  exact .bind (hlog _) fun _ =>
    .bind (held_warnOfPadding d t).context.declarations.registry fun _ => hlog _

/-- If no type is declared, the top stays as it is. -/
def Spares (s s' : State) : Prop := s'.registry = s.registry → s'.top = s.top

theorem spares_closeAggregate (d : Draft) : Spares s (after (closeAggregate d) env s) := by
  intro h
  unfold closeAggregate at h ⊢
  split
  · rename_i name hkept hname
    rw [hkept, hname] at h
    dsimp only at h
    rw [after_get_bind] at h ⊢
    cases hfinish : d.finish s.settings name with
    | none => rfl
    | some t =>
      rw [hfinish] at h
      dsimp only at h ⊢
      cases hregister : s.registry.register t with
      | error p =>
        have heq : register t env s = .error (.refused ⟨p, none, none⟩) s := by
          rw [register_apply, hregister]
        rw [after_bind_error heq]
      | ok r =>
        have heq : register t env s = .ok () { s with registry := r } := by
          rw [register_apply, hregister]
        rw [after_bind_ok heq, registry_writeClass d t, registry_eq_of_register hregister] at h
        have hlength := congrArg (·.types.length) h
        simp at hlength
  · rfl

theorem spares_of_held (hheld : s₁.held = s.held) (h : Spares s₁ s') : Spares s s' := by
  have hregistry : s₁.registry = s.registry := (congrArg State.registry hheld :)
  have htop : s₁.top = s.top := (congrArg State.top hheld :)
  unfold Spares at h ⊢
  rwa [← hregistry, ← htop]

theorem spares_bind {α β : Type} {m : Reader α} {f : α → Reader β} (hm : Keeps State.held m)
    (hf : ∀ a s₁, Spares s₁ (after (f a) env s₁)) : Spares s (after (m >>= f) env s) := by
  cases h : m env s with
  | ok a s₁ =>
    rw [after_bind_ok h]
    exact spares_of_held (hm.of_ok h) (hf a s₁)
  | error e s₁ =>
    rw [after_bind_error h]
    exact fun _ => (congrArg State.top (hm.of_error h) :)

theorem spares_closing (typedef : Bool) (d : Option Draft) : Spares s (after (closing typedef d) env s) := by
  cases d with
  | none => exact fun _ => rfl
  | some d =>
    have last (d : Draft) (s : State) : Spares s (after (bodyEnd d) env s) :=
      spares_bind (held_accept _) fun _ _ => spares_closeAggregate d
    cases typedef with
    | false => exact spares_bind (.pure d) last
    | true => exact spares_bind (held_typedefName d) last

theorem top_opening (form : Form) (typedef : Bool) :
    Keeps (fun s => (s.registry, s.top)) (opening form typedef) := by
  have hpath : OpeningPath fun s s' => (s'.registry, s'.top) = (s.registry, s.top) :=
    ⟨tokenPath_keeps fun s => (s.registry, s.top), fun _ => rfl, fun _ _ => rfl⟩
  exact hpath.opening form typedef

/-- A statement that opens a body and declares no type leaves the top as it was. -/
theorem spares_body {form : Form} {typedef : Bool} {s₂ : State} {d : Draft}
    (enters : Enters env s form typedef s₁) (opens : opening form typedef env s₁ = .ok d s₂) :
    Spares s (after (statementRound ()) env s) := by
  obtain ⟨t, s₃, next⟩ := enters.exists_next
  have hround : after (statementRound ()) env s = after (restOfStatement t s₃.taken typedef d) env s₂ :=
    (after_congr (Between.round_eq enters next opens .start)).trans (after_bind_pure _ _ _ _)
  have hbody : (after (members d >>= closing typedef) env s₂).held = _ := rfl
  have hheld := tokenPath_held.after_attempt t s₃.taken false () hbody
  refine spares_of_held enters.held fun hregistry => ?_
  obtain ⟨hregistry₂, htop₂⟩ := Prod.mk.inj ((top_opening form typedef).of_ok opens)
  obtain ⟨name, hopen⟩ := opening_class opens
  obtain ⟨-, htop₃, hregistry₃⟩ := bodyPath_stays.members d env s₂ (by rw [hopen]; rfl)
  have hlast : Spares s₂ (after (members d >>= closing typedef) env s₂) := by
    cases hm : members d env s₂ with
    | ok d' s₄ =>
      rw [after_of_ok hm] at htop₃ hregistry₃
      rw [after_bind_ok hm]
      intro h
      rw [spares_closing typedef d' (h.trans hregistry₃.symm), htop₃]
    | error e s₄ =>
      rw [after_of_error hm] at htop₃
      rw [after_bind_error hm]
      exact fun _ => htop₃
  rw [hround] at hregistry ⊢
  have hsame : (after (members d >>= closing typedef) env s₂).registry = s₂.registry := by
    rw [hregistry₂, ← hregistry]
    exact (congrArg State.registry hheld.symm :)
  calc (after (restOfStatement t s₃.taken typedef d) env s₂).top
      = (after (members d >>= closing typedef) env s₂).top := (congrArg State.top hheld :)
    _ = s₂.top := hlast hsame
    _ = s₁.top := htop₂

end Declaration
end RecordView
