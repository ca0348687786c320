import RecordView.Proofs.Declaration.Body

/-! Where the declared types, and what is written for them, come from: each is the enum or the closed
body of one statement. -/
namespace RecordView.Declaration
open Reader

variable {env : Env} {s s' s₀ s₁ : State} {d d' : Draft} {form : Form} {typedef : Bool} {t : TypeInfo}
  {P : TypeInfo → List Script.Item → Prop} {α : Type} {r : Registry}

/-! ## Statements that open a body -/

/-- A round of the description that starts in state `s` gets to the keyword of a struct or union in
state `s'`. -/
inductive Enters (env : Env) (s : State) : Form → Bool → State → Prop where
  | declaration {form : Form} {t : Token} {s' : State} (going : s.report.full = false)
      (next : peek env s = .ok t s') (word : t.isWord form.word = true) (ne : form ≠ .enum) :
      Enters env s form false s'
  | typedef {form : Form} {t u v : Token} {s₁ s₂ s' : State} (going : s.report.full = false)
      (next : peek env s = .ok t s₁) (word : t.isWord "typedef" = true)
      (taken : advance env s₁ = .ok u s₂) (second : peek env s₂ = .ok v s')
      (target : v.isWord form.word = true) (ne : form ≠ .enum) : Enters env s form true s'

/-- In the reading of a description from `s₀`, a body is opened with this draft in this state. -/
def Opens (env : Env) (s₀ : State) (d : Draft) (s : State) : Prop :=
  ∃ s₁ s₂ form typedef, Runs statementRound env () s₀ () s₁ ∧ Enters env s₁ form typedef s₂ ∧
    opening form typedef env s₂ = .ok d s

/-- In the reading of a description from `s₀`, the members of an enum start with this draft in this
state. -/
def OpensEnum (env : Env) (s₀ : State) (keyword : Token) (e₀ : EnumDraft) (s₁ : State) : Prop :=
  ∃ s v s', Runs statementRound env () s₀ () s ∧ s.report.full = false ∧ peek env s = .ok v s' ∧
    v.isWord "enum" = true ∧ enumOpening env s' = .ok (keyword, e₀) s₁

def firstBody? (env : Env) (form : Form) (s : State) : Option (Draft × State) :=
  match peek env s with
  | .ok t s₁ =>
    if s.report.full = false ∧ t.isWord form.word = true ∧ form ≠ .enum then
      match opening form false env s₁ with
      | .ok d s₂ => some (d, s₂)
      | .error _ _ => none
    else none
  | .error _ _ => none

theorem enters_of_firstBody? {x : Draft × State} (h : firstBody? env form s = some x) :
    ∃ s₁, Enters env s form false s₁ ∧ opening form false env s₁ = .ok x.1 x.2 := by
  unfold firstBody? at h
  split at h
  · rename_i next
    split at h
    · rename_i hw
      obtain ⟨going, word, ne⟩ := hw
      split at h
      · rename_i hopen
        cases h
        exact ⟨_, .declaration going next word ne, hopen⟩
      · cases h
    · cases h
  · cases h

theorem opens_of_firstBody? {x : Draft × State} (h : firstBody? env form s = some x) :
    Opens env s x.1 x.2 := by
  obtain ⟨s₁, henters, hopen⟩ := enters_of_firstBody? h
  exact ⟨s, s₁, form, false, .start, henters, hopen⟩

/-- Where the keyword of a struct or union is, if a statement starts here that declares one. -/
def enters? (env : Env) (form : Form) (typedef : Bool) (s : State) : Option State :=
  if s.report.full then none
  else
    match peek env s with
    | .error _ _ => none
    | .ok t s₁ =>
      if !typedef then if t.isWord form.word then some s₁ else none
      else if !t.isWord "typedef" then none
      else
        match advance env s₁ with
        | .error _ _ => none
        | .ok _ s₂ =>
          match peek env s₂ with
          | .error _ _ => none
          | .ok v s₃ => if v.isWord form.word then some s₃ else none

theorem Enters.eq_some (h : Enters env s form typedef s') : enters? env form typedef s = some s' := by
  cases h with
  | declaration going next word ne =>
    rw [enters?, going, next]
    simp [word]
  | typedef going next word taken second target ne =>
    rw [enters?, going, next]
    simp [word, taken, second, target]

def bodyAt? (env : Env) (form : Form) (typedef : Bool) (s : State) : Option (Draft × State) :=
  (enters? env form typedef s).bind fun s₁ =>
    match opening form typedef env s₁ with
    | .ok d s₂ => some (d, s₂)
    | .error _ _ => none

/-- Whether a description has fewer statements than `n`, and a check holds of the body of each. -/
def allBodies? (env : Env) (n : Nat) (s₀ : State) (check : Draft → State → Bool) : Bool :=
  allRounds? statementRound env n () s₀ fun _ s =>
    [Form.struct, .union].all fun form => [false, true].all fun typedef =>
      (bodyAt? env form typedef s).all fun x => check x.1 x.2

theorem Opens.of_allBodies? {check : Draft → State → Bool} {n : Nat} (hn : allBodies? env n s₀ check = true)
    (h : Opens env s₀ d s) : check d s = true := by
  obtain ⟨s₁, s₂, form, typedef, hrun, henters, hopen⟩ := h
  have hform : form ∈ [Form.struct, .union] := by
    cases henters with
    | declaration _ _ _ ne => cases form <;> simp at ne ⊢
    | typedef _ _ _ _ _ _ ne => cases form <;> simp at ne ⊢
  have htypedef : typedef ∈ [false, true] := by cases typedef <;> decide
  have hbody : bodyAt? env form typedef s₁ = some (d, s) := by
    rw [bodyAt?, henters.eq_some, Option.bind_some, hopen]
  have hforms := List.all_eq_true.mp (hrun.of_allRounds? hn) form hform
  have hbodies := List.all_eq_true.mp hforms typedef htypedef
  rwa [hbody, Option.all_some] at hbodies

/-- The body that is opened with `d` in state `s` is closed and declares the type. -/
def Closes (env : Env) (d : Draft) (s : State) (t : TypeInfo) : Prop :=
  ∃ d₁ s₁ d₂ s₂ name, Runs memberRound env d s d₁ s₁ ∧
    memberRound d₁ env s₁ = .ok (.done (some d₂)) s₂ ∧ d₂.finish s₂.settings name = some t

/-- After the body of a struct or union, the name of a typedef and a semicolon are read; in state `s'`
the type is to be declared. -/
def Finishes (env : Env) (typedef : Bool) (d : Draft) (s : State) (t : TypeInfo) (s' : State) : Prop :=
  ∃ d' s₁ semicolon name, (if typedef then typedefName d else pure d : Reader Draft) env s = .ok d' s₁ ∧
    accept ";" env s₁ = .ok semicolon s' ∧ d'.discarded = false ∧ d'.name = some name ∧
    d'.finish s'.settings name = some t

/-- A round of the description that starts in state `s` is to declare the type in state `s'`. -/
inductive Completes (env : Env) (s : State) : TypeInfo → State → Prop where
  | enum {t keyword : Token} {s₁ s₂ s₃ s' : State} {e₀ e : EnumDraft} {semicolon : Bool}
      {name : String} (going : s.report.full = false) (next : peek env s = .ok t s₁)
      (word : t.isWord "enum" = true) (opens : enumOpening env s₁ = .ok (keyword, e₀) s₂)
      (body : enumMembers keyword e₀ env s₂ = .ok (some e) s₃)
      (ends : accept ";" env s₃ = .ok semicolon s') (named : e.name = some name) :
      Completes env s (e.finish s'.settings name) s'
  | aggregate {form : Form} {typedef : Bool} {s₁ s₂ s₃ s' : State} {d d₁ : Draft} {t : TypeInfo}
      (enters : Enters env s form typedef s₁) (opens : opening form typedef env s₁ = .ok d s₂)
      (body : members d env s₂ = .ok (some d₁) s₃) (ends : Finishes env typedef d₁ s₃ t s') :
      Completes env s t s'

inductive Declares (env : Env) (s : State) : TypeInfo → Prop where
  | enum (u : Settings) (e : EnumDraft) (name : String) : Declares env s (e.finish u name)
  | aggregate {form : Form} {typedef : Bool} {s₁ s₂ : State} {d : Draft} {t : TypeInfo}
      (enters : Enters env s form typedef s₁) (opens : opening form typedef env s₁ = .ok d s₂)
      (closes : Closes env d s₂ t) : Declares env s t

/-- The keyword is reached where the taking of tokens leads. -/
theorem Enters.along {R : State → State → Prop} (hR : TakingPath R) (h : Enters env s form typedef s') :
    R s s' := by
  cases h with
  | declaration _ next => exact hR.peek.of_ok next
  | typedef _ next _ taken second =>
    exact hR.trans (hR.trans (hR.peek.of_ok next) (hR.advance.of_ok taken)) (hR.peek.of_ok second)

theorem Enters.held (h : Enters env s form typedef s') : s'.held = s.held := by
  have hpath := h.along tokenPath_held.toTakingPath
  exact hpath

theorem Enters.context (h : Enters env s form typedef s') : s'.context = s.context := by
  show s'.held.context = s.held.context
  rw [h.held]

theorem finish_some {u : Settings} {name : String} (h : d.finish u name = some t) :
    d.size ≠ 0 ∧ t =
      { name
        form := d.form
        byteLength := d.size
        alignment := min u.pack.bytes d.fullAlignment
        parent := d.parent
        fields := d.fields
        hasFlexible := d.flexible.isSome } := by
  unfold Draft.finish at h
  split at h
  · cases h
  · rename_i hsize
    cases h
    exact ⟨hsize, rfl⟩

/-! ## What a statement declares -/

/-- Where a statement leads: if it may declare a type, this is for the declaration to say, and otherwise it
leads along what stands between declarations. -/
theorem after_statementRound {R Q : State → State → Prop} (hR : AsidePath R) (hof : ∀ {a b}, R a b → Q a b)
    (hbefore : ∀ {a b c}, R a b → Q b c → Q a c) (hafter : ∀ {a b c}, Q a b → R b c → Q a c)
    (henum : ∀ t s₁, s.report.full = false → peek env s = .ok t s₁ → t.isWord "enum" = true →
      Q s₁ (after enumeration env s₁))
    (haggregate : ∀ form typedef s₁, Enters env s form typedef s₁ →
      Q s₁ (after (aggregate form typedef) env s₁)) : Q s (after (statementRound ()) env s) := by
  have bind {α β : Type} {m : Reader α} {f : α → Reader β} {s : State} (hm : R s (after m env s))
      (hf : ∀ a s₁, m env s = .ok a s₁ → Q s₁ (after (f a) env s₁)) : Q s (after (m >>= f) env s) := by
    cases h : m env s with
    | ok a s₁ =>
      rw [after_of_ok h] at hm
      rw [after_bind_ok h]
      exact hbefore hm (hf a s₁ h)
    | error e s₁ =>
      rw [after_of_error h] at hm
      rw [after_bind_error h]
      exact hof hm
  rw [statementRound, after_get_bind]
  split
  · exact hof (hR.refl s)
  rename_i going
  refine bind (hR.peek env s) fun t s₁ next => ?_
  rw [after_get_bind, statementAt]
  split
  · exact hof (hR.refl s₁)
  rw [after_bind_pure]
  replace going : s.report.full = false := Bool.eq_false_iff.mpr going
  refine hafter ?_ (hR.after_attempt (s := after statement env s₁) t _ false () (hR.refl _))
  rw [statement, after_bind_ok (peek_peek next)]
  split
  · exact hof (hR.bind hR.advance (fun _ => hR.comment t) env s₁)
  split
  · exact hof (hR.directive env s₁)
  split
  · exact hof (hR.bind hR.advance (fun _ => hR.pure _) env s₁)
  split
  · next word => exact haggregate _ _ _ (.declaration going next word (by decide))
  split
  · next word => exact haggregate _ _ _ (.declaration going next word (by decide))
  split
  · next word => exact henum t s₁ going next word
  split
  · next word =>
    refine bind (hR.advance env s₁) fun u s₂ taken => bind (hR.peek env s₂) fun v s₃ second => ?_
    split
    · next target => exact haggregate _ _ _ (.typedef going next word taken second target (by decide))
    split
    · next target => exact haggregate _ _ _ (.typedef going next word taken second target (by decide))
    · exact hof (hR.throw _ env s₃)
  split
  · exact hof (hR.throw _ env s₁)
  · exact hof (hR.throw _ env s₁)

/-- What is written for a type that is declared in state `s`. Nothing is written where a size has too
many digits. -/
inductive Puts (s : State) (t : TypeInfo) : List Script.Item → Prop where
  | nothing : Puts s t []
  | enum (e : Script.EnumDecl) : Puts s t [.enumDecl e]
  | aggregate {c : OpenClass} (backing : t.backing = none) (current : s.script.current = some c) :
      Puts s t [.classDecl (Script.classOf s.settings ⟨s.registry.types ++ [t]⟩ t c)]

/-- At most one type is added to the declared ones; it and what is written for it have the property.
-/
def Registers (s s' : State) (P : TypeInfo → List Script.Item → Prop) : Prop :=
  s'.output = s.output ∨
    ∃ t items, P t items ∧ s'.output = (⟨s.registry.types ++ [t]⟩, s.script.decls ++ items)

theorem Registers.mono {Q : TypeInfo → List Script.Item → Prop} (h : Registers s s' P)
    (hPQ : ∀ t items, P t items → Q t items) : Registers s s' Q := by
  rcases h with h | ⟨t, items, ht, h⟩
  · exact .inl h
  · exact .inr ⟨t, items, hPQ t items ht, h⟩

theorem registers_of_keeps {m : Reader α} (hm : Keeps State.output m) :
    Registers s (after m env s) P := .inl (hm env s)

theorem Registers.congr {u : State} (h : Registers u s' P) (ho : u.output = s.output) : Registers s s' P := by
  obtain ⟨hregistry, hdecls⟩ := Prod.mk.inj ho
  rwa [Registers, ho, hregistry, hdecls] at h

theorem registers_bind {β : Type} {m : Reader α} {f : α → Reader β} (hm : Keeps State.output m)
    (hf : ∀ a s₁, m env s = .ok a s₁ → Registers s₁ (after (f a) env s₁) P) :
    Registers s (after (m >>= f) env s) P := by
  cases h : m env s with
  | ok a s₁ =>
    rw [after_bind_ok h]
    exact (hf a s₁ h).congr (hm.of_ok h)
  | error e s₁ =>
    rw [after_bind_error h]
    exact .inl (hm.of_error h)

theorem register_apply (t : TypeInfo) (env : Env) (s : State) :
    register t env s =
      match s.registry.register t with
      | .ok r => .ok () { s with registry := r }
      | .error p => .error (.refused ⟨p, none, none⟩) s := by
  rw [register, get_bind_apply]
  cases s.registry.register t with
  | ok r => rfl
  | error p => rfl

theorem register_ok (h : s.registry.taken t.name = false) :
    register t env s = .ok () { s with registry := ⟨s.registry.types ++ [t]⟩ } := by
  rw [register_apply, Registry.register, h]
  rfl

theorem registry_eq_of_register {r' : Registry} (h : r.register t = .ok r') : r' = ⟨r.types ++ [t]⟩ := by
  unfold Registry.register at h
  split at h
  · cases h
  · cases h
    rfl

/-- Adding a type is refused, or adds it before the rest is done. -/
theorem registers_register {k : Unit → Reader α} (hr : r = ⟨s.registry.types ++ [t]⟩)
    (hk : ∃ items, P t items ∧
      (after (k ()) env { s with registry := r }).output = (r, s.script.decls ++ items)) :
    Registers s (after (register t >>= k) env s) P := by
  subst hr
  cases hr : s.registry.register t with
  | error p =>
    have h : register t env s = .error (.refused ⟨p, none, none⟩) s := by rw [register_apply, hr]
    rw [after_bind_error h]
    exact .inl rfl
  | ok r =>
    have h : register t env s = .ok () { s with registry := r } := by rw [register_apply, hr]
    have hr' : r = ⟨s.registry.types ++ [t]⟩ := registry_eq_of_register hr
    subst hr'
    rw [after_bind_ok h]
    obtain ⟨items, ht, ho⟩ := hk
    exact .inr ⟨t, items, ht, ho⟩

theorem output_log (n : Note) : Keeps State.output (log n) := (held_log n).context.declarations.output

theorem output_warnOfPadding (d : Draft) (t : TypeInfo) :
    Keeps State.output (warnOfPadding d t) := (held_warnOfPadding d t).context.declarations.output

/-- What is written first is what is written, if the rest writes nothing. -/
theorem output_write {f : State → Except Failure Script} {k : Unit → Reader α}
    (hk : Keeps State.output (k ())) :
    (after (write f >>= k) env s).output = (after (write f) env s).output := by
  cases h : write f env s with
  | ok a s₁ =>
    rw [after_bind_ok h, after_of_ok h]
    exact hk env s₁
  | error e s₁ => rw [after_bind_error h, after_of_error h]

theorem puts_closeClass (env : Env) (s : State) (hr : r = ⟨s.registry.types ++ [t]⟩) (ht : t.backing = none) :
    ∃ items, Puts s t items ∧
      (after (write fun s => s.script.closeClass s.settings s.registry t) env
        { s with registry := r }).output = (r, s.script.decls ++ items) := by
  subst hr
  rw [after_write]
  unfold Script.closeClass
  cases hc : s.script.current with
  | none =>
    refine ⟨[], .nothing, ?_⟩
    simp [State.output]
  | some c =>
    by_cases hw : Decimal.writable t.byteLength = true
    · refine ⟨_, .aggregate ht hc, ?_⟩
      simp [State.output, hw, Script.decls, Script.Item.isDecl]
    · refine ⟨[], .nothing, ?_⟩
      simp [State.output, hw]

theorem puts_addEnum (env : Env) (s : State) (t : TypeInfo) (r : Registry) (name : String)
    (members : List (String × Constant)) :
    ∃ items, Puts s t items ∧
      (after (write fun s => s.script.addEnum s.settings name members) env
        { s with registry := r }).output = (r, s.script.decls ++ items) := by
  rw [after_write]
  cases h : s.script.addEnum s.settings name members with
  | error f =>
    refine ⟨[], .nothing, ?_⟩
    simp [State.output]
  | ok script =>
    obtain ⟨written, -, h'⟩ := bind_eq_ok_iff.mp h
    cases h'
    refine ⟨_, .enum ⟨name, s.settings.language, s.settings.exported, written⟩, ?_⟩
    simp [State.output, Script.decls, Script.Item.isDecl]

theorem registers_closeAggregate :
    Registers s (after (closeAggregate d) env s) fun t items =>
      (d.discarded = false ∧ ∃ name, d.name = some name ∧ d.finish s.settings name = some t) ∧
        Puts s t items := by
  unfold closeAggregate
  split
  · rename_i name hkept hname
    refine registers_bind .get fun s₁ s₂ hg => ?_
    cases hg
    cases hf : d.finish s.settings name with
    | none =>
      exact registers_of_keeps (.bind context_discardClass.declarations.output fun _ =>
        .refuse _ _)
    | some t =>
      have ht : t.backing = none := by
        obtain ⟨-, rfl⟩ := finish_some hf
        rfl
      obtain ⟨items, hputs, ho⟩ := puts_closeClass env s rfl ht
      refine registers_register rfl ⟨items, ⟨⟨hkept, name, hname, hf⟩, hputs⟩, ?_⟩
      rw [output_write, ho]
      exact .bind (output_log _) fun _ =>
        .bind (output_warnOfPadding d t) fun _ => output_log _
  · exact registers_of_keeps context_discardClass.declarations.output

theorem registers_closeEnum (e : EnumDraft) (name : String) :
    Registers s (after (closeEnum e name) env s) fun t items =>
      t = e.finish s.settings name ∧ Puts s t items := by
  refine registers_bind .get fun s₁ s₂ hg => ?_
  cases hg
  obtain ⟨items, hputs, ho⟩ := puts_addEnum env s (e.finish s.settings name)
    ⟨s.registry.types ++ [e.finish s.settings name]⟩ name e.members
  refine registers_register rfl ⟨items, ⟨rfl, hputs⟩, ?_⟩
  rw [output_write, ho]
  exact .bind (output_log _) fun _ => output_log _

theorem registers_enumeration {t : Token} (going : s.report.full = false) (next : peek env s = .ok t s₁)
    (word : t.isWord "enum" = true) :
    Registers s₁ (after enumeration env s₁) fun t items =>
      ∃ s', Completes env s t s' ∧ Puts s' t items := by
  refine registers_bind context_enumOpening.declarations.output fun p s₂ h₂ => ?_
  refine registers_bind (output_enumMembers p.1 p.2) fun e s₃ h₃ => ?_
  cases e with
  | none => exact registers_of_keeps (.pure _)
  | some e =>
    refine registers_bind (held_accept _).context.declarations.output fun _ s₄ h₄ => ?_
    split
    · exact registers_of_keeps (.pure _)
    · rename_i name hname
      refine (registers_closeEnum e name).mono fun t items ht => ?_
      obtain ⟨rfl, hputs⟩ := ht
      exact ⟨s₄, .enum going next word h₂ h₃ h₄ hname, hputs⟩

/-- The name of a typedef, or that it is wrong, does not change what is placed. -/
theorem typedefName_ok (h : typedefName d env s = .ok d' s') (u : Settings) (name : String) :
    d'.finish u name = d.finish u name := by
  obtain ⟨t, s₁, -, h⟩ := bind_ok.mp h
  split at h
  · obtain ⟨_, s₂, -, h⟩ := bind_ok.mp h
    cases h
    rfl
  · obtain ⟨_, s₂, -, h⟩ := bind_ok.mp h
    obtain ⟨_, s₃, hg, h⟩ := bind_ok.mp h
    split at h
    · obtain ⟨_, s₄, -, h⟩ := bind_ok.mp h
      cases h
      rfl
    · cases h
      rfl

theorem Finishes.held (h : Finishes env typedef d s t s') : s'.held = s.held := by
  obtain ⟨d', s₁, _, _, hname, hsemicolon, -⟩ := h
  rw [(held_accept _).of_ok hsemicolon]
  cases typedef with
  | false =>
    cases hname
    rfl
  | true => exact (held_typedefName d).of_ok hname

theorem Finishes.context (h : Finishes env typedef d s t s') : s'.context = s.context := by
  show s'.held.context = s.held.context
  rw [h.held]

theorem Finishes.finish (h : Finishes env typedef d s t s') : ∃ name, d.finish s.settings name = some t := by
  have hs : s'.settings = s.settings := congrArg Prod.fst h.context
  obtain ⟨d', s₁, _, name, hname, -, -, -, ht⟩ := h
  refine ⟨name, ?_⟩
  rw [hs] at ht
  cases typedef with
  | false =>
    cases hname
    exact ht
  | true => rw [← ht, typedefName_ok hname]

theorem registers_closing :
    Registers s (after (closing typedef (some d)) env s) fun t items =>
      ∃ s', Finishes env typedef d s t s' ∧ Puts s' t items := by
  have hname : Keeps State.held (if typedef then typedefName d else pure d : Reader Draft) :=
    .ite (held_typedefName d) (.pure d)
  have last (d' : Draft) (s₁ : State)
      (h₁ : (if typedef then typedefName d else pure d : Reader Draft) env s = .ok d' s₁) :
      Registers s₁ (after (bodyEnd d') env s₁) fun t items =>
        ∃ s', Finishes env typedef d s t s' ∧ Puts s' t items := by
    refine registers_bind (held_accept _).context.declarations.output fun _ s₂ h₂ => ?_
    refine registers_closeAggregate.mono fun t items ht => ?_
    obtain ⟨⟨hkept, name, hn, hf⟩, hputs⟩ := ht
    exact ⟨s₂, ⟨d', s₁, _, name, h₁, h₂, hkept, hn, hf⟩, hputs⟩
  cases typedef with
  | false => exact registers_bind hname.context.declarations.output last
  | true => exact registers_bind hname.context.declarations.output last

theorem members_ok {d₁ : Draft} (h : members d env s = .ok (some d₁) s₁) :
    ∃ d₂ s₂, Runs memberRound env d s d₂ s₂ ∧
      memberRound d₂ env s₂ = .ok (.done (some d₁)) s₁ := rounds_ok h

/-- A body that is read to its end, and then gets its name, is closed. -/
theorem Finishes.closes {d₁ : Draft} (h : Finishes env typedef d₁ s₁ t s')
    (body : members d env s = .ok (some d₁) s₁) : Closes env d s t := by
  obtain ⟨name, ht⟩ := h.finish
  obtain ⟨d₂, s₂, hrun, hdone⟩ := members_ok body
  exact ⟨d₂, s₂, d₁, s₁, name, hrun, hdone, ht⟩

theorem registers_aggregate (h : Enters env s form typedef s₁) :
    Registers s₁ (after (aggregate form typedef) env s₁) fun t items =>
      ∃ s', Completes env s t s' ∧ Puts s' t items := by
  refine registers_bind (context_opening form typedef).declarations.output fun d s₂ h₂ => ?_
  refine registers_bind (declarations_members d).output fun d₁ s₃ h₃ => ?_
  cases d₁ with
  | none => exact registers_of_keeps context_discardClass.declarations.output
  | some d₁ =>
    refine registers_closing.mono fun t items ht => ?_
    obtain ⟨s', ht, hputs⟩ := ht
    exact ⟨s', .aggregate h h₂ h₃ ht, hputs⟩

/-- A completed struct or union is a body that is closed. -/
theorem Completes.declares (h : Completes env s t s') : Declares env s t := by
  cases h with
  | enum => exact .enum _ _ _
  | aggregate enters opens body ends => exact .aggregate enters opens (ends.closes body)

/-! ## What a description declares -/

theorem registers_statementRound (env : Env) (s : State) :
    Registers s (after (statementRound ()) env s) fun t items =>
      ∃ s', Completes env s t s' ∧ Puts s' t items := by
  let P (t : TypeInfo) (items : List Script.Item) : Prop := ∃ s', Completes env s t s' ∧ Puts s' t items
  refine after_statementRound (Q := fun a b => Registers a b P) asidePath_output .inl
    (fun ho h => h.congr ho) (fun h ho => ?_) (fun _ _ => registers_enumeration)
    fun _ _ _ => registers_aggregate
  rwa [Registers, ho]

theorem read_fst (env : Env) (s : State) : (read env s).1 = after description env s := by
  unfold read after
  cases description env s with
  | ok a s₁ => rfl
  | error e s₁ => cases e <;> rfl

theorem description_of_read {f : Failure} (h : read env s₀ = (s, some f)) :
    description env s₀ = .error (.failed f) s := by
  unfold read at h
  cases hend : description env s₀ with
  | ok a s' =>
    rw [hend] at h
    cases h
  | error e s' =>
    rw [hend] at h
    cases e with
    | refused d => cases h
    | failed g =>
      cases h
      rfl

/-- What holds at the start and after each statement holds throughout the reading and at its end. -/
theorem read_invariant {P : State → Prop} (h₀ : P s₀)
    (hP : ∀ s, Runs statementRound env () s₀ () s → P s → P (after (statementRound ()) env s)) :
    (∀ s, Runs statementRound env () s₀ () s → P s) ∧ P (read env s₀).1 := by
  have run (u : Unit) (s : State) (hr : Runs statementRound env () s₀ u s) : P s := by
    induction hr with
    | start => exact h₀
    | next before round _ ih =>
      have hs := hP _ before ih
      rwa [after_of_ok round] at hs
  refine ⟨run (), ?_⟩
  obtain ⟨_, s, hr, he⟩ := exists_after_rounds statementRound env () s₀
  rw [read_fst, description, he]
  exact hP s hr (run () s hr)

/-- What holds of the declared types and of what is written at the start, and still holds when a
statement adds to them, holds throughout the reading and at its end. -/
theorem output_growth {P : Registry → List Script.Item → Prop} (h₀ : P s₀.registry s₀.script.decls)
    (hP : ∀ s t s' items, Runs statementRound env () s₀ () s → P s.registry s.script.decls →
      Completes env s t s' → Puts s' t items → P ⟨s.registry.types ++ [t]⟩ (s.script.decls ++ items)) :
    (∀ s, Runs statementRound env () s₀ () s → P s.registry s.script.decls) ∧
      P (read env s₀).1.registry (read env s₀).1.script.decls := by
  refine read_invariant (P := fun s => P s.registry s.script.decls) h₀ fun s hr hs => ?_
  rcases registers_statementRound env s with h | ⟨t, items, ⟨s', ht, hputs⟩, h⟩
  · obtain ⟨hregistry, hdecls⟩ := Prod.mk.inj h
    rwa [hregistry, hdecls]
  · obtain ⟨hregistry, hdecls⟩ := Prod.mk.inj h
    rw [hregistry, hdecls]
    exact hP s t s' items hr hs ht hputs

theorem registry_growth {P : Registry → Prop} (h₀ : P s₀.registry)
    (hP : ∀ s t s', Runs statementRound env () s₀ () s → P s.registry → Completes env s t s' →
      P ⟨s.registry.types ++ [t]⟩) :
    (∀ s, Runs statementRound env () s₀ () s → P s.registry) ∧ P (read env s₀).1.registry :=
  output_growth (P := fun r _ => P r) h₀ fun s t s' _ hr hs ht _ => hP s t s' hr hs ht

theorem read_eq_of_runs (h : Runs statementRound env () s₀ () s) : read env s₀ = read env s := by
  have hdescription : description env s₀ = description env s := h.rounds_eq
  rw [read, hdescription, read]

/-- What is declared before a statement stays declared. -/
theorem registry_mono (h : Runs statementRound env () s₀ () s) :
    ∃ ts, (read env s₀).1.registry.types = s.registry.types ++ ts := by
  rw [read_eq_of_runs h]
  have hstart : ∃ ts, s.registry.types = s.registry.types ++ ts := ⟨[], (List.append_nil _).symm⟩
  refine (registry_growth (P := fun r => ∃ ts, r.types = s.registry.types ++ ts) hstart ?_).2
  rintro s' t s'' - ⟨ts, hts⟩ -
  exact ⟨ts ++ [t], by rw [hts, List.append_assoc]⟩

/-- Every declared type is completed in some statement. -/
theorem exists_completes (h₀ : s₀.registry = {}) (ht : t ∈ (read env s₀).1.registry.types) :
    ∃ s s', Runs statementRound env () s₀ () s ∧ Completes env s t s' := by
  let P (r : Registry) : Prop := ∀ t ∈ r.types, ∃ s s', Runs statementRound env () s₀ () s ∧ Completes env s t s'
  have hstart : P s₀.registry := by
    rw [h₀]
    nofun
  refine (registry_growth hstart ?_).2 t ht
  intro s u s' before hs completes v hv
  rcases List.mem_append.mp hv with hv | hv
  · exact hs v hv
  · obtain rfl := List.mem_singleton.mp hv
    exact ⟨s, s', before, completes⟩

end RecordView.Declaration
