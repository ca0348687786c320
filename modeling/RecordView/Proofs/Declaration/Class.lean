import RecordView.Proofs.Declaration.Position
import RecordView.Proofs.Declaration.Registry
import RecordView.Proofs.Script.Growth

/-! Every struct or union that is declared gets its class: unless the reading fails, the class that is
open when the type is declared is among the declarations of the script. -/
namespace RecordView.Declaration
open Reader Script

variable {env : Env} {s s' s₀ e : State} {t : TypeInfo} {d : Draft} {o : OpenClass}

theorem Unrefused.log (n : Note) : Unrefused (log n) := by
  intro env s e s' h
  unfold Reader.log at h
  split at h <;> cases h

theorem Unrefused.write (f : State → Except Failure Script) : Unrefused (write f) := by
  intro env s e s' h
  rw [write_apply] at h
  split at h <;> cases h

theorem Unrefused.warnOfPadding (d : Draft) (t : TypeInfo) : Unrefused (warnOfPadding d t) := by
  intro env s e s' h
  obtain ⟨_, _, hok⟩ := Twin.warnOfPadding_apply d t env s
  rw [hok] at h
  cases h

def declaring (d : Draft) (t : TypeInfo) : Reader Unit := do
  write fun s => s.script.closeClass s.settings s.registry t
  log (.classEmitted t.name t.byteLength)
  warnOfPadding d t
  log (.aggregate t.form t.name t.byteLength t.alignment)

theorem Unrefused.declaring (d : Draft) (t : TypeInfo) : Unrefused (declaring d t) :=
  .bind (.write _) fun _ => .bind (.log _) fun _ => .bind (.warnOfPadding d t) fun _ => .log _

theorem declaring_ok (hcurrent : s.script.current = some o) (h : declaring d t env s = .ok () s') :
    s'.output = (s.registry, s.script.decls ++ [.classDecl (classOf s.settings s.registry t o)]) := by
  obtain ⟨_, s₁, hwrite, h⟩ := bind_ok.mp h
  have hrest : s'.output = s₁.output := by
    refine Keeps.of_ok ?_ h
    exact .bind (output_log _) fun _ => .bind (output_warnOfPadding d t) fun _ => output_log _
  obtain ⟨script, hclose, rfl⟩ := write_ok hwrite
  rcases closeClass_eq_ok_iff.mp hclose with ⟨hnone, -⟩ | ⟨o', ho', -, rfl⟩
  · cases hcurrent.symm.trans hnone
  · cases hcurrent.symm.trans ho'
    rw [hrest]
    simp [State.output, decls, Item.isDecl]

theorem closeAggregate_eq {name : String} (hkept : d.discarded = false) (hname : d.name = some name)
    (hfinish : d.finish s.settings name = some t) (hfree : s.registry.taken t.name = false) :
    closeAggregate d env s = declaring d t env { s with registry := ⟨s.registry.types ++ [t]⟩ } := by
  unfold closeAggregate
  rw [hkept, hname]
  dsimp only
  rw [get_bind_apply, hfinish]
  dsimp only
  rw [bind_apply, register_ok hfree]
  rfl

/-- What stands after the members of a body that is to declare a type. -/
theorem Finishes.exists_closing {typedef : Bool} (h : Finishes env typedef d s t s') :
    ∃ d' name, closing typedef (some d) env s = closeAggregate d' env s' ∧ d'.discarded = false ∧
      d'.name = some name ∧ d'.finish s'.settings name = some t := by
  obtain ⟨d', s₁, semicolon, name, hname, hsemicolon, hkept, hnamed, hfinish⟩ := h
  refine ⟨d', name, ?_, hkept, hnamed, hfinish⟩
  cases typedef with
  | false =>
    cases hname
    rw [closing]
    show (accept ";" >>= fun _ => closeAggregate d) env s = _
    rw [bind_apply, hsemicolon]
  | true =>
    have htypedef : typedefName d env s = .ok d' s₁ := hname
    rw [closing]
    show (typedefName d >>= fun d => accept ";" >>= fun _ => closeAggregate d) env s = _
    rw [bind_apply, htypedef]
    dsimp only
    rw [bind_apply, hsemicolon]

theorem Finishes.closing_eq {typedef : Bool} (h : Finishes env typedef d s t s')
    (hfree : s'.registry.taken t.name = false) :
    ∃ d', closing typedef (some d) env s =
      declaring d' t env { s' with registry := ⟨s'.registry.types ++ [t]⟩ } := by
  obtain ⟨d', name, hclosing, hkept, hnamed, hfinish⟩ := h.exists_closing
  exact ⟨d', hclosing.trans (closeAggregate_eq hkept hnamed hfinish hfree)⟩

/-- A statement that declares a struct or union and does not fail adds the type and the class that is
open then. -/
theorem Completes.output_eq (h : Completes env s t s') (ht : t.backing = none) {r : Round Unit Unit}
    (hround : statementRound () env s = .ok r e) :
    ∃ o, s'.script.current = some o ∧ e.output = (⟨s.registry.types ++ [t]⟩,
      s.script.decls ++ [.classDecl (classOf s'.settings ⟨s.registry.types ++ [t]⟩ t o)]) := by
  obtain ⟨-, -, as, -, -, has, -⟩ := h.serving .start ht
  obtain ⟨o, ho, -⟩ := Option.map_eq_some_iff.mp has
  have hregistry := h.registry_eq
  have hfree := h.free
  refine ⟨o, ho, ?_⟩
  cases h with
  | enum => cases ht
  | @aggregate form typedef s₁ s₂ s₃ _ d₀ d₁ _ enters opens body ends =>
    have houtput : s'.output = s.output := by
      have hends : s'.output = s₃.output := congrArg (fun c => (c.2.1, c.2.2.2)) ends.context
      have henters : s₁.output = s.output := congrArg (fun c => (c.2.1, c.2.2.2)) enters.context
      rw [hends, (declarations_members d₀).output.of_ok body,
        (context_opening form typedef).declarations.output.of_ok opens, henters]
    obtain ⟨d', hclosing⟩ := ends.closing_eq (by rw [hregistry]; exact hfree)
    obtain ⟨v, s₄, next⟩ := enters.exists_next
    have hbody : (members d₀ >>= closing typedef) env s₂ =
        declaring d' t env { s' with registry := ⟨s'.registry.types ++ [t]⟩ } := by
      rw [bind_apply, body]
      exact hclosing
    rw [Between.round_eq enters next opens .start, bind_apply, restOfStatement, attempt, tryCatch_apply,
      hbody] at hround
    cases hdeclaring : declaring d' t env { s' with registry := ⟨s'.registry.types ++ [t]⟩ } with
    | error f s₅ =>
      rw [hdeclaring] at hround
      cases f with
      | refused r => exact absurd hdeclaring (Unrefused.declaring d' t _ _ _ _)
      | failed f => cases hround
    | ok a s₅ =>
      rw [hdeclaring] at hround
      cases hround
      rw [declaring_ok (s := { s' with registry := ⟨s'.registry.types ++ [t]⟩ }) ho hdeclaring]
      obtain ⟨-, hdecls⟩ := Prod.mk.inj houtput
      rw [hregistry, ← hdecls]

/-! ## The whole description -/

/-- What is declared stays declared. -/
theorem decls_prefix_read (env : Env) (s : State) :
    s.script.decls <+: (read env s).1.script.decls :=
  (output_growth (P := fun _ ds => s.script.decls <+: ds) List.prefix_rfl
    fun _ _ _ items _ h _ _ => h.trans (List.prefix_append _ items)).2

theorem Unrefused.statementRound : Unrefused (statementRound ()) := by
  refine .bind .get fun _ => .ite (.pure _) ?_
  refine .bind .peek fun t => .bind .get fun _ => ?_
  refine .ite (.pure _) ?_
  exact .bind (.attempt _ _ _ _ _) fun _ => .pure _

theorem Unrefused.description : Unrefused description := .rounds (fun _ => .statementRound) ()

/-- A reading that does not fail ends with the description. -/
theorem description_of_unfailed (h : (read env s₀).2 = none) :
    description env s₀ = .ok () (read env s₀).1 := by
  unfold read at h ⊢
  cases hend : description env s₀ with
  | ok a s => rfl
  | error e s =>
    rw [hend] at h
    cases e with
    | failed f => cases h
    | refused e => exact absurd hend (Unrefused.description env s₀ e s)

/-- In a reading that does not fail, no statement does. -/
theorem exists_statementRound (hrun : Runs statementRound env () s₀ () s)
    (hnone : (read env s₀).2 = none) :
    ∃ r e, statementRound () env s = .ok r e ∧ e.script.decls <+: (read env s₀).1.script.decls := by
  rw [read_eq_of_runs hrun] at hnone ⊢
  cases hround : statementRound () env s with
  | error f e =>
    cases f with
    | refused d => exact absurd hround (Unrefused.statementRound _ _ _ _)
    | failed f =>
      rw [read, description, rounds, hround] at hnone
      cases hnone
  | ok r e =>
    refine ⟨r, e, rfl, ?_⟩
    cases r with
    | done a =>
      have hlast : (read env s).1 = e := by rw [read, description, rounds, hround]
      exact hlast ▸ List.prefix_rfl
    | again b =>
      by_cases hleft : e.left < s.left
      · have hnext : Runs statementRound env () s () e := Runs.start.next hround hleft
        rw [read_eq_of_runs hnext]
        exact decls_prefix_read env e
      · rw [read, description, rounds, hround] at hnone
        dsimp only at hnone
        rw [if_neg hleft] at hnone
        cases hnone

/-- The class of a struct or union that a reading declares is in its script. -/
theorem Completes.class_mem (h : Completes env s t s') (ht : t.backing = none)
    (hrun : Runs statementRound env () s₀ () s) (hnone : (read env s₀).2 = none) :
    ∃ o, s'.script.current = some o ∧
      .classDecl (classOf s'.settings ⟨s.registry.types ++ [t]⟩ t o) ∈
        (read env s₀).1.script.items := by
  obtain ⟨r, e, hround, hprefix⟩ := exists_statementRound hrun hnone
  obtain ⟨o, ho, houtput⟩ := h.output_eq ht hround
  have hdecls : e.script.decls = _ := congrArg Prod.snd houtput
  rw [hdecls] at hprefix
  have hmem := hprefix.subset (List.mem_append_right _ (List.mem_singleton_self _))
  exact ⟨o, ho, List.mem_of_mem_filter hmem⟩

/-! ## From a place in a body on -/

variable {s₁ s₂ s₂' s₃ : State} {form form' : Form} {typedef typedef' : Bool} {d₀ : Draft}

theorem Form.word_inj (h : form.word = form'.word) : form = form' := by
  revert h
  cases form <;> cases form' <;> decide

/-- The keyword of a struct or union is no other word that starts a statement. -/
theorem keyword_ne {v : Token} {word : String} (h : v.isWord form.word = true) (hform : form ≠ .enum)
    (hword : word ≠ "struct" ∧ word ≠ "union") : v.isWord word = false := by
  refine isWord_ne h ?_
  cases form with
  | enum => exact absurd rfl hform
  | struct => exact hword.1.symm
  | union => exact hword.2.symm

/-- A statement gets to one keyword in one way. -/
theorem Enters.unique (h : Enters env s form typedef s₂) (h' : Enters env s form' typedef' s₂') :
    form = form' ∧ typedef = typedef' ∧ s₂ = s₂' := by
  cases h with
  | declaration _ next word ne =>
    cases h' with
    | declaration _ next' word' _ =>
      cases next.symm.trans next'
      have hword := (text_of_isWord word).symm.trans (text_of_isWord word')
      exact ⟨Form.word_inj hword, rfl, rfl⟩
    | typedef _ next' word' =>
      cases next.symm.trans next'
      rw [keyword_ne word ne (by decide)] at word'
      cases word'
  | typedef _ next word taken second target ne =>
    cases h' with
    | declaration _ next' word' ne' =>
      cases next.symm.trans next'
      rw [keyword_ne word' ne' (by decide)] at word
      cases word
    | typedef _ next' _ taken' second' target' _ =>
      cases next.symm.trans next'
      cases taken.symm.trans taken'
      cases second.symm.trans second'
      have hword := (text_of_isWord target).symm.trans (text_of_isWord target')
      exact ⟨Form.word_inj hword, rfl, rfl⟩

/-- A statement that declares something declares the struct or union in whose body it is. -/
theorem Completes.of_body (h : Completes env s₁ t e) (enters : Enters env s₁ form typedef s₂)
    (opens : opening form typedef env s₂ = .ok d₀ s₃) (body : Runs memberRound env d₀ s₃ d s) :
    t.backing = none ∧ ∃ d₁ s', members d env s = .ok (some d₁) s' ∧ Finishes env typedef d₁ s' t e := by
  cases h with
  | enum _ next word =>
    cases enters with
    | declaration _ next' word' ne =>
      cases next.symm.trans next'
      rw [keyword_ne word' ne (by decide)] at word
      cases word
    | typedef _ next' word' =>
      cases next.symm.trans next'
      rw [isWord_ne word (by decide)] at word'
      cases word'
  | aggregate enters' opens' body' ends =>
    obtain ⟨rfl, rfl, rfl⟩ := enters.unique enters'
    cases opens.symm.trans opens'
    have hmembers : members d₀ env s₃ = members d env s := body.rounds_eq
    rw [hmembers] at body'
    refine ⟨?_, _, _, body', ends⟩
    obtain ⟨d₂, _, _, name, _, _, _, _, hfinish⟩ := ends
    obtain ⟨-, rfl⟩ := finish_some hfinish
    rfl

/-- Up to a place in a body, the statement has declared nothing. -/
theorem registry_of_body (enters : Enters env s₁ form typedef s₂)
    (opens : opening form typedef env s₂ = .ok d₀ s₃) (body : Runs memberRound env d₀ s₃ d s) :
    s.registry = s₁.registry := by
  have henters : s₂.registry = s₁.registry := congrArg (·.2.1) enters.context
  rw [runs_registry body, (context_opening _ _).declarations.registry.of_ok opens, henters]

/-- If two statements that do not fail lead to the same types, they declare the same. -/
theorem Completes.of_registry (h : Completes env s t s') (ht : t.backing = none)
    {r r' : Round Unit Unit} {u e' : State} (hround : statementRound () env s = .ok r e)
    (hround' : statementRound () env u = .ok r' e') (hbefore : s.registry = u.registry)
    (hafter : e.registry = e'.registry) : ∃ u', Completes env u t u' := by
  obtain ⟨o, -, houtput⟩ := h.output_eq ht hround
  have htypes : e'.registry = ⟨u.registry.types ++ [t]⟩ := by
    rw [← hafter, ← hbefore]
    exact congrArg Prod.fst houtput
  have hregisters := registers_statementRound env u
  rw [after_of_ok hround'] at hregisters
  rcases hregisters with hsame | ⟨t', items, ⟨u', hu', -⟩, hsome⟩
  · have hsame : e'.registry = u.registry := congrArg Prod.fst hsame
    rw [htypes] at hsame
    have hlength := congrArg (fun r : Registry => r.types.length) hsame
    simp at hlength
  · have hsome : e'.registry = ⟨u.registry.types ++ [t']⟩ := congrArg Prod.fst hsome
    rw [htypes] at hsome
    have htypes' := congrArg Registry.types hsome
    simp only [List.append_cancel_left_eq, List.cons.injEq, and_true] at htypes'
    exact ⟨u', htypes' ▸ hu'⟩

/-- The fields that are placed at some place in a body are the first ones of its type. -/
theorem Completes.fields_prefix (h : Completes env s₁ t e) (enters : Enters env s₁ form typedef s₂)
    (opens : opening form typedef env s₂ = .ok d₀ s₃) (body : Runs memberRound env d₀ s₃ d s) :
    d.fields <+: t.fields := by
  obtain ⟨-, d₁, s', hmembers, hfinishes⟩ := h.of_body enters opens body
  obtain ⟨d₂, s₄, hrun, hdone⟩ := members_ok hmembers
  obtain ⟨-, rfl, -⟩ := memberRound_done hdone
  have hfollows : d.Follows (d₂.flush s₄.settings) :=
    (runs_follows hrun).trans (Draft.follows_flush _ d₂)
  obtain ⟨name, hfinish⟩ := hfinishes.finish
  obtain ⟨-, rfl⟩ := finish_some hfinish
  exact hfollows.steps.filterMap _

/-- What is in the class at some place in a body stays at the front of it. -/
theorem Completes.class_extends (h : Completes env s₁ t e) (enters : Enters env s₁ form typedef s₂)
    (opens : opening form typedef env s₂ = .ok d₀ s₃) (body : Runs memberRound env d₀ s₃ d s)
    (ho : s.script.current = some o) (hrun : Runs statementRound env () s₀ () s₁)
    (hnone : (read env s₀).2 = none) :
    ∃ c, .classDecl c ∈ (read env s₀).1.script.items ∧ c.name = t.name ∧ o.members <+: c.members := by
  obtain ⟨ht, d₁, s', hmembers, hfinishes⟩ := h.of_body enters opens body
  obtain ⟨o', ho', hmem⟩ := h.class_mem ht hrun hnone
  have happends : Appends false s s' := appends_members nofun hmembers
  obtain ⟨ms, probed, hcurrent, -⟩ := happends.members o ho
  have hscript : e.script = s'.script := (congrArg State.script hfinishes.held :)
  rw [hscript, hcurrent] at ho'
  cases ho'
  exact ⟨_, hmem, rfl, List.prefix_append _ ms⟩

end RecordView.Declaration
