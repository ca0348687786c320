import RecordView.Proofs.Declaration.Acceptance
import RecordView.Proofs.Declaration.Class

/-! The fields of a declared type are those of the statements that were accepted in its body, and its
class lists their accessors. -/
namespace RecordView

namespace Script

variable {u : Settings} {f : Field} {a : Accessor} {ms : List Member}

def fieldLines (u : Settings) (f : Field) : Except Failure (List String) := do
  let s ← addField (openClass {} none) u f
  return (s.current.map memberLines).getD []

theorem fieldLines_padding (u : Settings) (h : f.padding = true) : fieldLines u f = .ok [] := by
  unfold fieldLines addField openClass
  simp only [h, if_true]
  rfl

theorem fieldLines_accessor (h : f.padding = false) (ha : accessor u f = .ok a) :
    fieldLines u f = .ok a.lines := by
  unfold fieldLines addField openClass
  simp only [h, ha, Bool.false_eq_true, if_false]
  show Except.ok (memberLines { name := none, members := [.accessor a], .. }) = _
  rw [memberLines, List.flatMap_singleton]
  rfl

/-- The members are the lines of the fields, one after the other. -/
def Lists (u : Settings) (fs : List Field) (ms : List Member) : Prop :=
  ∃ ls, List.Forall₂ (fun f l => fieldLines u f = .ok l) fs ls ∧
    ms.flatMap Member.lines = ls.flatten

theorem flatMap_accessors (h : ∀ m ∈ ms, m.accessor?.isSome) :
    ms.flatMap Member.lines = (accessorsOf ms).flatMap Accessor.lines := by
  induction ms with
  | nil => rfl
  | cons m ms ih =>
    rw [List.forall_mem_cons] at h
    cases m with
    | accessor a =>
      rw [List.flatMap_cons, ih h.2]
      rfl
    | verbatim text => cases h.1

theorem lists_of_serves {as : List Accessor} {fs : List Field}
    (h : List.Forall₂ (Serves (· = u)) as (visible fs)) :
    ∃ ls, List.Forall₂ (fun f l => fieldLines u f = .ok l) fs ls ∧
      as.flatMap Accessor.lines = ls.flatten := by
  induction fs generalizing as with
  | nil =>
    cases h
    exact ⟨[], .nil, rfl⟩
  | cons f fs ih =>
    cases hp : f.padding with
    | true =>
      have hvisible : visible (f :: fs) = visible fs := List.filter_cons_of_neg (by simp [hp])
      rw [hvisible] at h
      obtain ⟨ls, hls, hlines⟩ := ih h
      exact ⟨[] :: ls, .cons (fieldLines_padding u hp) hls, hlines⟩
    | false =>
      have hvisible : visible (f :: fs) = f :: visible fs := List.filter_cons_of_pos (by simp [hp])
      rw [hvisible] at h
      cases h with
      | @cons a _ as _ first rest =>
        obtain ⟨_, rfl, ha⟩ := first
        obtain ⟨ls, hls, hlines⟩ := ih rest
        refine ⟨a.lines :: ls, .cons (fieldLines_accessor hp ha) hls, ?_⟩
        rw [List.flatMap_cons, hlines, List.flatten_cons]

end Script

namespace Declaration
open Reader Draft Script

variable {env : Env} {s s' s₀ s₁ : State} {d d₀ : Draft} {t : TypeInfo}

/-- No member of the body is a comment or a directive. -/
def QuietBody (env : Env) (d₀ : Draft) (s₀ : State) : Prop :=
  ∀ d s, Runs memberRound env d₀ s₀ d s → Quiet env s

def quiet? (env : Env) (s : State) : Bool :=
  match peek env s with
  | .error _ _ => true
  | .ok t _ => t.kind ≠ .comment ∧ t.kind ≠ .directive

theorem quiet_of_quiet? (h : quiet? env s = true) : Quiet env s := by
  intro t s' hpeek
  rw [quiet?, hpeek] at h
  exact of_decide_eq_true h

def quietBody? (env : Env) (n : Nat) (d₀ : Draft) (s₀ : State) : Bool :=
  allRounds? memberRound env n d₀ s₀ fun _ s => quiet? env s

theorem quietBody_of_quietBody? {n : Nat} (h : quietBody? env n d₀ s₀ = true) : QuietBody env d₀ s₀ := by
  intro d s hrun
  unfold quietBody? at h
  have hquiet := hrun.of_allRounds? h
  exact quiet_of_quiet? hquiet

/-- In a body without comments and directives the settings stay the same. -/
theorem QuietBody.inForce {u : Settings} (h : QuietBody env d₀ s₀) (hu : InForce env d₀ s₀ u) :
    u = s₀.settings := by
  obtain ⟨d, s, hrun, -, rfl⟩ := hu
  have happends : Appends true s₀ s := appends_runs (fun _ => h) hrun
  exact happends.settings rfl

/-- The body declares the type, and in its rounds the statements are accepted. -/
def ClosesWith (env : Env) (d₀ : Draft) (s₀ : State) (fs : List (FieldStatement × Content))
    (t : TypeInfo) : Prop :=
  ∃ d s d' s' name, Accepts env d₀ s₀ fs d s ∧ memberRound d env s = .ok (.done (some d')) s' ∧
    d'.finish s'.settings name = some t

/-- In a body without comments and directives, the class gets the accessors of the fields and nothing
else. -/
theorem lists_members {form : Form} {typedef : Bool} {s₂ : State} {d₁ : Draft}
    (opens : opening form typedef env s = .ok d₀ s₁) (body : members d₀ env s₁ = .ok (some d₁) s₂)
    (hq : QuietBody env d₀ s₁) :
    ∃ o, s₂.script.current = some o ∧ Lists s₁.settings d₁.fields o.members := by
  obtain ⟨name, hopen⟩ := opening_class opens
  have happends : Appends true s₁ s₂ := appends_members (fun _ => hq) body
  obtain ⟨ms, probed, hcurrent, hms⟩ := happends.members _ hopen
  refine ⟨_, hcurrent, ?_⟩
  obtain ⟨as, has, hserves⟩ := members_served (fun _ _ => Makes.serves) body (opening_serving opens)
  have has : accessorsOf ms = as := by
    rw [State.accessors, accessors?, hcurrent] at has
    exact Option.some.inj has
  have hserves : List.Forall₂ (Serves (· = s₁.settings)) (accessorsOf ms) (visible d₁.fields) := by
    rw [has]
    refine hserves.imp fun a f h => ?_
    obtain ⟨u, hu, ha⟩ := h
    exact ⟨u, hq.inForce hu, ha⟩
  obtain ⟨ls, hls, hlines⟩ := lists_of_serves hserves
  exact ⟨ls, hls, (flatMap_accessors (hms rfl)).trans hlines⟩

/-- The statement that declares a struct or union gives it the fields of the accepted statements, and
its class their accessors. -/
theorem Completes.lists (h : Completes env s t s') (hrun : Runs statementRound env () s₀ () s)
    (hr : s.registry.Sound) (ht : t.isAggregate = true) :
    t.backing = none ∧ ∃ d₀ s₁ fs, Opens env s₀ d₀ s₁ ∧ ClosesWith env d₀ s₁ fs t ∧
      t.fields.map Field.unplaced = fs.map (entryOf env) ∧
      (QuietBody env d₀ s₁ → ∃ o, s'.script.current = some o ∧ Lists s₁.settings t.fields o.members) := by
  cases h with
  | enum => cases ht
  | @aggregate form typedef s₁ s₂ s₃ _ d₀ d₁ _ enters opens body ends =>
    obtain ⟨hf, hr₂⟩ := enters.fresh opens
    rw [← hr₂] at hf hr
    obtain ⟨d₂, s₄, hruns, hdone⟩ := members_ok body
    obtain ⟨fs, hfs⟩ := exists_accepts hruns
    obtain ⟨name, hfinish⟩ := ends.finish
    have heq := (finish_some hfinish).2
    have hfields : t.fields = d₁.fields := by rw [heq]
    refine ⟨by rw [heq], d₀, s₂, fs, ⟨s, s₁, form, typedef, hrun, enters, opens⟩,
      ⟨d₂, s₄, d₁, s₃, name, hfs, hdone, hfinish⟩, ?_, fun hq => ?_⟩
    · rw [hfields]
      exact hfs.fields_eq hf hr.sized hdone
    · rw [hfields, show s'.script = s₃.script from (congrArg State.script ends.held :)]
      exact lists_members opens body hq

theorem Puts.of_mem {items : List Item} {c : ClassDecl} (h : Puts s t items)
    (hc : .classDecl c ∈ items) :
    c.name = t.name ∧ ∃ o, s.script.current = some o ∧ c.members = o.members := by
  cases h with
  | nothing => cases hc
  | enum e => simp at hc
  | @aggregate o backing current =>
    simp only [List.mem_singleton, Item.classDecl.injEq] at hc
    subst hc
    exact ⟨rfl, o, current, rfl⟩

/-- Every class is that of a declared type. Every declared type has its statement, and a class of its
name has the members that were written by the end of that statement. -/
structure Classed (env : Env) (s₀ : State) (r : Registry) (items : List Item) : Prop where
  named : ∀ c, .classDecl c ∈ items → c.name ∈ r.types.map (·.name)
  declared : ∀ t ∈ r.types, ∃ s s', Runs statementRound env () s₀ () s ∧ Completes env s t s' ∧
    ∀ c, .classDecl c ∈ items → c.name = t.name →
      ∃ o, s'.script.current = some o ∧ c.members = o.members

theorem classed_empty (env : Env) (s₀ : State) : Classed env s₀ {} [] := by
  constructor
  · intro c hc
    cases hc
  · intro t ht
    cases ht

/-- The name of a new type is free, so that no class that is there has it. -/
theorem Classed.append {items new : List Item} (h : Classed env s₀ s.registry items)
    (hrun : Runs statementRound env () s₀ () s) (ht : Completes env s t s') (hputs : Puts s' t new) :
    Classed env s₀ ⟨s.registry.types ++ [t]⟩ (items ++ new) := by
  have hfree : t.name ∉ s.registry.types.map (·.name) := (Registry.not_taken ht.free).1
  constructor
  · intro c hc
    rw [List.map_append, List.mem_append]
    rcases List.mem_append.mp hc with hc | hc
    · exact .inl (h.named c hc)
    · exact .inr (by simp [(hputs.of_mem hc).1])
  · intro v hv
    rcases List.mem_append.mp hv with hv | hv
    · obtain ⟨s₁, s₁', hrun₁, hv₁, hclasses⟩ := h.declared v hv
      refine ⟨s₁, s₁', hrun₁, hv₁, fun c hc hname => ?_⟩
      rcases List.mem_append.mp hc with hc | hc
      · exact hclasses c hc hname
      · have hv' : t.name = v.name := (hputs.of_mem hc).1.symm.trans hname
        exact absurd (hv' ▸ List.mem_map_of_mem hv) hfree
    · obtain rfl := List.mem_singleton.mp hv
      refine ⟨s, s', hrun, ht, fun c hc hname => ?_⟩
      rcases List.mem_append.mp hc with hc | hc
      · exact absurd (hname ▸ h.named c hc) hfree
      · exact (hputs.of_mem hc).2

theorem read_classed (env : Env) (h₀ : s₀.registry = {}) (hdecls : s₀.script.decls = []) :
    Classed env s₀ (read env s₀).1.registry (read env s₀).1.script.decls := by
  refine (output_growth ?_ fun s t s' new hrun h ht hputs => h.append hrun ht hputs).2
  rw [h₀, hdecls]
  exact classed_empty env s₀

/-- No field is lost, doubled or moved: the fields of a struct or union are those of the statements
that were accepted in its body, in their order. In a body without comments and directives, the lines of
the members of its class are those that the fields give, at their places, under the settings of the
body; there is such a class unless the reading fails. -/
theorem fields_follow_statements (env : Env) (h₀ : s₀.registry = {}) (hdecls : s₀.script.decls = []) :
    ∀ t ∈ (read env s₀).1.registry.types, t.isAggregate = true →
      ∃ d₀ s₁ fs, Opens env s₀ d₀ s₁ ∧ ClosesWith env d₀ s₁ fs t ∧
        t.fields.map Field.unplaced = fs.map (entryOf env) ∧
        (QuietBody env d₀ s₁ → ∀ c, .classDecl c ∈ (read env s₀).1.script.items → c.name = t.name →
          ∃ ls, List.Forall₂ (fun f l => fieldLines s₁.settings f = .ok l) t.fields ls ∧
            c.members.flatMap Member.lines = ls.flatten) ∧
        ((read env s₀).2 = none → ∃ c, .classDecl c ∈ (read env s₀).1.script.items ∧ c.name = t.name) := by
  intro t ht haggregate
  obtain ⟨s, s', hrun, hcompletes, hclasses⟩ := (read_classed env h₀ hdecls).declared t ht
  obtain ⟨hbacking, d₀, s₁, fs, hopens, hcloses, hfields, hlists⟩ :=
    hcompletes.lists hrun ((read_sound env h₀).1 s hrun) haggregate
  refine ⟨d₀, s₁, fs, hopens, hcloses, hfields, fun hq c hc hname => ?_, fun hnone => ?_⟩
  · have hdecl : .classDecl c ∈ (read env s₀).1.script.decls := by simpa [decls, Item.isDecl] using hc
    obtain ⟨o, ho, hmembers⟩ := hclasses c hdecl hname
    obtain ⟨o', ho', hlist⟩ := hlists hq
    cases ho.symm.trans ho'
    rw [hmembers]
    exact hlist
  · obtain ⟨o, -, hmem⟩ := hcompletes.class_mem hbacking hrun hnone
    exact ⟨_, hmem, rfl⟩

/-- A struct with bit fields, padding, a field that is refused, an anonymous union and an open array. -/
def mixedTokens : List Token :=
  [⟨.identifier, "struct", "", 1, 1⟩, ⟨.identifier, "A", "", 1, 8⟩, ⟨.leftBrace, "\x7b", "", 1, 10⟩,
   ⟨.identifier, "uint8_t", "", 2, 1⟩, ⟨.identifier, "a", "", 2, 9⟩, ⟨.colon, ":", "", 2, 11⟩,
   ⟨.number, "3", "", 2, 13⟩, ⟨.semicolon, ";", "", 2, 14⟩,
   ⟨.identifier, "uint8_t", "", 3, 1⟩, ⟨.identifier, "__p", "", 3, 9⟩, ⟨.semicolon, ";", "", 3, 12⟩,
   ⟨.identifier, "uint8_t", "", 4, 1⟩, ⟨.identifier, "a", "", 4, 9⟩, ⟨.semicolon, ";", "", 4, 10⟩,
   ⟨.identifier, "union", "", 5, 1⟩, ⟨.leftBrace, "\x7b", "", 5, 7⟩,
   ⟨.identifier, "uint16_t", "", 6, 1⟩, ⟨.identifier, "b", "", 6, 10⟩, ⟨.semicolon, ";", "", 6, 11⟩,
   ⟨.identifier, "uint8_t", "", 7, 1⟩, ⟨.identifier, "c", "", 7, 9⟩, ⟨.colon, ":", "", 7, 11⟩,
   ⟨.number, "2", "", 7, 13⟩, ⟨.semicolon, ";", "", 7, 14⟩,
   ⟨.rightBrace, "\x7d", "", 8, 1⟩, ⟨.semicolon, ";", "", 8, 2⟩,
   ⟨.identifier, "uint8_t", "", 9, 1⟩, ⟨.identifier, "d", "", 9, 9⟩, ⟨.leftBracket, "[", "", 9, 10⟩,
   ⟨.rightBracket, "]", "", 9, 11⟩, ⟨.semicolon, ";", "", 9, 12⟩,
   ⟨.rightBrace, "\x7d", "", 10, 1⟩, ⟨.semicolon, ";", "", 10, 2⟩, ⟨.eof, "", "", 11, 1⟩]

/-- The bit field waits for a word and the members of the union for its place; the refused field leaves
no trace. -/
theorem fields_follow_statements_mixed :
    let env : Env := ⟨"__", fun _ => ""⟩
    let s₀ : State := { unread := mixedTokens }
    let r := (read env s₀).1
    r.report.errors.length = 1 ∧ ∃ t ∈ r.registry.types,
      t.fields.map (fun f => (f.name, f.offset)) = [("a", 0), ("__p", 1), ("b", 2), ("c", 2), ("d", 4)] ∧
      ∃ d₀ s₁ fs, Opens env s₀ d₀ s₁ ∧ ClosesWith env d₀ s₁ fs t ∧
        t.fields.map Field.unplaced = fs.map (entryOf env) ∧
        ∃ c ls, .classDecl c ∈ r.script.items ∧ c.name = t.name ∧
          List.Forall₂ (fun f l => fieldLines s₁.settings f = .ok l) t.fields ls ∧
          c.members.flatMap Member.lines = ls.flatten := by
  let env : Env := ⟨"__", fun _ => ""⟩
  let s₀ : State := { unread := mixedTokens }
  have h : ∃ t ∈ (read env s₀).1.registry.types, t.isAggregate = true ∧
      t.fields.map (fun f => (f.name, f.offset)) =
        [("a", 0), ("__p", 1), ("b", 2), ("c", 2), ("d", 4)] := by
    decide +kernel
  obtain ⟨t, ht, haggregate, hfields⟩ := h
  obtain ⟨d₀, s₁, fs, hopens, hcloses, hstatements, hlines, hclass⟩ :=
    fields_follow_statements env rfl rfl t ht haggregate
  have hall : allBodies? env 2 s₀ (quietBody? env 10) = true := by decide +kernel
  have hquiet : QuietBody env d₀ s₁ := quietBody_of_quietBody? (hopens.of_allBodies? hall)
  obtain ⟨c, hc, hname⟩ := hclass (by decide +kernel)
  obtain ⟨ls, hls, hflatten⟩ := hlines hquiet c hc hname
  have herrors : (read env s₀).1.report.errors.length = 1 := by decide +kernel
  exact ⟨herrors, t, ht, hfields, d₀, s₁, fs, hopens, hcloses, hstatements, c, ls, hc, hname, hls,
    hflatten⟩

end Declaration
end RecordView
