import RecordView.Proofs.Declaration.Scoping

/-! The constants of enums: how their values follow from each other, and that none is defined twice. -/
namespace RecordView
namespace Keyed

variable {α : Type} {k : Keyed α} {name : String}

theorem contains_eq_false : k.contains name = false ↔ name ∉ k.entries.map (·.1) := by
  simp only [contains, find?, Option.isSome_eq_false_iff, Option.isNone_iff_eq_none,
    List.lookup_eq_none_iff, List.mem_map, not_exists, not_and]
  constructor
  · intro h x hx heq
    simpa [heq] using h x hx
  · intro h x hx
    simpa [bne_iff_ne] using fun heq => h x hx heq.symm

theorem entries_set_new (h : k.contains name = false) (v : α) :
    (k.set name v).entries = k.entries ++ [(name, v)] := by
  simp [set, h]

/-- A name that occurs once has the value that stands beside it. -/
theorem find?_of_mem {v : α} (hd : (k.entries.map (·.1)).Nodup) (h : (name, v) ∈ k.entries) :
    k.find? name = some v := by
  obtain ⟨before, after, heq⟩ := List.append_of_mem h
  rw [heq, List.map_append, List.nodup_append] at hd
  have hnew : before.lookup name = none := by
    rw [List.lookup_eq_none_iff]
    intro x hx
    have hne := hd.2.2 x.1 (List.mem_map_of_mem hx) name (by simp)
    simpa [bne_iff_ne] using hne.symm
  rw [find?, heq, List.lookup_append, hnew]
  simp

end Keyed

namespace Declaration
open Reader Script

variable {env : Env} {s s' s₀ s₁ : State} {e e' e₀ : EnumDraft} {keyword : Token} {t : TypeInfo}

/-! ## Constants stay -/

/-- From one state to the other constants are only added, and under new names. -/
structure Defines (s s' : State) : Prop where
  kept : s.constants.entries <+: s'.constants.entries
  distinct : (s.constants.entries.map (·.1)).Nodup → (s'.constants.entries.map (·.1)).Nodup

theorem defines_of_eq (h : s'.constants = s.constants) : Defines s s' := by
  constructor
  · exact h ▸ List.prefix_rfl
  · intro hd
    rwa [h]

theorem defines_set {name : String} {value : Constant} (h : s.constants.contains name = false) :
    Defines s { s with constants := s.constants.set name value } := by
  have hentries := Keyed.entries_set_new h value
  constructor
  · exact hentries ▸ List.prefix_append _ _
  · intro hd
    have hnew := Keyed.contains_eq_false.mp h
    change ((s.constants.set name value).entries.map (·.1)).Nodup
    rw [hentries, List.map_append, List.nodup_append]
    refine ⟨hd, by simp, ?_⟩
    intro a ha b hb heq
    obtain rfl := List.mem_singleton.mp hb
    exact hnew (heq ▸ ha)

theorem defines_of_declarations {α : Type} {m : Reader α} (hm : Keeps State.declarations m) :
    Along Defines m :=
  .of_keeps hm fun _ _ h => defines_of_eq (congrArg (·.2.1) h)

theorem isPath_defines : IsPath Defines :=
  ⟨fun _ => defines_of_eq rfl, fun h h' => ⟨h.kept.trans h'.kept, fun hd => h'.distinct (h.distinct hd)⟩⟩

theorem defines_write (f : State → Except Failure Script) : Along Defines (write f) :=
  .write isPath_defines fun _ _ _ => defines_of_eq rfl

theorem declarationPath_defines : DeclarationPath Defines where
  toTokenPath := .of_held isPath_defines fun held => defines_of_eq (congrArg State.constants held :)
  comment t := defines_of_declarations (context_comment t).declarations
  setting name value := defines_of_declarations (declarations_applySetting name value)
  constant _ _ _ h := defines_set h
  opened _ := defines_of_eq rfl
  openClass _ _ := defines_of_eq rfl
  discardClass _ := defines_of_eq rfl
  register _ := Along.register isPath_defines fun _ _ _ => defines_of_eq rfl
  closeClass _ := defines_write _
  addEnum _ _ := defines_write _

theorem defines_aggregate (form : Form) (typedef : Bool) : Along Defines (aggregate form typedef) := by
  have hR := declarationPath_defines
  refine hR.bind (hR.opening form typedef) fun d => ?_
  exact hR.bind (defines_of_declarations (declarations_members d)) (hR.closing typedef)

theorem defines_statementRound (u : Unit) : Along Defines (statementRound u) := fun env _ =>
  path_statementRound declarationPath_defines fun form typedef s₁ _ =>
    defines_aggregate form typedef env s₁

theorem defines_read (env : Env) (s : State) : Defines s (read env s).1 := by
  rw [read_fst]
  exact Along.rounds declarationPath_defines.toIsPath defines_statementRound () env s

/-! ## Members of an enum -/

/-- The value of the member after these, if it is given none: zero, or one more than the last one,
which must be an integer. -/
def following? (members : List (String × Constant)) : Option Int :=
  match members.getLast? with
  | none => some 0
  | some (_, .int n) => some (n + 1)
  | some _ => none

theorem following?_add (e : EnumDraft) (name : String) (value : Constant) :
    (e.add name value).next = following? (e.add name value).members := by
  simp only [EnumDraft.add, following?, List.getLast?_concat]
  cases value <;> rfl

/-- What a member has for its value, after the members before it: without `=` the value that follows,
with it that of the expression. -/
inductive Value (env : Env) (before : List (String × Constant)) (scope : Scope) (name : Token)
    (s : State) : Constant → State → Prop where
  | implicit {n : Int} {s' : State} (no_sign : accept "=" env s = .ok false s')
      (follows : following? before = some n) : Value env before scope name s (.int n) s'
  | written {ts : List Token} {v : Constant} {s₁ s' : State} (sign : accept "=" env s = .ok true s₁)
      (expression : collect [",", "\x7d"] env s₁ = .ok ts s')
      (value : Expr.evaluate scope false ts name.location = .ok v) :
      Value env before scope name s v s'

/-- In state `s` a member is read and accepted: its name is new, its value is evaluated in the scope
of the flags that are set, hidden by the constants defined before, and a comma or the closing brace
follows it. It is added to the members and to the constants. -/
structure AcceptsMember (env : Env) (e : EnumDraft) (s : State) (name : Token) (value : Constant)
    (e' : EnumDraft) (s' : State) : Prop where
  reads : ∃ t s₁ s₂ s₃ s₄, peek env s = .ok t s₁ ∧ expectName .constantName env s₁ = .ok name s₂ ∧
    Value env e.members (s.constants.shadowing s.settings.flags) name s₂ value s₃ ∧
    MemberEnds env s₃ s₄
  fresh : s.constants.contains name.text = false
  members : e'.members = e.members ++ [(name.text, value)]
  constants : s'.constants.entries = s.constants.entries ++ [(name.text, value)]

/-- Why a member that is read in state `s` is rejected: there is no name, the name is that of a
constant, there is no value to follow, the expression has no value, or something else than a comma or
the closing brace follows. -/
inductive RejectsMember (env : Env) (e : EnumDraft) (s : State) : Prop where
  | unnamed {t : Token} {s₁ : State} (next : peek env s = .ok t s₁) (kind : t.kind ≠ .identifier)
  | duplicate {t name : Token} {s₁ s₂ : State} (next : peek env s = .ok t s₁)
      (reads : expectName .constantName env s₁ = .ok name s₂)
      (defined : s.constants.contains name.text = true)
  | valueless {t name : Token} {s₁ s₂ s₃ : State} (next : peek env s = .ok t s₁)
      (reads : expectName .constantName env s₁ = .ok name s₂)
      (no_sign : accept "=" env s₂ = .ok false s₃) (unfollowed : following? e.members = none)
  | invalid {t name : Token} {ts : List Token} {d : Diagnostic} {s₁ s₂ s₃ s₄ : State}
      (next : peek env s = .ok t s₁) (reads : expectName .constantName env s₁ = .ok name s₂)
      (sign : accept "=" env s₂ = .ok true s₃)
      (expression : collect [",", "\x7d"] env s₃ = .ok ts s₄)
      (refused : Expr.evaluate (s.constants.shadowing s.settings.flags) false ts name.location =
        .error (.refused d))
  | unended {t name : Token} {value : Constant} {s₁ s₂ s₃ s₄ s₅ : State}
      (next : peek env s = .ok t s₁) (reads : expectName .constantName env s₁ = .ok name s₂)
      (value : Value env e.members (s.constants.shadowing s.settings.flags) name s₂ value s₃)
      (no_comma : accept "," env s₃ = .ok false s₄) (no_brace : check "\x7d" env s₄ = .ok false s₅)

/-- What a round in an enum does: it reads something else than a member, or a member that is accepted,
or one that is rejected. -/
inductive EnumTurn (env : Env) (e : EnumDraft) (s : State) : EnumDraft → State → Prop where
  | aside {t : Token} {s₁ s' : State} (next : peek env s = .ok t s₁)
      (kind : t.kind = .comment ∨ t.kind = .directive) (kept : s'.constants = s.constants) :
      EnumTurn env e s e s'
  | accepted {name : Token} {value : Constant} {e' : EnumDraft} {s' : State}
      (accepts : AcceptsMember env e s name value e' s') : EnumTurn env e s e' s'
  | rejected {s' : State} (rejects : RejectsMember env e s) (kept : s'.constants = s.constants) :
      EnumTurn env e s e s'

theorem value_of_memberValue {name : Token} {value : Constant} (hnext : e.next = following? e.members)
    (h : memberValue e name env s = .ok value s') :
    Value env e.members (s.constants.shadowing s.settings.flags) name s value s' := by
  obtain ⟨sign, s₁, hsign, h⟩ := bind_ok.mp h
  cases sign with
  | true =>
    obtain ⟨ts, s₂, hts, h⟩ := bind_ok.mp h
    obtain ⟨u, s₃, hu, h⟩ := bind_ok.mp h
    cases hu
    have held : s₂.held = s.held := by
      rw [Keeps.of_ok (tokenPath_held.collect _) hts, (held_accept _).of_ok hsign]
    have hconstants : s₂.constants = s.constants := (congrArg State.constants held :)
    have hsettings : s₂.settings = s.settings := (congrArg State.settings held :)
    rw [← hconstants, ← hsettings]
    cases heval : Expr.evaluate (s₂.constants.shadowing s₂.settings.flags) false ts name.location with
    | ok v =>
      have hv : orThrow (.ok v) env s₂ = .ok value s' := heval ▸ h
      cases hv
      exact .written hsign hts heval
    | error x =>
      have hx : orThrow (.error x) env s₂ = .ok value s' := heval ▸ h
      cases hx
  | false =>
    cases hn : e.next with
    | none =>
      rw [hn] at h
      cases h
    | some n =>
      rw [hn] at h
      cases h
      exact .implicit hsign (hnext.symm.trans hn)

theorem acceptsMember_of_enumerator {t : Token} (next : peek env s = .ok t s₁)
    (hnext : e.next = following? e.members) (h : enumerator e env s₁ = .ok e' s') :
    ∃ name value, AcceptsMember env e s name value e' s' ∧ e' = e.add name.text value := by
  obtain ⟨name, value, s₂, s₃, s₄, hname, hnew, hvalue, hends, rfl, rfl⟩ := enumerator_ok h
  have held₂ : s₂.held = s.held := by rw [(held_expectName _).of_ok hname, held_peek.of_ok next]
  have held₄ : s₄.held = s₂.held := hends.held.trans ((held_memberValue e name).of_ok hvalue)
  have hconstants₂ : s₂.constants = s.constants := (congrArg State.constants held₂ :)
  have hsettings₂ : s₂.settings = s.settings := (congrArg State.settings held₂ :)
  have hconstants₄ : s₄.constants = s₂.constants := (congrArg State.constants held₄ :)
  have hv := value_of_memberValue hnext hvalue
  rw [hconstants₂, hsettings₂] at hv
  rw [hconstants₂] at hnew
  refine ⟨name, value, ⟨⟨t, s₁, s₂, s₃, s₄, next, hname, hv, hends⟩, hnew, rfl, ?_⟩, rfl⟩
  dsimp only
  rw [hconstants₄, hconstants₂, Keyed.entries_set_new hnew]

theorem rejects_of_memberValue {t name : Token} {d : Diagnostic} {s₂ s₃ : State}
    (next : peek env s = .ok t s₁) (reads : expectName .constantName env s₁ = .ok name s₂)
    (held : s₂.held = s.held) (hnext : e.next = following? e.members)
    (h : memberValue e name env s₂ = .error (.refused d) s₃) : RejectsMember env e s := by
  rcases bind_error.mp h with h | ⟨sign, s₄, hsign, h⟩
  · exact absurd h (Unrefused.accept _ _ _ _ _)
  cases sign with
  | false =>
    cases hn : e.next with
    | some n =>
      rw [hn] at h
      cases h
    | none => exact .valueless next reads hsign (hnext.symm.trans hn)
  | true =>
    rcases bind_error.mp h with h | ⟨ts, s₅, hts, h⟩
    · exact absurd h (Unrefused.collect _ _ _ _ _)
    rcases bind_error.mp h with h | ⟨u, s₆, hu, h⟩
    · cases h
    cases hu
    have held₅ : s₅.held = s.held := by
      rw [Keeps.of_ok (tokenPath_held.collect _) hts, (held_accept _).of_ok hsign, held]
    have hconstants : s₅.constants = s.constants := (congrArg State.constants held₅ :)
    have hsettings : s₅.settings = s.settings := (congrArg State.settings held₅ :)
    cases heval : Expr.evaluate (s₅.constants.shadowing s₅.settings.flags) false ts name.location with
    | ok v =>
      have hv : orThrow (.ok v) env s₅ = .error (.refused d) s₃ := heval ▸ h
      cases hv
    | error x =>
      have hx : orThrow (.error x) env s₅ = .error (.refused d) s₃ := heval ▸ h
      cases hx
      rw [hconstants, hsettings] at heval
      exact .invalid next reads hsign hts heval

theorem rejects_of_enumerator {t : Token} {d : Diagnostic} (next : peek env s = .ok t s₁)
    (hnext : e.next = following? e.members) (h : enumerator e env s₁ = .error (.refused d) s') :
    RejectsMember env e s := by
  rcases bind_error.mp h with h | ⟨name, s₂, hname, h⟩
  · rw [expectName, bind_apply, peek_peek next] at h
    dsimp only at h
    split at h
    · exact absurd h (Unrefused.advance _ _ _ _)
    · rename_i hkind
      exact .unnamed next hkind
  have held₂ : s₂.held = s.held := by rw [(held_expectName _).of_ok hname, held_peek.of_ok next]
  have hconstants : s₂.constants = s.constants := (congrArg State.constants held₂ :)
  have hsettings : s₂.settings = s.settings := (congrArg State.settings held₂ :)
  rw [get_bind_apply] at h
  split at h
  · rename_i hdefined
    rw [hconstants] at hdefined
    exact .duplicate next hname hdefined
  rcases bind_error.mp h with h | ⟨value, s₃, hvalue, h⟩
  · exact rejects_of_memberValue next hname held₂ hnext h
  rcases bind_error.mp h with h | ⟨comma, s₄, hcomma, h⟩
  · exact absurd h (Unrefused.accept _ _ _ _ _)
  cases comma with
  | true => cases h
  | false =>
    rcases bind_error.mp h with h | ⟨brace, s₅, hbrace, h⟩
    · exact absurd h (Unrefused.check _ _ _ _ _)
    cases brace with
    | true => cases h
    | false =>
      have hv := value_of_memberValue hnext hvalue
      rw [hconstants, hsettings] at hv
      exact .unended next hname hv hcomma hbrace

/-- What is no member, whether it is refused or not, leaves the enum and the constants as they are. -/
theorem attempt_aside {m : Reader EnumDraft} {t : Token} {start : Nat} (hm : Keeps State.declarations m)
    (hsame : ∀ a s₂, m env s = .ok a s₂ → a = e)
    (h : attempt t start true e m env s = .ok e' s') : e' = e ∧ s'.constants = s.constants := by
  rcases attempt_ok h with hok | ⟨rfl, x, s₁, herror, hsync⟩
  · exact ⟨hsame e' s' hok, (congrArg (·.2.1) (hm.of_ok hok) :)⟩
  · have hconstants : s'.constants = s₁.constants :=
      (congrArg State.constants ((tokenPath_held.synchronize _ _ _).of_ok hsync) :)
    have hkept : s₁.constants = s.constants := (congrArg (·.2.1) (hm.of_error herror) :)
    exact ⟨rfl, hconstants.trans hkept⟩

/-- A member that is read is accepted or rejected. -/
theorem attempt_enumerator {t : Token} {start : Nat} (next : peek env s = .ok t s₁)
    (hnext : e.next = following? e.members)
    (h : attempt t start true e (enumerator e) env s₁ = .ok e' s') :
    EnumTurn env e s e' s' ∧ e'.next = following? e'.members := by
  rcases attempt_ok h with hok | ⟨rfl, x, s₂, herror, hsync⟩
  · obtain ⟨name, value, haccepts, rfl⟩ := acceptsMember_of_enumerator next hnext hok
    exact ⟨.accepted haccepts, following?_add e name.text value⟩
  · have hrest : s'.held = s₂.held := ((tokenPath_held.synchronize _ _ _).of_ok hsync :)
    have held : s'.held = s.held := by rw [hrest, enumerator_error herror, held_peek.of_ok next]
    exact ⟨.rejected (rejects_of_enumerator next hnext herror) (congrArg State.constants held :), hnext⟩

theorem enumMember_eq {t : Token} (next : peek env s = .ok t s) :
    enumMember e env s =
      (if t.kind = .comment then do
        let _ ← advance
        comment t
        return e
      else if t.kind = .directive then do
        directive
        return e
      else enumerator e : Reader EnumDraft) env s := by
  rw [enumMember, bind_apply, next]

/-- Each round in an enum adds one member, or changes nothing. -/
theorem enumRound_turn (hnext : e.next = following? e.members)
    (h : enumRound keyword e env s = .ok (.again e') s') :
    EnumTurn env e s e' s' ∧ e'.next = following? e'.members := by
  obtain _ | _ | _ | @⟨t, s₁, _, _, -, next, -, hattempt⟩ := turn_of_enumRound h
  have hpeek : s₁.constants = s.constants := (congrArg State.constants (held_peek.of_ok next) :)
  rw [attempt, tryCatch_apply, enumMember_eq (peek_peek next), ← tryCatch_apply, ← attempt] at hattempt
  have aside (kind : t.kind = .comment ∨ t.kind = .directive)
      (hkept : e' = e ∧ s'.constants = s₁.constants) :
      EnumTurn env e s e' s' ∧ e'.next = following? e'.members := by
    obtain ⟨rfl, hconstants⟩ := hkept
    exact ⟨.aside next kind (hconstants.trans hpeek), hnext⟩
  split at hattempt
  · rename_i hkind
    refine aside (.inl hkind) (attempt_aside (.bind held_advance.context.declarations fun _ =>
      .bind (context_comment t).declarations fun _ => .pure e) ?_ hattempt)
    intro a s₂ h
    obtain ⟨_, _, -, h⟩ := bind_ok.mp h
    obtain ⟨_, _, -, h⟩ := bind_ok.mp h
    cases h
    rfl
  split at hattempt
  · rename_i hkind
    have hdirective := Keeps.bind bodyPath_declarations.directive fun _ => .pure e
    refine aside (.inr hkind) (attempt_aside hdirective ?_ hattempt)
    intro a s₂ h
    obtain ⟨_, _, -, h⟩ := bind_ok.mp h
    cases h
    rfl
  · exact attempt_enumerator next hnext hattempt

/-! ## Enums -/

theorem runs_enum (h : Runs (enumRound keyword) env e₀ s₁ e s) (hm : e₀.members = [])
    (hn : e₀.next = some 0) :
    e.next = following? e.members ∧ s.constants.entries = s₁.constants.entries ++ e.members := by
  induction h with
  | start =>
    constructor
    · rw [hm, hn]
      rfl
    · rw [hm, List.append_nil]
  | @next e e' s s' before round _ ih =>
    obtain ⟨hnext, hconstants⟩ := ih
    obtain ⟨hturn, hnext'⟩ := enumRound_turn hnext round
    refine ⟨hnext', ?_⟩
    cases hturn with
    | aside next kind kept => rw [kept, hconstants]
    | accepted accepts => rw [accepts.constants, accepts.members, hconstants, List.append_assoc]
    | rejected rejects kept => rw [kept, hconstants]

def firstEnum? (env : Env) (s : State) : Option ((Token × EnumDraft) × State) :=
  match peek env s with
  | .ok t s₁ =>
    if s.report.full = false ∧ t.isWord "enum" = true then
      match enumOpening env s₁ with
      | .ok x s₂ => some (x, s₂)
      | .error _ _ => none
    else none
  | .error _ _ => none

theorem opensEnum_of_firstEnum? {x : (Token × EnumDraft) × State} (h : firstEnum? env s = some x) :
    OpensEnum env s x.1.1 x.1.2 x.2 := by
  unfold firstEnum? at h
  split at h
  · rename_i next
    split at h
    · rename_i hw
      obtain ⟨going, word⟩ := hw
      split at h
      · rename_i hopen
        cases h
        exact ⟨s, _, _, .start, going, next, word, hopen⟩
      · cases h
    · cases h
  · cases h

theorem OpensEnum.runs (h : OpensEnum env s₀ keyword e₀ s₁)
    (body : Runs (enumRound keyword) env e₀ s₁ e s) :
    e.next = following? e.members ∧ s.constants.entries = s₁.constants.entries ++ e.members := by
  obtain ⟨_, _, _, -, -, -, -, opens⟩ := h
  obtain ⟨-, -, hmembers, hnext⟩ := enumOpening_ok opens
  exact runs_enum body hmembers hnext

/-- From a place in an enum on, constants are only added. -/
theorem OpensEnum.defines (h : OpensEnum env s₀ keyword e₀ s₁)
    (body : Runs (enumRound keyword) env e₀ s₁ e s) : Defines s (read env s₀).1 := by
  obtain ⟨s₂, v, s₃, before, going, next, word, opens⟩ := h
  have hR := declarationPath_defines
  have hkind : v.kind ≠ .eof := by
    rw [kind_of_isWord word]
    decide
  -- the rest of the statement is the rest of the enum
  have hrest : after statement env s₃ = after (enumMembers keyword e >>= enumClosing) env s := by
    have hbody : enumMembers keyword e₀ env s₁ = enumMembers keyword e env s := body.rounds_eq
    rw [after_congr (statement_eq_enumeration next word), enumeration, after_bind_ok opens]
    refine after_congr ?_
    change (enumMembers keyword e₀ >>= enumClosing) env s₁ = _
    rw [bind_apply, bind_apply, hbody]
  have hround : (after (statementRound ()) env s₂).held = (after statement env s₃).held := by
    rw [statementRound, after_get_bind, if_neg (by rw [going]; decide), after_bind_ok next,
      after_get_bind, statementAt, if_neg hkind, after_bind_pure]
    exact tokenPath_held.after_attempt _ _ _ _ rfl
  rw [read_eq_of_runs before, read_fst]
  refine hR.trans ?_ (Along.rounds_of_step hR.toIsPath defines_statementRound ())
  have hheld : Defines (after statement env s₃) (after (statementRound ()) env s₂) :=
    defines_of_eq (congrArg State.constants hround :)
  refine hR.trans ?_ hheld
  rw [hrest]
  exact hR.bind (hR.enumMembers keyword e) hR.enumClosing env s

theorem enumMembers_runs (h : enumMembers keyword e₀ env s₁ = .ok (some e) s') :
    ∃ s, Runs (enumRound keyword) env e₀ s₁ e s ∧ s'.constants = s.constants := by
  obtain ⟨e₁, s, hrun, hdone⟩ := rounds_ok h
  cases turn_of_enumRound hdone with
  | bodyEnd _ next taken =>
    have held : s'.held = s.held := by rw [held_advance.of_ok taken, held_peek.of_ok next]
    exact ⟨s, hrun, (congrArg State.constants held :)⟩

/-! ## The whole description -/

theorem Completes.defines (h : Completes env s t s') (before : Runs statementRound env () s₀ () s) :
    Defines s' (read env s₀).1 := by
  have hR := declarationPath_defines
  cases h with
  | enum going next word opens body ends named =>
    obtain ⟨s₄, hrun, hconstants⟩ := enumMembers_runs body
    have hopens : OpensEnum env s₀ _ _ _ := ⟨s, _, _, before, going, next, word, opens⟩
    have hends := congrArg State.constants ((held_accept _).of_ok ends)
    exact hR.trans (defines_of_eq (hconstants.symm.trans hends.symm)) (hopens.defines hrun)
  | aggregate enters opens body ends =>
    have hconstants : s'.constants = s.constants := by
      have h₁ := congrArg (·.2.2.1) enters.context
      have h₂ := congrArg (·.2.2.1) ((context_opening _ _).of_ok opens)
      have h₃ := congrArg (·.2.1) ((declarations_members _).of_ok body)
      have h₄ := congrArg (·.2.2.1) ends.context
      exact h₄.trans (h₃.trans (h₂.trans h₁))
    rw [read_eq_of_runs before]
    exact hR.trans (defines_of_eq hconstants.symm) (defines_read env s)

/-- At no point of a reading is there a constant that is not there at the end. -/
theorem Visits.defines (h : Visits env s₀ s) : Defines s (read env s₀).1 := by
  have hR := declarationPath_defines
  cases h with
  | statement before =>
    rw [read_eq_of_runs before]
    exact defines_read env s
  | member opens body =>
    obtain ⟨s₂, s₃, form, typedef, before, enters, hopen⟩ := opens
    have hconstants : s.constants = s₂.constants := by
      have h₁ := congrArg (·.2.2.1) enters.context
      have h₂ := congrArg (·.2.2.1) ((context_opening form typedef).of_ok hopen)
      have h₃ := congrArg (·.2.1) (body.keeps bodyPath_declarations.memberRound)
      exact h₃.trans (h₂.trans h₁)
    rw [read_eq_of_runs before]
    exact hR.trans (defines_of_eq hconstants.symm) (defines_read env s₂)
  | enumerator before going next word opens body =>
    have hopens : OpensEnum env s₀ _ _ _ := ⟨_, _, _, before, going, next, word, opens⟩
    exact hopens.defines body
  | declaration before completes => exact completes.defines before
  | last => exact hR.refl _

/-- Every declared enum is read to its end in some statement. -/
theorem exists_closesEnum (env : Env) (h₀ : s₀.registry = {})
    (ht : t ∈ (read env s₀).1.registry.types) (hform : t.form = .enum) :
    ∃ s keyword e₀ s₁ e s', Runs statementRound env () s₀ () s ∧
      ClosesEnum env s keyword e₀ s₁ e t.name s' := by
  obtain ⟨s, s', before, completes⟩ := exists_completes h₀ ht
  cases completes with
  | enum going next word opens body ends named =>
    exact ⟨s, _, _, _, _, s', before, going, ⟨_, _, next, word, opens⟩, ⟨_, _, body, ends⟩, named⟩
  | aggregate enters opens body ends =>
    obtain ⟨hf, -⟩ := enters.fresh opens
    rw [(ends.closes body).form_eq, hf.form_eq] at hform
    exact absurd hform enters.form_ne

/-- The members of an enum that is read to its end are constants, with the values that they have at
the end of the reading, and are what is written for it. -/
theorem ClosesEnum.members {name : String} (h : ClosesEnum env s keyword e₀ s₁ e name s')
    (before : Runs statementRound env () s₀ () s)
    (hd : ((read env s₀).1.constants.entries.map (·.1)).Nodup) :
    (∀ m ∈ e.members, (read env s₀).1.constants.find? m.1 = some m.2) ∧
      ((read env s₀).2 = none → ∃ x : EnumDecl, .enumDecl x ∈ (read env s₀).1.script.items ∧
        x.name = name ∧ literals x.language e.members = .ok x.members) := by
  constructor
  · intro m hm
    obtain ⟨v, s₂, next, word, opens⟩ := h.opens
    obtain ⟨s₃, _, body, -⟩ := h.body
    obtain ⟨s₄, hrun, -⟩ := enumMembers_runs body
    have hopens : OpensEnum env s₀ keyword e₀ s₁ := ⟨s, v, s₂, before, h.going, next, word, opens⟩
    have hconstants := (hopens.runs hrun).2
    have hmem : m ∈ s₄.constants.entries := by
      rw [hconstants]
      exact List.mem_append_right _ hm
    exact Keyed.find?_of_mem hd ((hopens.defines hrun).kept.subset hmem)
  · intro hnone
    obtain ⟨r, e', hround, hprefix⟩ := exists_statementRound before hnone
    obtain ⟨x, hname, hmembers, houtput⟩ := h.output_eq hround
    have hdecls : e'.script.decls = _ := congrArg Prod.snd houtput
    rw [hdecls] at hprefix
    have hmem := hprefix.subset (List.mem_append_right _ (List.mem_singleton_self _))
    exact ⟨x, List.mem_of_mem_filter hmem, hname, hmembers⟩

/-- No constant is defined twice, and none that is defined at some point of a reading is different at
its end. In the body of an enum the constants are those from before it and its members; each round
reads no member, or accepts one and adds it to both, or rejects one and changes neither, nor the
value of a member after it. A member without `=` has the value zero if it is the first that is
accepted, and one more than the one before it otherwise; a member with `=` has the value of its
expression. The members of a declared enum are those that were accepted, with the values that they
have as constants, and these are written for it. -/
theorem enum_constants (env : Env) (s₀ : State) (h₀ : s₀.registry = {}) (hc : s₀.constants = {}) :
    ((read env s₀).1.constants.entries.map (·.1)).Nodup ∧
      (∀ s, Visits env s₀ s → s.constants.entries <+: (read env s₀).1.constants.entries) ∧
      (∀ keyword e₀ s₁, OpensEnum env s₀ keyword e₀ s₁ → ∀ e s,
        Runs (enumRound keyword) env e₀ s₁ e s →
          s.constants.entries = s₁.constants.entries ++ e.members ∧
          ∀ e' s', enumRound keyword e env s = .ok (.again e') s' → EnumTurn env e s e' s') ∧
      ∀ t ∈ (read env s₀).1.registry.types, t.form = .enum →
        ∃ s keyword e₀ s₁ e s', Runs statementRound env () s₀ () s ∧
          ClosesEnum env s keyword e₀ s₁ e t.name s' ∧
          (∀ m ∈ e.members, (read env s₀).1.constants.find? m.1 = some m.2) ∧
          ((read env s₀).2 = none → ∃ x : EnumDecl, .enumDecl x ∈ (read env s₀).1.script.items ∧
            x.name = t.name ∧ literals x.language e.members = .ok x.members) := by
  have hd : ((read env s₀).1.constants.entries.map (·.1)).Nodup := by
    refine (defines_read env s₀).distinct ?_
    rw [hc]
    exact List.nodup_nil
  refine ⟨hd, fun s h => h.defines.kept, ?_, ?_⟩
  · intro keyword e₀ s₁ hopens e s body
    obtain ⟨hnext, hconstants⟩ := hopens.runs body
    exact ⟨hconstants, fun e' s' round => (enumRound_turn hnext round).1⟩
  · intro t ht hform
    obtain ⟨s, keyword, e₀, s₁, e, s', before, hcloses⟩ := exists_closesEnum env h₀ ht hform
    exact ⟨s, keyword, e₀, s₁, e, s', before, hcloses, hcloses.members before hd⟩

/-- An enum with a member that is given twice, one with a value of its own and one that follows it. -/
def renumberedTokens : List Token :=
  [⟨.identifier, "enum", "", 1, 1⟩, ⟨.identifier, "E", "", 1, 6⟩, ⟨.leftBrace, "\x7b", "", 1, 8⟩,
   ⟨.identifier, "a", "", 2, 1⟩, ⟨.comma, ",", "", 2, 2⟩,
   ⟨.identifier, "a", "", 3, 1⟩, ⟨.assign, "=", "", 3, 3⟩, ⟨.number, "5", "", 3, 5⟩,
   ⟨.comma, ",", "", 3, 6⟩,
   ⟨.identifier, "b", "", 4, 1⟩, ⟨.assign, "=", "", 4, 3⟩, ⟨.identifier, "a", "", 4, 5⟩,
   ⟨.operator, "+", "", 4, 7⟩, ⟨.number, "3", "", 4, 9⟩, ⟨.comma, ",", "", 4, 10⟩,
   ⟨.identifier, "c", "", 5, 1⟩, ⟨.rightBrace, "\x7d", "", 6, 1⟩, ⟨.semicolon, ";", "", 6, 2⟩,
   ⟨.eof, "", "", 7, 1⟩]

theorem enum_constants_renumbered :
    ∃ env, (read env { unread := renumberedTokens }).1.constants.entries =
        [("a", .int 0), ("b", .int 3), ("c", .int 4)] ∧
      ((read env { unread := renumberedTokens }).1.constants.entries.map (·.1)).Nodup ∧
      (∃ keyword e₀ s₁ e s e' s', OpensEnum env { unread := renumberedTokens } keyword e₀ s₁ ∧
        Runs (enumRound keyword) env e₀ s₁ e s ∧ e.members = [("a", .int 0)] ∧
        s.constants.entries = s₁.constants.entries ++ e.members ∧
        e'.members = e.members ∧ EnumTurn env e s e' s') ∧
      ∃ t ∈ (read env { unread := renumberedTokens }).1.registry.types, t.form = .enum ∧
        ∃ s keyword e₀ s₁ e s', ClosesEnum env s keyword e₀ s₁ e t.name s' ∧
          ∃ x : EnumDecl,
            .enumDecl x ∈ (read env { unread := renumberedTokens }).1.script.items ∧
            x.name = t.name ∧ literals x.language e.members = .ok x.members := by
  let env : Env := ⟨"__", fun _ => ""⟩
  have hentries : (read env { unread := renumberedTokens }).1.constants.entries =
      [("a", .int 0), ("b", .int 3), ("c", .int 4)] := by decide +kernel
  have hnone : (read env { unread := renumberedTokens }).2 = none := by decide +kernel
  have hbody : ∃ x ∈ firstEnum? env { unread := renumberedTokens },
      ∃ y ∈ runs? (enumRound x.1.1) env 1 x.1.2 x.2, ∃ z ∈ again? (enumRound x.1.1) env y.1 y.2,
        y.1.members = [("a", .int 0)] ∧ z.1.members = y.1.members := by decide +kernel
  have htype : ∃ t ∈ (read env { unread := renumberedTokens }).1.registry.types, t.form = .enum := by
    decide +kernel
  obtain ⟨hd, -, hrounds, henums⟩ := enum_constants env { unread := renumberedTokens } rfl rfl
  obtain ⟨x, hx, y, hy, z, hz, hmembers, hrejected⟩ := hbody
  have hopens := opensEnum_of_firstEnum? hx
  have hrun := runs_of_runs? hy
  obtain ⟨hconstants, hturn⟩ := hrounds _ _ _ hopens _ _ hrun
  have round := (again?_eq_some hz).1
  obtain ⟨t, ht, hform⟩ := htype
  obtain ⟨s, keyword, e₀, s₁, e, s', -, hcloses, -, hwritten⟩ := henums t ht hform
  exact ⟨env, hentries, hd,
    ⟨_, _, _, _, _, _, _, hopens, hrun, hmembers, hconstants, hrejected, hturn _ _ round⟩,
    t, ht, hform, s, keyword, e₀, s₁, e, s', hcloses, hwritten hnone⟩

end Declaration
end RecordView
