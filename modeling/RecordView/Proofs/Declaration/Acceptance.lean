import RecordView.Proofs.Declaration.Position
import RecordView.Proofs.Layout.Statements

/-! The field statements that are accepted in a body become the fields of its type, one by one. -/
namespace RecordView.Declaration
open Reader Draft

variable {env : Env} {s s' s₀ : State} {d d' d₀ : Draft} {t : Token}
  {fs : List (FieldStatement × Content)}

/-- The field statement that the round of a body that starts here reads and accepts, and what it
declares. -/
def acceptedField? (env : Env) (d : Draft) (s : State) : Option (FieldStatement × Content) :=
  match peek env s with
  | .error _ _ => none
  | .ok t s₁ =>
    if t.kind = .identifier ∧ t.text ∉ keywords then
      match fieldStatement env s₁ with
      | .error _ _ => none
      | .ok f _ =>
        match f.resolve (s.surroundings env) d with
        | .error _ => none
        | .ok c => some (f, c)
    else none

/-- The rounds of a body up to here, with the field statements that they accept. -/
inductive Accepts (env : Env) (d₀ : Draft) (s₀ : State) :
    List (FieldStatement × Content) → Draft → State → Prop where
  | start : Accepts env d₀ s₀ [] d₀ s₀
  | next {fs : List (FieldStatement × Content)} {d d' : Draft} {s s' : State}
      (before : Accepts env d₀ s₀ fs d s) (round : memberRound d env s = .ok (.again d') s')
      (shorter : s'.left < s.left) : Accepts env d₀ s₀ (fs ++ (acceptedField? env d s).toList) d' s'

theorem Accepts.runs (h : Accepts env d₀ s₀ fs d s) : Runs memberRound env d₀ s₀ d s := by
  induction h with
  | start => exact .start
  | next _ round shorter ih => exact ih.next round shorter

theorem exists_accepts (h : Runs memberRound env d₀ s₀ d s) : ∃ fs, Accepts env d₀ s₀ fs d s := by
  induction h with
  | start => exact ⟨[], .start⟩
  | next _ round shorter ih =>
    obtain ⟨fs, hfs⟩ := ih
    exact ⟨_, hfs.next round shorter⟩

/-! ## One round -/

/-- What does not start with a name that is no keyword declares no field. -/
theorem member_other (hpeek : peek env s = .ok t s)
    (hother : ¬ (t.kind = .identifier ∧ t.text ∉ keywords)) (h : member d env s = .ok d' s') :
    d' = d ∨ (d.inUnion = false ∧ d' = d.openUnion s.settings) := by
  obtain ⟨t', s₁, hp, h⟩ := bind_ok.mp h
  cases hpeek.symm.trans hp
  split at h
  · obtain ⟨_, s₂, -, h⟩ := bind_ok.mp h
    obtain ⟨_, s₃, -, h⟩ := bind_ok.mp h
    cases h
    exact .inl rfl
  split at h
  · obtain ⟨_, s₂, -, h⟩ := bind_ok.mp h
    cases h
    exact .inl rfl
  split at h
  · obtain ⟨_, s₂, -, h⟩ := bind_ok.mp h
    cases h
    exact .inl rfl
  split at h
  · cases h
  split at h
  · cases h
  rename_i hkind
  obtain ⟨_, s₂, hu, h⟩ := bind_ok.mp h
  have hset : s₂.settings = s.settings :=
    congrArg Prod.fst ((held_startsUnion t).context.of_ok hu)
  split at h
  · rw [← hset]
    exact .inr (openUnion_ok h)
  split at h
  · obtain ⟨_, s₃, -, h⟩ := bind_ok.mp h
    cases h
  · rename_i hword
    exact absurd ⟨Decidable.not_not.mp hkind, by simpa using hword⟩ hother

theorem acceptedField?_other (hpeek : peek env s = .ok t s')
    (hother : ¬ (t.kind = .identifier ∧ t.text ∉ keywords)) : acceptedField? env d s = none := by
  rw [acceptedField?, hpeek]
  exact if_neg hother

theorem acceptedField?_field {s₁ s₂ : State} {f : FieldStatement} (hpeek : peek env s = .ok t s₁)
    (hkind : t.kind = .identifier) (hword : t.text ∉ keywords)
    (hreads : fieldStatement env s₁ = .ok f s₂) :
    acceptedField? env d s = (f.resolve (s.surroundings env) d).toOption.map (f, ·) := by
  rw [acceptedField?, hpeek]
  simp only [hkind, hword, not_false_eq_true, and_self, if_true, hreads]
  cases f.resolve (s.surroundings env) d <;> rfl

/-- A field that is refused is not accepted. -/
theorem acceptedField?_refused {s₁ s₂ : State} {e : Diagnostic} (hpeek : peek env s = .ok t s₁)
    (hkind : t.kind = .identifier) (hword : t.text ∉ keywords)
    (h : field d env s₁ = .error (.refused e) s₂) : acceptedField? env d s = none := by
  rcases bind_error.mp h with hreads | ⟨f, s₃, hreads, h⟩
  · rw [acceptedField?, hpeek]
    simp [hkind, hword, hreads]
  have hs₃ : s₃.surroundings env = s.surroundings env := by
    rw [surroundings_eq (held_fieldStatement.context.of_ok hreads),
      surroundings_eq (held_peek.context.of_ok hpeek)]
  rw [acceptedField?_field hpeek hkind hword hreads]
  rcases bind_error.mp h with hu | ⟨u, s₄, hu, h⟩
  · cases hu
  cases hu
  rcases bind_error.mp h with hd | ⟨d₁, s₄, -, h⟩
  · cases hc : f.resolve (s.surroundings env) d with
    | error e => rfl
    | ok c =>
      have hdeclare : f.declare (s₃.surroundings env) d = .ok (f.put (s.surroundings env) d c) := by
        rw [hs₃, FieldStatement.declare, hc]
        rfl
      have hd : orThrow (f.declare (s₃.surroundings env) d) env s₃ = .error (.refused e) s₂ := hd
      rw [hdeclare] at hd
      cases hd
  · rcases bind_error.mp h with h | ⟨_, s₅, -, h⟩
    · exact absurd h (Unrefused.advanceTo _ _ _ _ _ _)
    · cases h

/-- A name that is no keyword starts a field statement, which is accepted or leaves the draft as it is. -/
theorem attempt_field {s₁ : State} {start : Nat} (hpeek : peek env s = .ok t s₁)
    (hkind : t.kind = .identifier) (hword : t.text ∉ keywords)
    (h : attempt t start false d (member d) env s₁ = .ok d' s') :
    (∃ f c, acceptedField? env d s = some (f, c) ∧ f.resolve (s.surroundings env) d = .ok c ∧
        d' = f.put (s.surroundings env) d c) ∨
      (acceptedField? env d s = none ∧ d' = d) := by
  have hs₁ : s₁.surroundings env = s.surroundings env :=
    surroundings_eq (held_peek.context.of_ok hpeek)
  rw [attempt, tryCatch_apply, member_eq_field (peek_peek hpeek) hkind hword] at h
  cases hfield : field d env s₁ with
  | ok a s₂ =>
    rw [hfield] at h
    cases h
    obtain ⟨f, s₃, c, hreads, hc, rfl⟩ := field_ok hfield
    rw [hs₁] at hc
    refine .inl ⟨f, c, ?_, hc, by rw [hs₁]⟩
    rw [acceptedField?_field hpeek hkind hword hreads, hc]
    rfl
  | error e s₂ =>
    rw [hfield] at h
    cases e with
    | failed f => cases h
    | refused r =>
      refine .inr ⟨?_, ?_⟩
      · exact acceptedField?_refused hpeek hkind hword hfield
      · obtain ⟨_, s₃, -, h⟩ := bind_ok.mp h
        obtain ⟨_, s₄, -, h⟩ := bind_ok.mp h
        cases h
        rfl

/-- A round that goes on accepts a field statement and puts its field into the draft, or it opens or
closes an anonymous union, or it leaves the draft as it is. -/
theorem memberRound_accepts (h : memberRound d env s = .ok (.again d') s') :
    (∃ f c, acceptedField? env d s = some (f, c) ∧ f.resolve (s.surroundings env) d = .ok c ∧
        d' = f.put (s.surroundings env) d c) ∨
      (acceptedField? env d s = none ∧ (d' = d ∨
        (d.inUnion = false ∧ d' = d.openUnion s.settings) ∨
        (d.inAnonymousUnion = true ∧ d' = (d.closeUnion s.settings).1))) := by
  cases memberRound_turn h with
  | @unionEnd t _ s₁ s₂ _ _ _ next _ brace taken anonymous closed =>
    have hother : ¬ (t.kind = .identifier ∧ t.text ∉ keywords) := by
      rintro ⟨hkind, -⟩
      simp [not_isSymbol_of_name hkind] at brace
    have hset : s₂.context = s.context := by
      rw [held_advance.context.of_ok taken, held_peek.context.of_ok next]
    refine .inr ⟨acceptedField?_other next hother, .inr (.inr ⟨anonymous, ?_⟩)⟩
    rw [← show s₂.settings = s.settings from congrArg Prod.fst hset]
    exact closeUnion_ok closed
  | @member t s₁ _ _ _ next _ read =>
    by_cases hname : t.kind = .identifier ∧ t.text ∉ keywords
    · rcases attempt_field next hname.1 hname.2 read with haccepts | ⟨hnone, hd⟩
      · exact .inl haccepts
      · exact .inr ⟨hnone, .inl hd⟩
    · refine .inr ⟨acceptedField?_other next hname, ?_⟩
      rcases attempt_ok read with hmember | ⟨hd, -⟩
      · rw [← show s₁.settings = s.settings from congrArg Prod.fst (held_peek.context.of_ok next)]
        rcases member_other (peek_peek next) hname hmember with hd | hopen
        · exact .inl hd
        · exact .inr (.inl hopen)
      · exact .inl hd

/-! ## A body -/

def entryOf (env : Env) (x : FieldStatement × Content) : Field :=
  x.1.unplaced (env.padding.toList.isPrefixOf x.1.name.text.toList) x.2

/-- What is placed and what waits are the fields of the statements that were accepted, in their
order. -/
theorem Accepts.entries {form : Form} (h : Accepts env d₀ s₀ fs d s) (hf : Fresh s₀.registry form d₀)
    (hr : s₀.registry.Sized) : d.Filled ∧ d.entries = fs.map (entryOf env) := by
  induction h with
  | start =>
    refine ⟨tells_unplaced.accounts_of_waiting hf.waiting_eq, ?_⟩
    rw [Draft.entries, fields, hf.steps_eq, hf.waiting_eq, hf.run_eq]
    rfl
  | @next fs d d' s s' before round _ ih =>
    obtain ⟨hfilled, hentries⟩ := ih
    have hsettled := runs_settled before.runs hf.settled
    have hregistry : (s.surroundings env).registry = s₀.registry := runs_registry before.runs
    refine ⟨(memberRound_again round).filled hfilled hsettled (hregistry ▸ hr), ?_⟩
    rw [List.map_append, ← hentries]
    rcases memberRound_accepts round with ⟨f, c, haccepted, hc, rfl⟩ | ⟨hnone, hd⟩
    · rw [haccepted, entries_put hfilled (FieldStatement.resolve_ok hc)]
      rfl
    · rw [hnone]
      refine Eq.trans ?_ (List.append_nil _).symm
      rcases hd with rfl | ⟨hd, rfl⟩ | ⟨hd, rfl⟩
      · rfl
      · exact entries_openUnion hfilled _ hd
      · have hu := inUnion_of_anonymous hd
        exact entries_closeUnion hfilled _ hu (hsettled hu)

/-- When the body is closed, nothing waits any more. -/
theorem Accepts.fields_eq {form : Form} (h : Accepts env d₀ s₀ fs d s)
    (hf : Fresh s₀.registry form d₀) (hr : s₀.registry.Sized)
    (hdone : memberRound d env s = .ok (.done (some d')) s') :
    d'.fields.map Field.unplaced = fs.map (entryOf env) := by
  obtain ⟨hfilled, hentries⟩ := h.entries hf hr
  obtain ⟨houtside, rfl, -⟩ := memberRound_done hdone
  have hwaiting : (d.flush s.settings).waiting = [] := by
    by_cases hform : (d.flush s.settings).form = .struct
    · have hd : d.inUnion = false := by
        rw [(follows_flush s.settings d).form] at hform
        simpa [inAnonymousUnion, hform] using houtside
      rw [waiting, overlap_flush s.settings hd]
      rfl
    · exact (filled_flush hfilled s.settings).named hform
  rw [← hentries, ← entries_flush hfilled s.settings, Draft.entries, hwaiting, run_flush, List.append_nil]
  exact (List.append_nil _).symm

end RecordView.Declaration
