import RecordView.Proofs.Declaration.Advance

/-! Two readings side by side. They may differ in what the layout does not depend on, in what stands
at the end of the stream, and in what was reported and how much was taken before; all the rest they do
alike. -/
namespace RecordView

namespace Declaration
open Reader

/-! ## Two readings -/

/-- Two readings that are compared. They are exact if they have the same settings and write the same
script; otherwise only the settings of the layout are compared, and the marks of padding fields as far
as `mark` tells them apart. What is left of the streams ends with `rest₁` and `rest₂`. Before the part
that is compared, the errors were `errors₁` and `errors₂`, and `base` tokens were taken by the first
one; the statement that is read started at `start₁` and `start₂`. -/
structure Twin where
  env₁ : Env
  env₂ : Env
  exact : Bool
  mark : Bool → Bool
  rest₁ : List Token
  rest₂ : List Token
  errors₁ : List Diagnostic
  errors₂ : List Diagnostic
  base : Nat
  start₁ : Nat
  start₂ : Nat
  lines : env₁.sourceLine = env₂.sourceLine
  marks : ∀ name : String, mark (env₁.padding.toList.isPrefixOf name.toList) =
    mark (env₂.padding.toList.isPrefixOf name.toList)
  mark_id : exact = true → mark = id
  rest_nil : rest₁ = [] → rest₂ = []
  errors_le : errors₂.length ≤ errors₁.length
  base_le : base ≤ start₁

namespace Twin

variable (T : Twin)

abbrev labels : Relabeling := .ofMark T.mark

theorem labels_id (he : T.exact = true) : T.labels = .ofMark id := congrArg Relabeling.ofMark (T.mark_id he)

def view (u : Settings) : Settings := if T.exact then u else u.plain

/-- The two readings are at the same point. -/
structure Rel (s₁ s₂ : State) : Prop where
  unread : ∃ ts, s₁.unread = ts ++ T.rest₁ ∧ s₂.unread = ts ++ T.rest₂
  frames : s₁.frames = s₂.frames
  ahead : s₁.ahead = s₂.ahead
  eof : s₁.eof = s₂.eof
  last : s₁.last = s₂.last ∨ s₁.taken = T.base
  taken : s₁.taken + T.start₂ = s₂.taken + T.start₁
  started : T.start₁ ≤ s₁.taken
  declared : s₁.declared = s₂.declared
  commentSeen : s₁.commentSeen = s₂.commentSeen
  constants : s₁.constants = s₂.constants
  settings : T.view s₁.settings = T.view s₂.settings
  registry : s₁.registry.relabel T.labels = s₂.registry.relabel T.labels
  script : T.exact = true → s₁.script = s₂.script
  limit : s₁.report.limit = s₂.report.limit
  errors : ∃ es, s₁.report.errors = T.errors₁ ++ es ∧ s₂.report.errors = T.errors₂ ++ es

/-- The first reading has gone where the two can no longer be compared: into the ends of the streams,
or beyond the limit of errors that only one has reached. -/
def Lost (s : State) : Prop :=
  s.unread.length < T.rest₁.length ∨
    (T.errors₂.length < T.errors₁.length ∧ s.report.full = true)

variable {T} {s s' s₁ s₂ : State}

theorem Lost.mono (h : T.Lost s) (hs : Advances s s') : T.Lost s' := by
  rcases h with h | ⟨h, hf⟩
  · exact .inl (Nat.lt_of_le_of_lt hs.unread.length_le h)
  · exact .inr ⟨h, hs.full hf⟩

theorem plain_eq {u₁ u₂ : Settings} (h : T.view u₁ = T.view u₂) : u₁.plain = u₂.plain := by
  unfold view at h
  split at h
  · rw [h]
  · exact h

theorem eq_of_view (he : T.exact = true) {u₁ u₂ : Settings} (h : T.view u₁ = T.view u₂) : u₁ = u₂ := by
  simpa only [view, he, if_true] using h

/-- The outcome of the two readings. Where they are not exact, one of them may fail to write. Where
the streams end in different ways, the first one may fail there. -/
inductive Meets {α γ : Type} (T : Twin) (v : α → γ) :
    EStateM.Result (Halt Diagnostic) State α → EStateM.Result (Halt Diagnostic) State α → Prop where
  | ok {a₁ a₂ : α} {s₁ s₂ : State} (value : v a₁ = v a₂) (rel : T.Rel s₁ s₂) :
      Meets T v (.ok a₁ s₁) (.ok a₂ s₂)
  | error (e : Halt Diagnostic) {s₁ s₂ : State} (rel : T.Rel s₁ s₂) :
      Meets T v (.error e s₁) (.error e s₂)
  | lost {r₁ r₂ : EStateM.Result (Halt Diagnostic) State α} (lost : T.Lost (finalState r₁)) :
      Meets T v r₁ r₂
  | failed₁ {f : Failure} {s : State} {r : EStateM.Result (Halt Diagnostic) State α}
      (loose : T.exact = true → T.rest₁ ≠ []) : Meets T v (.error (.failed f) s) r
  | failed₂ {f : Failure} {s : State} {r : EStateM.Result (Halt Diagnostic) State α}
      (loose : T.exact = false) : Meets T v r (.error (.failed f) s)

/-- The two readings do alike, with values that look the same through `v`. -/
structure Sim {α γ : Type} (T : Twin) (v : α → γ) (m₁ m₂ : Reader α) : Prop where
  adv : Advancing m₁
  meets : ∀ {s₁ s₂}, T.Rel s₁ s₂ → T.Meets v (m₁ T.env₁ s₁) (m₂ T.env₂ s₂)

/-! ## Combinators -/

section Combinators

variable {α β γ δ : Type} {v : α → γ} {w : β → δ} {m₁ m₂ : Reader α} {f₁ f₂ : α → Reader β}

theorem sim_pure {a₁ a₂ : α} (h : v a₁ = v a₂) : T.Sim v (pure a₁) (pure a₂) :=
  ⟨fun _ s => .refl s, fun hs => .ok h hs⟩

theorem sim_throw (e : Halt Diagnostic) : T.Sim v (throw e : Reader α) (throw e) :=
  ⟨fun _ s => .refl s, fun hs => .error e hs⟩

theorem meets_bind (h : T.Meets v (m₁ T.env₁ s₁) (m₂ T.env₂ s₂))
    (hf : ∀ a₁ a₂, v a₁ = v a₂ → T.Sim w (f₁ a₁) (f₂ a₂)) :
    T.Meets w ((m₁ >>= f₁) T.env₁ s₁) ((m₂ >>= f₂) T.env₂ s₂) := by
  rw [bind_apply, bind_apply]
  generalize m₁ T.env₁ s₁ = r₁ at h ⊢
  generalize m₂ T.env₂ s₂ = r₂ at h ⊢
  cases h with
  | ok value rel => exact (hf _ _ value).meets rel
  | error e rel => exact .error e rel
  | failed₁ loose => exact .failed₁ loose
  | lost lost =>
    -- what comes after a reading that is lost is lost
    cases r₁ with
    | error e s => exact .lost lost
    | ok a s =>
      refine .lost ?_
      show T.Lost (finalState (f₁ a T.env₁ s))
      rw [finalState_eq]
      exact Lost.mono lost ((hf a a rfl).adv T.env₁ s)
  | failed₂ loose => exact .failed₂ loose

theorem sim_bind (hm : T.Sim v m₁ m₂) (hf : ∀ a₁ a₂, v a₁ = v a₂ → T.Sim w (f₁ a₁) (f₂ a₂)) :
    T.Sim w (m₁ >>= f₁) (m₂ >>= f₂) :=
  ⟨hm.adv.bind fun a => (hf a a rfl).adv, fun hs => meets_bind (hm.meets hs) hf⟩

/-- What follows a value that is the same. -/
theorem sim_seq (hm : T.Sim id m₁ m₂) (hf : ∀ a, T.Sim w (f₁ a) (f₂ a)) :
    T.Sim w (m₁ >>= f₁) (m₂ >>= f₂) := by
  refine sim_bind hm fun a₁ a₂ h => ?_
  cases h
  exact hf a₁

theorem sim_ite {c : Prop} [Decidable c] {n₁ n₂ : Reader α} (hm : T.Sim v m₁ m₂)
    (hn : T.Sim v n₁ n₂) : T.Sim v (if c then m₁ else n₁) (if c then m₂ else n₂) := by
  split
  · exact hm
  · exact hn

theorem sim_modify {g₁ g₂ : State → State} {v : PUnit → γ} (hadv : ∀ s, Advances s (g₁ s))
    (hg : ∀ s₁ s₂, T.Rel s₁ s₂ → T.Rel (g₁ s₁) (g₂ s₂)) :
    T.Sim v (modify g₁ : Reader PUnit) (modify g₂) :=
  ⟨fun _ s => hadv s, fun hs => .ok rfl (hg _ _ hs)⟩

/-- The limit of errors is reached by both, or only by the first, which is then lost. -/
theorem Rel.full (h : T.Rel s₁ s₂) (hlost : ¬ T.Lost s₁) : s₁.report.full = s₂.report.full := by
  obtain ⟨es, h₁, h₂⟩ := h.errors
  have hle := T.errors_le
  have hfull : ¬ (T.errors₂.length < T.errors₁.length ∧ s₁.report.full = true) :=
    fun hf => hlost (.inr hf)
  simp only [Report.full, decide_eq_true_eq, h.limit, h₁, h₂, List.length_append,
    decide_eq_decide] at hfull ⊢
  omega

end Combinators

theorem Rel.left (h : T.Rel s₁ s₂) : s₁.left + T.rest₂.length = s₂.left + T.rest₁.length := by
  obtain ⟨ts, h₁, h₂⟩ := h.unread
  simp only [State.left, h.ahead, h₁, h₂, List.length_append]
  omega

/-! ## Messages -/

theorem sim_log (n : Note) : T.Sim id (log n) (log n) := by
  exact sim_ite (sim_modify (fun _ => advances_of_place rfl) fun _ _ h => { h with }) (sim_throw _)

theorem rel_addAll (h : T.Rel s₁ s₂) (ds : List Diagnostic) :
    T.Rel { s₁ with report := s₁.report.addAll ds } { s₂ with report := s₂.report.addAll ds } := by
  obtain ⟨es, h₁, h₂⟩ := h.errors
  refine { h with errors := ⟨es ++ ds, ?_, ?_⟩ }
  · rw [← List.append_assoc, ← h₁]
    rfl
  · rw [← List.append_assoc, ← h₂]
    rfl

theorem rel_add (h : T.Rel s₁ s₂) {d₁ d₂ : Diagnostic} (hd : d₁ = d₂) :
    T.Rel { s₁ with report := s₁.report.add d₁ } { s₂ with report := s₂.report.add d₂ } := by
  subst hd
  exact rel_addAll h [d₁]

theorem sim_report (location : Location) (p : Problem) :
    T.Sim id (report location p) (report location p) := by
  refine ⟨tokenPath_advances.report location p, fun {s₁ s₂} hs => ?_⟩
  exact .ok rfl (rel_add hs (by rw [T.lines]))

theorem located_eq (d : Diagnostic) (t : Token) : located T.env₁ d t = located T.env₂ d t := by
  unfold located
  rw [T.lines]

theorem sim_record (d : Diagnostic) (t : Token) : T.Sim id (record d t) (record d t) := by
  refine ⟨tokenPath_advances.record d t, fun {s₁ s₂} hs => ?_⟩
  exact .ok rfl (rel_add hs (located_eq d t))

/-! ## Tokens -/

theorem rel_receive (h : T.Rel s₁ s₂) (o : Option Token) : T.Rel (s₁.receive o) (s₂.receive o) := by
  obtain ⟨ts, e, hreceive⟩ := receive_eq o
  rw [hreceive, hreceive]
  exact { h with ahead := by rw [h.ahead], eof := by rw [h.eof] }

/-- One more token is drawn by both from what they have in common. -/
theorem meets_drawNext (hs : T.Rel s₁ s₂) :
    T.Meets id (s₁.drawNext T.env₁) (s₂.drawNext T.env₂) := by
  have hflags : s₁.settings.flags = s₂.settings.flags := by
    have h : s₁.settings.plain.flags = s₂.settings.plain.flags := by rw [plain_eq hs.settings]
    exact h
  have hdraw₂ : s₂.draw T.env₂ =
      Frames.draw s₁.settings.flags T.env₁.sourceLine s₁.frames s₂.unread := by
    rw [State.draw, hflags, T.lines, hs.frames]
  -- what is drawn, if it is the same but for the ends of the streams
  have hsame (ts : List Token) (h₁ : (s₁.draw T.env₁).rest = ts ++ T.rest₁)
      (h₂ : s₂.draw T.env₂ = { s₁.draw T.env₁ with rest := ts ++ T.rest₂ }) :
      T.Meets id (s₁.drawNext T.env₁) (s₂.drawNext T.env₂) := by
    have hrel : T.Rel (s₁.drawn (s₁.draw T.env₁)) (s₂.drawn (s₂.draw T.env₂)) := by
      have h := rel_addAll hs (s₁.draw T.env₁).errors
      rw [h₂]
      exact { h with unread := ⟨ts, h₁, rfl⟩, frames := rfl }
    have hfound : (s₂.draw T.env₂).found = (s₁.draw T.env₁).found := by rw [h₂]
    rw [State.drawNext, State.drawNext, hfound]
    cases (s₁.draw T.env₁).found with
    | error f => exact .error _ hrel
    | ok o => exact .ok rfl (rel_receive hrel o)
  obtain ⟨ts, hu₁, hu₂⟩ := hs.unread
  by_cases hrest : T.rest₁ = []
  · have hunread : s₂.unread = s₁.unread := by rw [hu₁, hu₂, hrest, T.rest_nil hrest]
    refine hsame (s₁.draw T.env₁).rest (by rw [hrest, List.append_nil]) ?_
    rw [hdraw₂, hunread, T.rest_nil hrest, List.append_nil]
    rfl
  · cases hfound : (s₁.draw T.env₁).found with
    | error f =>
      rw [State.drawNext, hfound]
      exact .failed₁ fun _ => hrest
    | ok o =>
      by_cases hle : T.rest₁.length ≤ (s₁.draw T.env₁).rest.length
      · unfold State.draw at hfound hle
        rw [hu₁] at hfound hle
        obtain ⟨r, hr, hall⟩ := Frames.draw_append hrest hfound hle
        refine hsame r (by rw [State.draw, hu₁, hr]) ?_
        rw [hdraw₂, hu₂, hall, State.draw, hu₁]
      · refine .lost (.inl ?_)
        rw [State.drawNext, hfound]
        obtain ⟨ts, e, hreceive⟩ := receive_eq o
        show ((s₁.drawn _).receive o).unread.length < _
        rw [hreceive]
        exact Nat.not_le.mp hle

theorem sim_draw (n : Nat) : T.Sim id (Reader.draw n) (Reader.draw n) := by
  refine ⟨.draw n, fun {s₁ s₂} hs => ?_⟩
  rw [draw_apply, draw_apply, ← hs.ahead, ← hs.eof]
  split
  · exact meets_drawNext hs
  · exact .ok rfl hs

theorem sim_ahead (n : Nat) : T.Sim id (ahead n) (ahead n) := by
  refine ⟨fun _ s => .refl s, fun {s₁ s₂} hs => .ok ?_ hs⟩
  show (s₁.ahead[n]? <|> s₁.eof).getD endOfStream = _
  rw [hs.ahead, hs.eof]
  rfl

theorem sim_peek : T.Sim id peek peek := sim_seq (sim_draw 0) fun _ => sim_ahead 0

theorem sim_peekSecond : T.Sim id peekSecond peekSecond :=
  sim_seq (sim_draw 0) fun _ => sim_seq (sim_draw 1) fun _ => sim_ahead 1

theorem rel_take (h : T.Rel s₁ s₂) (t : Token) : T.Rel (s₁.take t) (s₂.take t) := by
  have htaken := h.taken
  have hstarted := h.started
  refine { h with
    ahead := by rw [State.take, State.take, h.ahead], last := .inl rfl, taken := ?_, started := ?_ }
  · show s₁.taken + 1 + T.start₂ = s₂.taken + 1 + T.start₁
    omega
  · exact Nat.le_succ_of_le hstarted

theorem sim_advance : T.Sim id advance advance := by
  refine ⟨.advance, fun {s₁ s₂} hs => ?_⟩
  have h := sim_peek.meets hs
  rw [advance_apply, advance_apply]
  generalize peek T.env₁ s₁ = r₁ at h ⊢
  generalize peek T.env₂ s₂ = r₂ at h ⊢
  cases h with
  | error e rel => exact .error e rel
  | failed₁ loose => exact .failed₁ loose
  | failed₂ loose => exact .failed₂ loose
  | ok value rel =>
    cases value
    dsimp only
    split
    · exact .ok rfl rel
    · exact .ok rfl (rel_take rel _)
  | lost lost =>
    refine .lost ?_
    cases r₁ with
    | error e s => exact lost
    | ok t s =>
      dsimp only
      split
      · exact lost
      · exact lost

end Twin
end Declaration
end RecordView
