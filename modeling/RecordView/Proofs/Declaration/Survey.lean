import RecordView.Proofs.Condition.Survey
import RecordView.Proofs.Declaration.Dialect
import RecordView.Proofs.Declaration.Progress
import RecordView.Proofs.Reader.Triple

/-! Before its first body, a reading decides every condition as a survey of the tokens does, although
it looks one token ahead: no token is drawn between the value of a pragma and its taking effect. -/
namespace RecordView.Declaration
open Reader

/-! ## What a reading and a survey have in common -/

/-- A reading knows of conditions and of the language what a survey knows. -/
structure State.Agrees (s : State) (v : Survey) : Prop where
  frames : s.frames = v.frames
  language : s.settings.language = v.settings.language
  platform : s.settings.platform = v.settings.platform
  errors : s.report.errors.filter (·.problem.isCondition) = v.errors
  notes : s.notes.filter Note.isCondition = v.notes

def State.survey (s : State) : Survey :=
  { settings := s.settings
    frames := s.frames
    errors := s.report.errors.filter (·.problem.isCondition)
    notes := s.notes.filter Note.isCondition }

theorem agrees_survey (s : State) : s.Agrees s.survey := ⟨rfl, rfl, rfl, rfl, rfl⟩

/-- The tokens between two states have been drawn, and a survey of them gives `v`. Before the end, it
can go on. -/
structure Surveyed (env : Env) (s₀ s : State) (v : Survey) : Prop where
  drawn : ∃ seen, s₀.unread = seen ++ s.unread ∧ s₀.survey.follow env.sourceLine seen = (v, none) ∧
    (s.eof = none → ∀ q, s₀.survey.follow env.sourceLine (seen ++ q) = v.follow env.sourceLine q)

variable {env : Env} {s₀ s s' : State} {v : Survey} {p : Pragma} {t value : Token} {symbol name : String}
  {x : Problem} {α : Type}

theorem State.Agrees.flags (h : s.Agrees v) : s.settings.flags = v.settings.flags :=
  Settings.flags_congr h.language h.platform

theorem State.Agrees.drawn (h : s.Agrees v) {d : Frames.Draw} (hd : d.OfConditions) :
    (s.drawn d).Agrees (v.drawn d) := by
  refine ⟨rfl, h.language, h.platform, ?_, ?_⟩
  · show (s.report.errors ++ d.errors).filter _ = _
    rw [List.filter_append, h.errors, List.filter_eq_self.mpr hd.errors]
    rfl
  · show (s.notes ++ d.notes).filter _ = _
    rw [List.filter_append, h.notes, List.filter_eq_self.mpr hd.notes]
    rfl

/-- What `Agrees` and `Surveyed` depend on. -/
def State.outlook (s : State) :
    List Token × Option Token × Frames × Language × Platform × List Diagnostic × List Note :=
  (s.unread, s.eof, s.frames, s.settings.language, s.settings.platform,
    s.report.errors.filter (·.problem.isCondition), s.notes.filter Note.isCondition)

theorem State.Agrees.congr (h : s.Agrees v) (heq : s'.outlook = s.outlook) : s'.Agrees v := by
  simp only [State.outlook, Prod.mk.injEq] at heq
  obtain ⟨-, -, hframes, hlanguage, hplatform, herrors, hnotes⟩ := heq
  exact ⟨hframes ▸ h.frames, hlanguage ▸ h.language, hplatform ▸ h.platform, herrors ▸ h.errors,
    hnotes ▸ h.notes⟩

theorem Surveyed.congr (h : Surveyed env s₀ s v) (hunread : s'.unread = s.unread)
    (heof : s'.eof = s.eof) : Surveyed env s₀ s' v := by
  obtain ⟨seen, htokens, hfollow, hgo⟩ := h.drawn
  exact ⟨seen, by rw [htokens, hunread], hfollow, fun he => hgo (by rw [← heof, he])⟩

theorem Surveyed.of_outlook (h : Surveyed env s₀ s v) (heq : s'.outlook = s.outlook) : Surveyed env s₀ s' v :=
  h.congr (congrArg Prod.fst heq) (congrArg (·.2.1) heq)

/-! ## The points between tokens -/

/-- No token is ahead, and as much of a pragma has been taken as `p` tells. -/
structure Begun (env : Env) (s₀ : State) (p : Pragma) (s : State) : Prop where
  undeclared : s.declared = false
  eof : ∀ e, s.eof = some e → e.kind = .eof
  ahead : s.ahead = []
  surveyed : ∃ v, s.Agrees v ∧ Surveyed env s₀ s v ∧ (s.eof = none → v.pragma = p)

/-- One token is ahead, after as much of a pragma as `p` tells. -/
structure Sees (env : Env) (s₀ : State) (t : Token) (p : Pragma) (s : State) : Prop where
  undeclared : s.declared = false
  kind : t.kind ≠ .eof
  eof : s.eof = none
  ahead : s.ahead = [t]
  surveyed : ∃ v, s.Agrees v ∧ Surveyed env s₀ s (v.see t) ∧ v.pragma = p

/-- Outside pragmas, with at most one token ahead. -/
def AtRest (env : Env) (s₀ s : State) : Prop :=
  Begun env s₀ .outside s ∨ ∃ t, Sees env s₀ t .outside s

/-- The next token is known: it is ahead, or the input ends. -/
def Looks (env : Env) (s₀ : State) (p : Pragma) (t : Token) (s : State) : Prop :=
  (s.eof = some t ∧ Begun env s₀ .outside s) ∨ Sees env s₀ t p s

theorem AtRest.undeclared (h : AtRest env s₀ s) : s.declared = false := by
  rcases h with h | ⟨t, h⟩
  · exact h.undeclared
  · exact h.undeclared

theorem Looks.atRest (h : Looks env s₀ .outside t s) : AtRest env s₀ s := by
  rcases h with ⟨-, h⟩ | h
  · exact .inl h
  · exact .inr ⟨t, h⟩

theorem Looks.sees (h : Looks env s₀ p t s) (ht : t.kind ≠ .eof) : Sees env s₀ t p s := by
  rcases h with ⟨heof, h⟩ | h
  · exact absurd (h.eof t heof) ht
  · exact h

/-- How a reading may be refused: inside a body, or at rest and for no condition. -/
def RefusedAt (env : Env) (s₀ : State) (d : Diagnostic) (s : State) : Prop :=
  s.declared = true ∨ AtRest env s₀ s ∧ d.problem.isCondition = false

/-- How a reading may fail: inside a body, in a loop without end, or with a survey of all tokens. -/
def FailedAt (env : Env) (s₀ : State) (f : Failure) (s : State) : Prop :=
  s.declared = true ∨ f = .stalled ∨
    ∃ v, s₀.survey.follow env.sourceLine s₀.unread = (v, some f) ∧ s.Agrees v

/-- From states with `P` to states with `Q`, refused and failing only as above. -/
abbrev Goes {α : Type} (env : Env) (s₀ : State) (P : State → Prop) (m : Reader α)
    (Q : α → State → Prop) : Prop := Triple env P m Q (RefusedAt env s₀) (FailedAt env s₀)

abbrev Rests {α : Type} (env : Env) (s₀ : State) (m : Reader α) : Prop :=
  Goes env s₀ (AtRest env s₀) m fun _ => AtRest env s₀

/-! ## Drawing and taking -/

theorem Begun.ended (h : Begun env s₀ p s) {e : Token} (he : s.eof = some e) :
    Begun env s₀ .outside s := by
  obtain ⟨v, hagrees, hsurveyed, -⟩ := h.surveyed
  refine ⟨h.undeclared, h.eof, h.ahead, v, hagrees, hsurveyed, fun hnone => ?_⟩
  rw [he] at hnone
  cases hnone

theorem goes_draw_of_begun (p : Pragma) : Goes env s₀ (Begun env s₀ p) (draw 0) fun _ s =>
    (∃ e, s.eof = some e ∧ Begun env s₀ .outside s) ∨ ∃ t, Sees env s₀ t p s := by
  intro s hs
  obtain ⟨v, hagrees, hsurveyed, hpragma⟩ := hs.surveyed
  rw [draw_apply]
  cases heof : s.eof with
  | some e =>
    rw [if_neg (by simp)]
    exact .inl ⟨e, heof, hs.ended heof⟩
  | none =>
    rw [if_pos (by simp [hs.ahead])]
    obtain ⟨seen, htokens, -, hgo⟩ := hsurveyed.drawn
    have hmeets : v.Meets env.sourceLine s.unread (s.draw env) := by
      unfold State.draw
      rw [hagrees.flags, hagrees.frames]
      exact Survey.meets_draw v s.unread
    have hagrees' : (s.drawn (s.draw env)).Agrees (v.drawn (s.draw env)) :=
      hagrees.drawn (Frames.draws _ _ _ _).ofConditions
    have hstops : (s.draw env).Stops := (Frames.draws _ _ _ _).stops
    have hfollow : s₀.survey.follow env.sourceLine s₀.unread = v.follow env.sourceLine s.unread := by
      rw [htokens]
      exact hgo heof s.unread
    -- at the end all tokens have been drawn
    have hended (o : Option Token) (e : Token) (hfound : (s.draw env).found = .ok o)
        (ho : ∀ t, o = some t → t.kind = .eof) (he : e.kind = .eof) :
        Begun env s₀ .outside { s.drawn (s.draw env) with eof := some e } := by
      have hrest : (s.draw env).rest = [] := hstops.ended o hfound ho
      refine ⟨hs.undeclared, fun e' he' => ?_, hs.ahead, v.drawn (s.draw env), ?_,
        ⟨s₀.unread, ?_, ?_, ?_⟩, ?_⟩
      · cases he'
        exact he
      · exact ⟨hagrees'.frames, hagrees'.language, hagrees'.platform, hagrees'.errors, hagrees'.notes⟩
      · show _ = _ ++ (s.draw env).rest
        rw [hrest, List.append_nil]
      · rw [hfollow]
        exact hmeets.ended o hfound ho
      · intro hnone
        cases hnone
      · intro hnone
        cases hnone
    unfold State.drawNext
    cases hfound : (s.draw env).found with
    | error f => exact .inr (.inr ⟨_, hfollow.trans (hmeets.failed f hfound), hagrees'⟩)
    | ok o =>
      cases o with
      | none => exact .inl ⟨endOfStream, rfl, hended none endOfStream hfound (by simp) rfl⟩
      | some t =>
        show _ ∨ _
        by_cases hk : t.kind = .eof
        · rw [receive_ended hk]
          exact .inl ⟨t, rfl, hended (some t) t hfound (by simpa using hk) hk⟩
        · rw [receive_seen hk]
          obtain ⟨drawn, hunread, hall⟩ := hmeets.seen t hfound hk
          refine .inr ⟨t, hs.undeclared, hk, heof, ?_, v.drawn (s.draw env), hagrees'.congr rfl,
            ⟨seen ++ drawn, ?_, ?_, ?_⟩, hpragma heof⟩
          · show s.ahead ++ [t] = [t]
            rw [hs.ahead, List.nil_append]
          · show _ = _ ++ (s.draw env).rest
            rw [htokens, hunread, List.append_assoc]
          · have hseen := hgo heof drawn
            have hdrawn := hall []
            rw [List.append_nil, Survey.follow_nil] at hdrawn
            rw [hseen, hdrawn]
          · intro _ q
            rw [List.append_assoc, hgo heof, hall]

/-- What is drawn where no token is ahead. -/
theorem goes_peek_of_begun (p : Pragma) : Goes env s₀ (Begun env s₀ p) peek (Looks env s₀ p) := by
  refine .bind (goes_draw_of_begun p) fun _ s hs => ?_
  show _ ∨ _
  rcases hs with ⟨e, heof, hs⟩ | ⟨t, hs⟩
  · refine .inl ⟨?_, hs⟩
    simp only [hs.ahead, heof]
    rfl
  · refine .inr ?_
    simp only [hs.ahead]
    exact hs

theorem Sees.peek_eq (h : Sees env s₀ t p s) : peek env s = .ok t s := peek_of_ahead h.ahead

theorem Sees.advance_eq (h : Sees env s₀ t p s) : advance env s = .ok t (s.take t) := by
  rw [advance_apply, h.peek_eq]
  exact if_neg h.kind

/-- A token that sets no language. -/
theorem State.Agrees.see (h : s.Agrees v) (ht : (v.see t).settings = v.settings) : s.Agrees (v.see t) := by
  refine ⟨h.frames, ?_, ?_, h.errors, h.notes⟩
  · rw [ht]
    exact h.language
  · rw [ht]
    exact h.platform

theorem agrees_see (h : s.Agrees v) (hp : v.pragma.language? t = none) : s.Agrees (v.see t) :=
  h.see (by simp [Survey.see, hp])

/-- A token that ends no language pragma may be taken. -/
theorem Sees.take (h : Sees env s₀ t p s) (hp : p.language? t = none) :
    Begun env s₀ (p.next t) (s.take t) := by
  obtain ⟨v, hagrees, hsurveyed, rfl⟩ := h.surveyed
  refine ⟨h.undeclared, fun e he => ?_, ?_, v.see t, agrees_see (hagrees.congr rfl) hp,
    hsurveyed.congr rfl rfl, fun _ => rfl⟩
  · have hnone : s.eof = some e := he
    rw [h.eof] at hnone
    cases hnone
  · show s.ahead.drop 1 = []
    rw [h.ahead]
    rfl

theorem goes_peek : Goes env s₀ (AtRest env s₀) peek (Looks env s₀ .outside) := by
  intro s hs
  rcases hs with hs | ⟨t, hs⟩
  · exact goes_peek_of_begun .outside s hs
  · rw [hs.peek_eq]
    exact .inr hs

theorem Begun.peek_eq (h : Begun env s₀ p s) (ht : s.eof = some t) : peek env s = .ok t s := by
  refine peek_of_next ?_
  rw [h.ahead, ht]
  rfl

theorem Looks.peek_eq (h : Looks env s₀ .outside t s) : peek env s = .ok t s := by
  rcases h with ⟨heof, h⟩ | h
  · exact h.peek_eq heof
  · exact h.peek_eq

/-- A token that begins no pragma may be taken. -/
theorem goes_advance (ht : Pragma.begin t = .outside) :
    Goes env s₀ (Looks env s₀ .outside t) advance fun _ => AtRest env s₀ := by
  intro s hs
  rcases hs with ⟨heof, hs⟩ | hs
  · rw [advance_apply, hs.peek_eq heof]
    dsimp only
    rw [if_pos (hs.eof t heof)]
    exact .inl hs
  · rw [hs.advance_eq]
    have htaken := hs.take rfl
    have hnext : Pragma.outside.next t = .outside := ht
    rw [hnext] at htaken
    exact .inl htaken

theorem begin_of_kind (h : t.kind ≠ .directive) : Pragma.begin t = .outside := by
  simp [Pragma.begin, Token.directive?, h]

theorem begin_of_symbol (h : t.isSymbol symbol = true)
    (hs : String.ofList (symbol.toList.drop 1) ≠ "pragma") : Pragma.begin t = .outside := by
  have htext : t.text = symbol := by
    simp only [Token.isSymbol, Bool.and_eq_true, beq_iff_eq] at h
    exact h.2
  refine if_neg fun heq => ?_
  unfold Token.directive? at heq
  split at heq
  · rw [htext] at heq
    exact hs (Option.some.inj heq)
  · cases heq

/-! ## Readings before a body -/

section Rules

variable {α β : Type} {P : State → Prop} {Q : α → State → Prop}

theorem goes_refuse {location : Location} (hx : x.isCondition = false) (hP : ∀ s, P s → AtRest env s₀ s) :
    Goes env s₀ P (refuse location x : Reader α) Q :=
  Triple.refuse fun s hs => .inr ⟨hP s hs, hx⟩

/-- A token is looked at first. -/
theorem goes_look {f : Token → Reader α} (hf : ∀ t, Goes env s₀ (Looks env s₀ .outside t) (f t) Q) :
    Goes env s₀ (AtRest env s₀) (peek >>= f) Q := .bind goes_peek hf

/-- A token that is looked at is looked at again. -/
theorem goes_look_again {f : Token → Reader α} (hf : Goes env s₀ (Looks env s₀ .outside t) (f t) Q) :
    Goes env s₀ (Looks env s₀ .outside t) (peek >>= f) Q := by
  intro s hs
  rw [bind_apply, hs.peek_eq]
  exact hf s hs

theorem goes_weaken {m : Reader α} (h : Goes env s₀ (AtRest env s₀) m Q) :
    Goes env s₀ (Looks env s₀ .outside t) m Q := fun s hs => h s hs.atRest

/-- The next token is compared with a symbol. -/
theorem goes_check {f : Bool → Reader α}
    (hf : ∀ t, Goes env s₀ (Looks env s₀ .outside t) (f (t.isSymbol symbol)) Q) :
    Goes env s₀ (AtRest env s₀) (check symbol >>= f) Q := by
  refine Triple.bind (Q := fun b s => ∃ t, b = t.isSymbol symbol ∧ Looks env s₀ .outside t s) ?_
    fun b s hs => ?_
  · exact goes_look fun t => .pure fun s hs => ⟨t, rfl, hs⟩
  · obtain ⟨t, rfl, hlooks⟩ := hs
    exact hf t s hlooks

theorem rests_pure (a : α) : Rests env s₀ (pure a : Reader α) := .pure fun _ hs => hs

theorem rests_accept (hs : String.ofList (symbol.toList.drop 1) ≠ "pragma") :
    Rests env s₀ (accept symbol) := by
  refine goes_check fun t => .ite (fun hb => ?_) fun _ => goes_weaken (rests_pure _)
  exact .bind (goes_advance (begin_of_symbol hb hs)) fun _ => rests_pure _

theorem rests_expectAs (hs : String.ofList (symbol.toList.drop 1) ≠ "pragma") (wanted : Wanted) :
    Rests env s₀ (expectAs symbol wanted) := by
  refine goes_check fun t => .ite (fun hb => goes_advance (begin_of_symbol hb hs)) fun _ => ?_
  exact goes_look_again (goes_refuse rfl fun _ h => h.atRest)

theorem rests_expectName (wanted : Wanted) : Rests env s₀ (expectName wanted) := by
  refine goes_look fun t => .ite (fun hk => ?_) fun _ => goes_refuse rfl fun _ h => h.atRest
  exact goes_advance (begin_of_kind (by rw [hk]; decide))

theorem rests_declaredName : Rests env s₀ declaredName := by
  refine goes_look fun t => .ite (fun hk => ?_) fun _ => goes_weaken (rests_pure _)
  exact .bind (goes_advance (begin_of_kind (by rw [hk]; decide))) fun _ => rests_pure _

theorem rests_parentName : Rests env s₀ parentName := by
  refine .bind (rests_accept (by decide)) fun b => .ite (fun _ => ?_) fun _ => rests_pure _
  exact .bind (rests_expectName _) fun _ => rests_pure _

theorem Sees.congr (h : Sees env s₀ t p s) (houtlook : s'.outlook = s.outlook)
    (hahead : s'.ahead = s.ahead) (hdeclared : s'.declared = s.declared) : Sees env s₀ t p s' := by
  have heof : s'.eof = s.eof := congrArg (·.2.1) houtlook
  obtain ⟨v, hagrees, hsurveyed, hpragma⟩ := h.surveyed
  exact ⟨hdeclared.trans h.undeclared, h.kind, heof.trans h.eof, hahead.trans h.ahead, v,
    hagrees.congr houtlook, hsurveyed.of_outlook houtlook, hpragma⟩

theorem Begun.congr (h : Begun env s₀ p s) (houtlook : s'.outlook = s.outlook)
    (hahead : s'.ahead = s.ahead) (hdeclared : s'.declared = s.declared) : Begun env s₀ p s' := by
  have heof : s'.eof = s.eof := congrArg (·.2.1) houtlook
  obtain ⟨v, hagrees, hsurveyed, hpragma⟩ := h.surveyed
  exact ⟨hdeclared.trans h.undeclared, fun e he => h.eof e (heof ▸ he), hahead.trans h.ahead, v,
    hagrees.congr houtlook, hsurveyed.of_outlook houtlook, fun he => hpragma (heof ▸ he)⟩

/-- What changes neither the outlook nor the tokens ahead leaves a reading at rest. -/
theorem AtRest.congr (h : AtRest env s₀ s) (houtlook : s'.outlook = s.outlook)
    (hahead : s'.ahead = s.ahead) (hdeclared : s'.declared = s.declared) : AtRest env s₀ s' := by
  rcases h with h | ⟨t, h⟩
  · exact .inl (h.congr houtlook hahead hdeclared)
  · exact .inr ⟨t, h.congr houtlook hahead hdeclared⟩

theorem rests_modify {f : State → State}
    (hf : ∀ s, (f s).outlook = s.outlook ∧ (f s).ahead = s.ahead ∧ (f s).declared = s.declared) :
    Rests env s₀ (modify f : Reader PUnit) := by
  refine Triple.modify fun s hs => ?_
  obtain ⟨houtlook, hahead, hdeclared⟩ := hf s
  exact hs.congr houtlook hahead hdeclared

/-- An error that is of no condition. -/
theorem outlook_add (s : State) {d : Diagnostic} (hd : d.problem.isCondition = false) :
    State.outlook { s with report := s.report.add d } = s.outlook := by
  simp [State.outlook, Report.add, hd]

theorem rests_report (location : Location) (hx : x.isCondition = false) :
    Rests env s₀ (report location x) := fun s hs => AtRest.congr hs (outlook_add s hx) rfl rfl

theorem rests_log {n : Note} (hn : n.isCondition = false) (hw : n.writable = true) :
    Rests env s₀ (log n) := by
  unfold log
  rw [if_pos hw]
  exact rests_modify fun s => ⟨by simp [State.outlook, hn], rfl, rfl⟩

theorem rests_comment (t : Token) : Rests env s₀ (comment t) := rests_modify fun _ => ⟨rfl, rfl, rfl⟩

theorem rests_backingType : Rests env s₀ backingType := by
  refine .bind (rests_accept (by decide)) fun b => .ite (fun _ => ?_) fun _ => rests_pure _
  refine .bind (rests_expectName _) fun t => ?_
  have last : Rests env s₀ (replaceBacking t) := .bind (rests_report _ rfl) fun _ => rests_pure _
  split
  · exact .ite (fun _ => rests_pure _) fun _ => last
  · exact last

end Rules

/-! ## Recovery -/

/-- What each round keeps, a loop keeps. -/
theorem goes_rounds {β : Type} {I : State → Prop} {step : β → Reader (Round β α)}
    (hs : ∀ b, Goes env s₀ I (step b) fun _ => I) (b : β) : Goes env s₀ I (rounds step b) fun _ => I := by
  exact Triple.rounds (I := fun _ => I) (fun b => (hs b).satisfies) (fun _ _ _ _ _ _ _ => .inr (.inl rfl)) b

theorem rests_skipStatement (line : Nat) (commaEnds : Bool) :
    Rests env s₀ (skipStatement line commaEnds) := by
  refine goes_rounds (fun _ => goes_look fun t => ?_) ()
  refine .ite (fun _ => goes_weaken (rests_pure _)) fun hstop => ?_
  have hkind : t.kind ≠ .directive := fun hk => hstop (.inr (.inl hk))
  have hadvance (r : Round Unit Unit) : Goes env s₀ (Looks env s₀ .outside t) (do
      let _ ← advance
      return r) fun _ => AtRest env s₀ :=
    .bind (goes_advance (begin_of_kind hkind)) fun _ => rests_pure _
  exact .ite (fun _ => hadvance _) fun _ =>
    .ite (fun _ => goes_weaken (rests_pure _)) fun _ => hadvance _

theorem rests_endOfDirective : Rests env s₀ endOfDirective := by
  refine .bind (goes_rounds (fun _ => goes_look fun t => .ite (fun hk => ?_) fun _ =>
    goes_weaken (rests_pure _)) ()) fun _ => goes_look fun t => .ite (fun hk => ?_) fun _ =>
    .ite (fun _ => goes_refuse rfl fun _ h => h.atRest) fun _ => goes_weaken (rests_pure _)
  · exact .bind (goes_advance (begin_of_kind (by rw [hk]; decide))) fun _ => rests_pure _
  · exact .bind (goes_advance (begin_of_kind (by rw [hk]; decide))) fun _ => rests_pure _

/-! ## Directives -/

/-- After the value of a pragma has been taken, a survey has given it to the setting already. -/
structure Given (env : Env) (s₀ : State) (name : String) (value : Token) (s : State) : Prop where
  undeclared : s.declared = false
  eof : s.eof = none
  ahead : s.ahead = []
  surveyed : ∃ v, s.Agrees v ∧ Surveyed env s₀ s (v.see value) ∧ v.pragma = .named name

theorem Sees.give (h : Sees env s₀ value (.named name) s) : Given env s₀ name value (s.take value) := by
  obtain ⟨v, hagrees, hsurveyed, hpragma⟩ := h.surveyed
  refine ⟨h.undeclared, h.eof, ?_, v, ?_, hsurveyed.congr rfl rfl, hpragma⟩
  · show s.ahead.drop 1 = []
    rw [h.ahead]
    rfl
  · exact hagrees.congr rfl

/-- The state catches up with the survey. -/
theorem Given.begun (h : Given env s₀ name value s) (hblob : value.kind = .blob)
    (hsame : s'.outlook.1 = s.outlook.1) (hdeclared : s'.declared = s.declared) (hahead : s'.ahead = s.ahead)
    (heof : s'.eof = s.eof)
    (hagrees : ∀ v : Survey, v.pragma = .named name → s.Agrees v → s'.Agrees (v.see value)) :
    Begun env s₀ .outside s' := by
  obtain ⟨v, hv, hsurveyed, hpragma⟩ := h.surveyed
  refine ⟨hdeclared.trans h.undeclared, fun e he => ?_, hahead.trans h.ahead, v.see value,
    hagrees v hpragma hv, hsurveyed.congr hsame heof, fun _ => ?_⟩
  · rw [heof, h.eof] at he
    cases he
  · show v.pragma.next value = _
    rw [hpragma]
    exact begin_of_kind (by rw [hblob]; decide)

/-- The survey of a pragma, after the setting has been given its value. -/
theorem agrees_applied {u : Settings} (hv : v.pragma = .named name) (hblob : value.kind = .blob)
    (h : s.Agrees v) (happly : s.settings.apply name value.text = .ok u) :
    State.Agrees { s with settings := u } (v.see value) := by
  by_cases hname : name = "language"
  · rw [hname] at hv happly
    have hsee : (v.see value).settings = v.settings.speak value.text := by
      simp [Survey.see, Pragma.language?, hv, hblob]
    obtain ⟨hlanguage, hplatform⟩ := Settings.speak_of_ok happly h.platform
    refine ⟨h.frames, ?_, ?_, h.errors, h.notes⟩
    · rw [hsee]
      exact hlanguage
    · rw [hsee]
      exact hplatform
  · obtain ⟨hlanguage, hplatform⟩ := Settings.apply_language happly hname
    refine agrees_see ⟨h.frames, hlanguage.trans h.language, hplatform.trans h.platform, h.errors,
      h.notes⟩ ?_
    rw [hv]
    exact if_neg fun hvalue => hname hvalue.1

/-- The survey of a pragma whose value is refused. -/
theorem agrees_refused {r : Refusal} (hv : v.pragma = .named name) (hblob : value.kind = .blob)
    (h : s.Agrees v) (happly : s.settings.apply name value.text = .error r) : s.Agrees (v.see value) := by
  by_cases hname : name = "language"
  · rw [hname] at hv happly
    exact h.see (by simp [Survey.see, Pragma.language?, hv, hblob, Settings.speak_of_error happly])
  · refine agrees_see h ?_
    rw [hv]
    exact if_neg fun hvalue => hname hvalue.1

theorem goes_applySetting (hblob : value.kind = .blob) :
    Goes env s₀ (Given env s₀ name value) (applySetting name value.text) fun _ => AtRest env s₀ := by
  intro s hs
  have hundeclared : s.settings.apply name value.text s.declared = s.settings.apply name value.text := by
    rw [hs.undeclared]
  rw [applySetting_eq, get_bind_apply, hundeclared]
  split
  · rename_i hinject
    show AtRest env s₀ { s with script := s.script.verbatim value.text }
    refine .inl (hs.begun hblob rfl rfl rfl rfl fun v hv hagrees => agrees_see (hagrees.congr rfl) ?_)
    rw [hv, hinject]
    rfl
  · cases happly : s.settings.apply name value.text with
    | ok u =>
      exact .inl (hs.begun hblob rfl rfl rfl rfl fun v hv hagrees => agrees_applied hv hblob hagrees happly)
    | error r =>
      exact .inr ⟨.inl (hs.begun hblob rfl rfl rfl rfl fun v hv hagrees =>
        agrees_refused hv hblob hagrees happly), rfl⟩

/-- A token that does not go on with a pragma begins anew. -/
theorem Looks.outside (h : Looks env s₀ p t s) (hnext : p.next t = .begin t) (hp : p.language? t = none) :
    Looks env s₀ .outside t s := by
  rcases h with h | h
  · exact .inl h
  obtain ⟨v, hagrees, hsurveyed, rfl⟩ := h.surveyed
  refine .inr ⟨h.undeclared, h.kind, h.eof, h.ahead, { v with pragma := .outside }, ?_, ?_, rfl⟩
  · exact ⟨hagrees.frames, hagrees.language, hagrees.platform, hagrees.errors, hagrees.notes⟩
  · have hsee : v.see t = Survey.see { v with pragma := .outside } t := by
      simp only [Survey.see, hnext, hp]
      rfl
    rwa [hsee] at hsurveyed

/-- The value of a pragma that has been marked and named. -/
theorem goes_value (mark name value : Token) :
    Goes env s₀ (Looks env s₀ (.named name.text) value) (settingValue mark name value)
      fun _ => AtRest env s₀ := by
  unfold settingValue
  refine Triple.guard (fun hkind s hs => ?_) fun hblob => ?_
  · exact .inr ⟨(hs.outside rfl (if_neg fun h => hkind h.2)).atRest, rfl⟩
  have hblob : value.kind = .blob := Decidable.not_not.mp hblob
  refine Triple.bind (Q := fun _ => Given env s₀ name.text value) (fun s hs => ?_) fun _ => ?_
  · have hsees := hs.sees (by rw [hblob]; decide)
    rw [hsees.advance_eq]
    exact hsees.give
  · refine .bind (goes_applySetting hblob) fun _ => ?_
    exact .bind (rests_log rfl rfl) fun _ => rests_endOfDirective

/-- Nothing is drawn between the value of a pragma and its taking effect. -/
theorem goes_directive (mark : Token) : Goes env s₀ (Sees env s₀ mark .outside) directive
    fun _ => AtRest env s₀ := by
  refine Triple.bind (Q := fun m s => m = mark ∧ Begun env s₀ (.begin m) s) (fun s hs => ?_) fun m => ?_
  · rw [hs.advance_eq]
    exact ⟨rfl, hs.take rfl⟩
  refine Triple.guard (fun hother s hs => ?_) fun hpragma => ?_
  · have hbegin : Pragma.begin m = .outside := if_neg hother
    rw [hbegin] at hs
    exact .inr ⟨.inl hs.2, rfl⟩
  have hbegin : Pragma.begin m = .marked := if_pos (Decidable.not_not.mp hpragma)
  rw [hbegin]
  refine .bind (fun s hs => goes_peek_of_begun .marked s hs.2) fun name => ?_
  refine Triple.guard (fun hkind s hs => ?_) fun hkind => ?_
  · exact .inr ⟨(hs.outside (if_neg hkind) rfl).atRest, rfl⟩
  have hkind : name.kind = .identifier := Decidable.not_not.mp hkind
  refine Triple.bind (Q := fun _ => Begun env s₀ (.named name.text)) (fun s hs => ?_) fun _ => ?_
  · have hsees := hs.sees (by rw [hkind]; decide)
    rw [hsees.advance_eq]
    have htaken := hsees.take rfl
    have hnext : Pragma.marked.next name = .named name.text := if_pos hkind
    rwa [hnext] at htaken
  refine .bind (goes_peek_of_begun (.named name.text)) fun value => ?_
  refine .ite (fun hkind => ?_) fun _ => goes_value m name value
  -- an unclosed value is taken before it is refused
  have hother : value.kind ≠ .blob := by
    rw [hkind.1]
    decide
  have hbegin : Pragma.begin value = .outside := begin_of_kind (by rw [hkind.1]; decide)
  refine .bind (fun s hs => goes_advance hbegin s (hs.outside rfl (if_neg fun h => hother h.2)))
    fun _ => ?_
  exact Triple.bind (Q := fun _ _ => False) (goes_refuse rfl fun _ h => h) fun _ _ h => h.elim

/-! ## Opening a body -/

/-- A brace has been taken, and all tokens up to it have been surveyed. -/
structure Braced (env : Env) (s₀ s : State) : Prop where
  declared : s.declared = true
  surveyed : ∃ v, s.Agrees v ∧ Surveyed env s₀ s v

theorem AtRest.surveyed (h : AtRest env s₀ s) : ∃ v, s.Agrees v ∧ Surveyed env s₀ s v := by
  rcases h with h | ⟨t, h⟩
  · obtain ⟨v, hagrees, hsurveyed, -⟩ := h.surveyed
    exact ⟨v, hagrees, hsurveyed⟩
  · obtain ⟨v, hagrees, hsurveyed, hpragma⟩ := h.surveyed
    refine ⟨v.see t, agrees_see hagrees ?_, hsurveyed⟩
    rw [hpragma]
    rfl

/-- What follows the brace of a header. -/
theorem goes_header {m : Reader α} (hkeeps : Keeps State.outlook m) (hinside : Along Inside m) :
    Goes env s₀ (AtRest env s₀) (do
      modify fun s => { s with declared := true }
      m) fun _ => Braced env s₀ := by
  intro s hs
  obtain ⟨v, hagrees, hsurveyed⟩ := hs.surveyed
  have hdeclared (s' : State) (h : Leads { s with declared := true } s') : s'.declared = true :=
    h.declared rfl
  show Expected _ _ _ (m env { s with declared := true })
  cases hend : m env { s with declared := true } with
  | ok a s' =>
    have houtlook : s'.outlook = s.outlook := (hkeeps.of_ok hend :)
    exact ⟨hdeclared s' (hinside.of_ok hend rfl), v, hagrees.congr houtlook, hsurveyed.of_outlook houtlook⟩
  | error e s' =>
    have hopened := hdeclared s' (hinside.of_error hend rfl)
    cases e with
    | refused d => exact .inl hopened
    | failed f => exact .inl hopened

theorem keeps_outlook_report (location : Location) (hx : x.isCondition = false) :
    Keeps State.outlook (report location x) :=
  .bind .read fun _ => .modify fun s => outlook_add s hx

theorem keeps_outlook_log {n : Note} (hn : n.isCondition = false) : Keeps State.outlook (log n) :=
  .ite (.modify fun s => by simp [State.outlook, hn]) (.throw _)

theorem goes_headed {β γ : Type} {y : Reader β} {k : Token → Option Token → β → Reader γ}
    (ht : t.kind = .identifier) (hy : Rests env s₀ y)
    (hkeeps : ∀ keyword name b, Keeps State.outlook (k keyword name b))
    (hinside : ∀ keyword name b, Along Inside (k keyword name b)) :
    Goes env s₀ (Looks env s₀ .outside t) (advance >>= fun t => headed y (k t)) fun _ => Braced env s₀ := by
  refine .bind (goes_advance (begin_of_kind (by rw [ht]; decide))) fun keyword => ?_
  refine .bind rests_declaredName fun name => .bind hy fun b => ?_
  exact .bind (rests_expectAs (by decide) _) fun _ =>
    goes_header (hkeeps keyword name b) (hinside keyword name b)

theorem goes_opening {form : Form} {typedef : Bool} (ht : t.kind = .identifier) :
    Goes env s₀ (Looks env s₀ .outside t) (opening form typedef) fun _ => Braced env s₀ := by
  refine goes_headed ht rests_parentName (fun keyword name parent => ?_) (inside_openBody form typedef)
  refine .bind .get fun s => ?_
  have hheader : (Header.of s.registry form typedef keyword name parent).Proper (fun _ => True) parent 2 :=
    Header.proper_of trivial (fun _ _ => trivial) (fun _ _ => trivial) s.registry form typedef
  refine .bind (.forM_of_mem fun e he => keeps_outlook_report _ ?_) fun _ => ?_
  · exact (hheader.errors e he).2
  refine .bind (.forM_of_mem fun n hn => keeps_outlook_log ?_) fun _ => ?_
  · obtain ⟨_, _, rfl⟩ := hheader.notes n hn
    rfl
  refine .bind (.modify fun _ => rfl) fun _ => ?_
  exact .bind (keeps_outlook_log rfl) fun _ => .pure _

theorem goes_enumOpening (ht : t.kind = .identifier) :
    Goes env s₀ (Looks env s₀ .outside t) enumOpening fun _ => Braced env s₀ := by
  refine goes_headed ht rests_backingType (fun keyword name backing => ?_) inside_openEnum
  refine .bind .get fun s => ?_
  dsimp only
  split
  · exact .bind (keeps_outlook_report _ rfl) fun _ => .pure _
  · exact .pure _

/-! ## Statements -/

def Reached (env : Env) (s₀ s : State) : Prop := s.declared = true ∨ AtRest env s₀ s

/-- Inside a body nothing more is asked for. -/
theorem goes_inside {P : State → Prop} {m : Reader α} (hP : ∀ s, P s → s.declared = true)
    (hm : Along Inside m) : Goes env s₀ P m fun _ => Reached env s₀ := by
  intro s hs
  have hopened := hP s hs
  cases hend : m env s with
  | ok a s' => exact .inl ((hm.of_ok hend hopened).declared hopened)
  | error e s' =>
    have hopened' := (hm.of_error hend hopened).declared hopened
    cases e with
    | refused d => exact .inl hopened'
    | failed f => exact .inl hopened'

theorem Rests.reached {P : State → Prop} {m : Reader α} (h : Goes env s₀ P m fun _ => AtRest env s₀) :
    Goes env s₀ P m fun _ => Reached env s₀ :=
  h.imp (fun _ hs => hs) (fun _ _ hs => .inr hs) fun _ _ hs => hs

theorem goes_aggregate {form : Form} {typedef : Bool} (ht : t.kind = .identifier) :
    Goes env s₀ (Looks env s₀ .outside t) (aggregate form typedef) fun _ => Reached env s₀ :=
  .bind (goes_opening ht) fun d => goes_inside (fun _ hs => hs.declared)
    (inside_bind (bodyPath_inside.members d) (declarationPath_inside.closing typedef))

theorem goes_enumeration (ht : t.kind = .identifier) :
    Goes env s₀ (Looks env s₀ .outside t) enumeration fun _ => Reached env s₀ :=
  .bind (goes_enumOpening ht) fun (keyword, e) => goes_inside (fun _ hs => hs.declared)
    (inside_bind (declarationPath_inside.enumMembers keyword e) declarationPath_inside.enumClosing)

theorem goes_typedef (ht : t.kind = .identifier) :
    Goes env s₀ (Looks env s₀ .outside t) Reader.typedef fun _ => Reached env s₀ := by
  refine .bind (goes_advance (begin_of_kind (by rw [ht]; decide))) fun _ => goes_look fun u => ?_
  refine .ite (fun hw => goes_aggregate (kind_of_isWord hw)) fun _ =>
    .ite (fun hw => goes_aggregate (kind_of_isWord hw)) fun _ => ?_
  exact goes_refuse rfl fun _ h => h.atRest

theorem goes_statement (t : Token) :
    Goes env s₀ (Looks env s₀ .outside t) statement fun _ => Reached env s₀ := by
  have hadvance (h : t.kind ≠ .directive) : Goes env s₀ (Looks env s₀ .outside t) advance fun _ =>
      AtRest env s₀ := goes_advance (begin_of_kind h)
  have hrefuse {x : Problem} (hx : x.isCondition = false) :
      Goes env s₀ (Looks env s₀ .outside t) (refuse t.location x : Reader Unit) fun _ => Reached env s₀ :=
    goes_refuse hx fun _ h => h.atRest
  refine goes_look_again (.ite (fun hk => ?_) fun _ => .ite (fun hk => ?_) fun hk =>
    .ite (fun _ => ?_) fun _ => ?_)
  · exact Rests.reached (.bind (hadvance (by rw [hk]; decide)) fun _ => rests_comment t)
  · exact Rests.reached fun s hs => goes_directive t s (hs.sees (by rw [hk]; decide))
  · exact Rests.reached (.bind (hadvance hk) fun _ => rests_pure _)
  · refine .ite (fun hw => goes_aggregate (kind_of_isWord hw)) fun _ =>
      .ite (fun hw => goes_aggregate (kind_of_isWord hw)) fun _ =>
      .ite (fun hw => goes_enumeration (kind_of_isWord hw)) fun _ =>
      .ite (fun hw => goes_typedef (kind_of_isWord hw)) fun _ => ?_
    exact .ite (fun _ => hrefuse rfl) fun _ => hrefuse rfl

/-- A directive takes its mark before it is refused. -/
theorem not_directive_of_refused {d : Diagnostic} (hs : Sees env s₀ t .outside s)
    (h : statement env s = .error (.refused d) s') (htaken : s'.taken = s.taken) : t.kind ≠ .directive := by
  intro hk
  obtain ⟨k, heq, hadv⟩ := tokenPath_advances.directive_eq bodyPath_advances.setting
  have hstatement : statement env s = directive env s := by
    rw [statement, bind_apply, hs.peek_eq]
    simp [hk]
  rw [hstatement, heq, bind_apply, hs.advance_eq] at h
  have hle := ((hadv t).of_error h).taken
  have htake : (s.take t).taken = s.taken + 1 := rfl
  omega

/-- How a statement may be refused before which `start` tokens had been taken: if it took none, then
the next token is one that may be skipped. -/
structure SkipsAt (env : Env) (s₀ : State) (start : Nat) (d : Diagnostic) (s : State) : Prop where
  refused : RefusedAt env s₀ d s
  next : s.declared = false → s.taken = start → ∃ t, Sees env s₀ t .outside s ∧ t.kind ≠ .directive

theorem skipsAt_statement (t : Token) (start : Nat) :
    Triple env (fun s => Sees env s₀ t .outside s ∧ s.taken = start) statement (fun _ => Reached env s₀)
      (SkipsAt env s₀ start) (FailedAt env s₀) := by
  intro s hs
  obtain ⟨hs, rfl⟩ := hs
  have hstatement := goes_statement t s (.inr hs)
  cases hend : statement env s with
  | ok a s' =>
    rw [hend] at hstatement
    exact hstatement
  | error e s' =>
    rw [hend] at hstatement
    cases e with
    | failed f => exact hstatement
    | refused d =>
      refine ⟨hstatement, fun hundeclared htaken => ⟨t, ?_, not_directive_of_refused hs hend htaken⟩⟩
      obtain ⟨ts, hahead⟩ := (Takes.statement.adv.of_error hend).ahead htaken
      rw [hs.ahead] at hahead
      rcases hstatement with hdeclared | ⟨hrest | ⟨u, hrest⟩, -⟩
      · rw [hundeclared] at hdeclared
        cases hdeclared
      · rw [hrest.ahead] at hahead
        cases hahead
      · rw [hrest.ahead] at hahead
        cases hahead
        exact hrest

theorem goes_synchronize (line start : Nat) (commaEnds : Bool) :
    Goes env s₀ (fun s => AtRest env s₀ s ∧
        (s.taken = start → ∃ t, Sees env s₀ t .outside s ∧ t.kind ≠ .directive))
      (synchronize line start commaEnds) fun _ => AtRest env s₀ := by
  have hskip : Rests env s₀ (skipStatement line commaEnds) := rests_skipStatement line commaEnds
  intro s hs
  rw [synchronize, get_bind_apply]
  split
  · rename_i htaken
    obtain ⟨t, hsees, hk⟩ := hs.2 htaken
    exact Triple.bind (goes_advance (begin_of_kind hk)) (fun _ => hskip) s (.inr hsees)
  · split
    · exact hs.1
    · exact hskip s hs.1

theorem goes_recover (t : Token) (start : Nat) (d : Diagnostic) :
    Goes env s₀ (SkipsAt env s₀ start d) (recover t start false () (.refused d))
      fun _ => Reached env s₀ := by
  intro s hs
  rcases hs.refused with hdeclared | ⟨hrest, hplain⟩
  · exact goes_inside (P := (·.declared = true)) (fun _ h => h)
      (inside_of_held (tokenPath_held.recover t start false () (.refused d))) s hdeclared
  · have hrecorded : State.outlook { s with report := s.report.add (located env d t) } = s.outlook :=
      outlook_add s hplain
    rw [recover_refused]
    refine Triple.bind (goes_synchronize t.line start false) (fun _ => .pure fun _ h => .inr h) _
      ⟨hrest.congr hrecorded rfl rfl, fun htaken => ?_⟩
    obtain ⟨u, hsees, hk⟩ := hs.next hrest.undeclared htaken
    exact ⟨u, hsees.congr hrecorded rfl rfl, hk⟩

theorem goes_statementRound : Goes env s₀ (Reached env s₀) (statementRound ()) fun _ => Reached env s₀ := by
  intro s hs
  rcases hs with hdeclared | hs
  · exact goes_inside (P := (·.declared = true)) (fun _ h => h) (inside_of_leads leads_statementRound) s
      hdeclared
  rw [statementRound, get_bind_apply]
  split
  · exact .inr hs
  · refine goes_look (fun t => .get_bind fun s₁ => ?_) s hs
    unfold statementAt
    refine .ite (fun _ => .pure fun s h => .inr h.2.atRest) fun hk => ?_
    refine .bind (fun s h => Triple.tryCatch (skipsAt_statement t s₁.taken) (goes_recover t s₁.taken)
      (fun _ _ hg => hg) s ⟨h.2.sees hk, by rw [h.1]⟩) fun _ => ?_
    exact .pure fun s h => h

theorem goes_description : Goes env s₀ (Reached env s₀) description fun _ => Reached env s₀ :=
  goes_rounds (fun _ => goes_statementRound) ()

/-! ## The points up to the first body -/

/-- The points of a reading up to the brace of its first body: before each statement, after that brace,
and the end if there is none. -/
inductive Leading (env : Env) (s₀ : State) : State → Prop where
  | statement {s : State} (before : Runs statementRound env () s₀ () s) (undeclared : s.declared = false) :
      Leading env s₀ s
  | brace {s s' : State} (before : Runs statementRound env () s₀ () s) (undeclared : s.declared = false)
      (begins : Begins env s s') : Leading env s₀ s'
  | last (ends : (read env s₀).2 = none) (undeclared : (read env s₀).1.declared = false) :
      Leading env s₀ (read env s₀).1

/-- A reading starts at rest. -/
theorem atRest_start (hundeclared : s₀.declared = false) (heof : s₀.eof = none) (hahead : s₀.ahead = []) :
    AtRest env s₀ s₀ := by
  refine .inl ⟨hundeclared, fun e he => ?_, hahead, s₀.survey, agrees_survey s₀, ⟨[], rfl, ?_, ?_⟩,
    fun _ => rfl⟩
  · rw [heof] at he
    cases he
  · exact Survey.follow_nil _
  · exact fun _ _ => rfl

theorem Reached.atRest (h : Reached env s₀ s) (hundeclared : s.declared = false) : AtRest env s₀ s := by
  rcases h with h | h
  · rw [hundeclared] at h
    cases h
  · exact h

theorem reached_of_runs (h₀ : AtRest env s₀ s₀) (h : Runs statementRound env () s₀ () s) :
    Reached env s₀ s :=
  Triple.runs (I := fun _ => Reached env s₀) (fun _ => goes_statementRound.satisfies) (.inr h₀) h

theorem Begins.braced (h : Begins env s s') (hs : AtRest env s₀ s) : Braced env s₀ s' := by
  cases h with
  | aggregate enters opens =>
    cases enters with
    | declaration going next word ne =>
      exact (goes_opening (kind_of_isWord word)).of_ok (goes_peek.of_ok hs next) opens
    | typedef going next word taken second target ne =>
      have hkind := kind_of_isWord word
      have hrest : AtRest env s₀ _ :=
        (goes_advance (begin_of_kind (by rw [hkind]; decide))).of_ok (goes_peek.of_ok hs next) taken
      exact (goes_opening (kind_of_isWord target)).of_ok (goes_peek.of_ok hrest second) opens
  | enum going next word opens =>
    exact (goes_enumOpening (kind_of_isWord word)).of_ok (goes_peek.of_ok hs next) opens

/-- Up to its first body, a reading knows what a survey of the tokens that it has drawn finds. -/
theorem Leading.surveyed (h₀ : AtRest env s₀ s₀) (h : Leading env s₀ s) :
    ∃ v, s.Agrees v ∧ Surveyed env s₀ s v := by
  cases h with
  | statement before undeclared => exact ((reached_of_runs h₀ before).atRest undeclared).surveyed
  | brace before undeclared begins =>
    exact (begins.braced ((reached_of_runs h₀ before).atRest undeclared)).surveyed
  | last ends undeclared =>
    have hend : Reached env s₀ (read env s₀).1 := by
      have hdescription := goes_description s₀ (.inr h₀)
      unfold read at ends ⊢
      cases hread : description env s₀ with
      | ok a s =>
        rw [hread] at hdescription
        exact hdescription
      | error e s =>
        rw [hread] at hdescription ends
        cases e with
        | refused d => exact hdescription.imp id And.left
        | failed f => cases ends
    exact (hend.atRest undeclared).surveyed

/-- Where a reading fails before its first body, so does a survey of all tokens. -/
theorem surveyed_of_failed (h₀ : AtRest env s₀ s₀) {f : Failure}
    (h : description env s₀ = .error (.failed f) s) (hundeclared : s.declared = false) (hf : f ≠ .stalled) :
    ∃ v, s₀.survey.follow env.sourceLine s₀.unread = (v, some f) ∧ s.Agrees v := by
  rcases goes_description.of_failed (.inr h₀) h with hdeclared | hstalled | hsurvey
  · rw [hundeclared] at hdeclared
    cases hdeclared
  · exact absurd hstalled hf
  · exact hsurvey

end RecordView.Declaration
