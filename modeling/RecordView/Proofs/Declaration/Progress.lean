import RecordView.Proofs.Declaration.Twin

/-! Every round of a loop that goes on takes a token, so that nothing is read forever. -/
namespace RecordView.Declaration
open Reader

variable {α β : Type} {env : Env} {s s' : State} {t : Token} {d d' : Draft} {ts : List Token} {m : Reader α}
  {commaEnds : Bool}

/-- A reading that takes the token that is ahead, unless it is refused or fails. -/
structure Takes (m : Reader α) : Prop where
  adv : Advancing m
  lt : ∀ {env s t ts a s'}, s.ahead = t :: ts → t.kind ≠ .eof → m env s = .ok a s' → s.taken < s'.taken

theorem peek_of_ahead (h : s.ahead = t :: ts) : peek env s = .ok t s := by
  refine peek_of_next ?_
  rw [h]
  rfl

theorem Takes.advance : Takes advance := by
  refine ⟨.advance, fun {env s t ts a s'} hahead ht h => ?_⟩
  rw [advance_apply, peek_of_ahead hahead] at h
  dsimp only at h
  rw [if_neg ht] at h
  cases h
  exact Nat.lt_succ_self _

theorem Takes.throw (e : Halt Diagnostic) : Takes (throw e : Reader α) := by
  refine ⟨fun _ s => .refl s, fun _ _ h => ?_⟩
  cases h

theorem Takes.ite {c : Prop} [Decidable c] {m₁ m₂ : Reader α} (h₁ : Takes m₁) (h₂ : Takes m₂) :
    Takes (if c then m₁ else m₂) := by
  split
  · exact h₁
  · exact h₂

theorem Takes.bind {f : α → Reader β} (hm : Takes m) (hf : ∀ a, Advancing (f a)) : Takes (m >>= f) := by
  refine ⟨hm.adv.bind hf, fun hahead ht h => ?_⟩
  obtain ⟨a, s₁, h₁, h₂⟩ := bind_ok.mp h
  have hlt := hm.lt hahead ht h₁
  have hle := ((hf a).of_ok h₂).taken
  omega

/-- What comes before may leave the token where it is. -/
protected theorem Takes.after {f : α → Reader β} (hm : Advancing m) (hf : ∀ a, Takes (f a)) : Takes (m >>= f) := by
  refine ⟨hm.bind fun a => (hf a).adv, fun {env s t ts b s'} hahead ht h => ?_⟩
  obtain ⟨a, s₁, h₁, h₂⟩ := bind_ok.mp h
  have hadv := hm.of_ok h₁
  have hle := hadv.taken
  have hle' := ((hf a).adv.of_ok h₂).taken
  by_cases htaken : s₁.taken = s.taken
  · obtain ⟨us, hus⟩ := hadv.ahead htaken
    rw [hahead, List.cons_append] at hus
    have hlt := (hf a).lt hus.symm ht h₂
    omega
  · omega

theorem Advancing.pure (a : α) : Advancing (pure a : Reader α) := fun _ s => .refl s

theorem Advancing.refuse (location : Location) (p : Problem) :
    Advancing (refuse location p : Reader α) := fun _ s => .refl s

theorem Advancing.advanceTo (d d' : Draft) : Advancing (advanceTo d d') := bodyPath_advances.perform _

theorem Takes.directive : Takes directive := by
  obtain ⟨k, heq, hk⟩ := tokenPath_advances.directive_eq bodyPath_advances.setting
  rw [heq]
  exact .bind .advance hk

theorem Takes.fieldStatement : Takes fieldStatement := by
  obtain ⟨k, heq, hk⟩ := tokenPath_advances.fieldStatement_eq
  rw [heq]
  exact .bind .advance hk

theorem Takes.field (d : Draft) : Takes (field d) := by
  refine .bind .fieldStatement fun f => Advancing.bind tokenPath_advances.surroundings fun u => ?_
  refine Advancing.bind (tokenPath_advances.orThrow _) fun d' => ?_
  exact (Advancing.advanceTo d d').bind fun _ => .pure d'

theorem Takes.openUnion (d : Draft) : Takes (openUnion d) := by
  have hrest (env : Env) (s : State) : Advances s (after (do
      let d' := d.openUnion (← get).settings
      advanceTo d d'
      return d') env s) :=
    ((Advancing.advanceTo d _).bind fun _ => .pure _) env s
  refine .bind .advance fun _ => Advancing.advance.bind fun _ => ?_
  dsimp only
  split
  · exact (Advancing.refuse _ _).bind fun _ => hrest
  · exact hrest

theorem Takes.member (d : Draft) : Takes (member d) := by
  have hcomment (t : Token) : Advancing (comment t) := bodyPath_advances.comment t
  refine .after .peek fun t => ?_
  refine .ite ?_ (.ite ?_ (.ite ?_ (.ite (.throw _)
    (.ite (.throw _) ?_))))
  · exact .bind .advance fun _ => (hcomment t).bind fun _ => .pure d
  · exact .bind .directive fun _ => .pure d
  · exact .bind .advance fun _ => .pure d
  · refine .after (tokenPath_advances.startsUnion t) fun _ =>
      .ite (.openUnion d) (.ite ?_ (.field d))
    exact .after tokenPath_advances.skipNested fun _ => .throw _

/-- After a refused statement at least one token is skipped. -/
theorem taken_lt_of_synchronize {s₁ : State} (hadv : Advances s s₁) (hahead : s.ahead = t :: ts)
    (ht : t.kind ≠ .eof) {line : Nat} {a : Unit} (h : synchronize line s.taken commaEnds env s₁ = .ok a s') :
    s.taken < s'.taken := by
  have hskip := tokenPath_advances.skipStatement line commaEnds
  have hle := hadv.taken
  have hle' := ((tokenPath_advances.synchronize _ _ _).of_ok h).taken
  rw [synchronize, get_bind_apply] at h
  by_cases htaken : s₁.taken = s.taken
  · obtain ⟨us, hus⟩ := hadv.ahead htaken
    rw [hahead, List.cons_append] at hus
    rw [if_pos htaken] at h
    have hlt := (Takes.bind .advance fun _ => hskip).lt hus.symm ht h
    omega
  · omega

theorem taken_lt_of_attempt (hm : Takes m) (hahead : s.ahead = t :: ts) (ht : t.kind ≠ .eof) {fallback a : α}
    (h : attempt t s.taken commaEnds fallback m env s = .ok a s') : s.taken < s'.taken := by
  rw [attempt, tryCatch_apply] at h
  split at h
  · rename_i h₁
    cases h
    exact hm.lt hahead ht h₁
  · rename_i e s₁ h₁
    cases e with
    | failed f => cases h
    | refused e =>
      rw [recover_refused] at h
      obtain ⟨_, s₂, hsync, h₂⟩ := bind_ok.mp h
      have hrecord : Advances s₁ { s₁ with report := s₁.report.add (located env e t) } :=
        (tokenPath_advances.record e t).of_ok rfl
      have hlt := taken_lt_of_synchronize ((hm.adv.of_error h₁).trans hrecord) hahead ht hsync
      cases h₂
      exact hlt

theorem taken_lt_of_peek (hm : Takes m) {fallback a : α} (hlive : s.Live) {s₁ : State}
    (hpeek : peek env s = .ok t s₁) (ht : t.kind ≠ .eof)
    (h : attempt t s₁.taken commaEnds fallback m env s₁ = .ok a s') : s.taken < s'.taken := by
  have hadv := Advancing.peek.of_ok hpeek
  have hle := hadv.taken
  obtain ⟨ts, hahead⟩ := exists_ahead hpeek ht (hadv.live hlive).1
  have hlt := taken_lt_of_attempt hm hahead ht h
  omega

/-- A round of a body that goes on takes a token. -/
theorem taken_lt_of_round (hlive : s.Live) (h : memberRound d env s = .ok (.again d') s') :
    s.taken < s'.taken := by
  cases memberRound_turn h with
  | @unionEnd t _ s₁ s₂ _ _ _ next kind _ taken _ closed =>
    have hadv := Advancing.peek.of_ok next
    have hle := hadv.taken
    obtain ⟨ts, hahead⟩ := exists_ahead next kind (hadv.live hlive).1
    have hlt := Takes.advance.lt hahead kind taken
    have hle' := ((bodyPath_advances.closeUnion d t _).of_ok closed).taken
    omega
  | member _ next kind read => exact taken_lt_of_peek (.member d) hlive next kind read

/-! ## Statements -/

theorem Takes.peek {f : Token → Reader α} (hf : ∀ t, Takes (f t)) : Takes (peek >>= f) :=
  .after .peek hf

theorem Takes.expectName (wanted : Wanted) : Takes (expectName wanted) :=
  .peek fun _ => .ite .advance (.throw _)

theorem Takes.aggregate (form : Form) (typedef : Bool) : Takes (aggregate form typedef) := by
  have hopening := Takes.bind .advance (declarationPath_advances.bodyHead form typedef)
  refine .bind hopening fun d => ?_
  exact Advancing.bind (bodyPath_advances.members d) (declarationPath_advances.closing typedef)

theorem Advancing.ite {c : Prop} [Decidable c] {m₁ m₂ : Reader α} (h₁ : Advancing m₁)
    (h₂ : Advancing m₂) : Advancing (if c then m₁ else m₂) := Along.ite h₁ h₂

theorem Takes.enumOpening : Takes enumOpening := .bind .advance declarationPath_advances.enumHead

theorem Advancing.enumRound (keyword : Token) (e : EnumDraft) : Advancing (enumRound keyword e) :=
  bodyPath_advances.enumRound declarationPath_advances.enumerator keyword e

theorem Takes.statement : Takes statement := by
  have hcomment (t : Token) : Advancing (comment t) := bodyPath_advances.comment t
  refine .peek fun t => .ite ?_ (.ite .directive (.ite ?_ (.ite ?_
    (.ite ?_ (.ite ?_ (.ite ?_ (.ite (.throw _) (.throw _))))))))
  · exact .bind .advance fun _ => hcomment t
  · exact .bind .advance fun _ => .pure _
  · exact .aggregate _ _
  · exact .aggregate _ _
  · exact .bind .enumOpening fun x =>
      Advancing.bind (declarationPath_advances.enumMembers x.1 x.2) declarationPath_advances.enumClosing
  · refine .bind .advance fun _ => Advancing.peek.bind fun t => ?_
    exact .ite (Takes.aggregate _ _).adv (.ite (Takes.aggregate _ _).adv
      (.refuse _ _))

theorem Takes.enumerator (e : EnumDraft) : Takes (enumerator e) := by
  refine .bind (.expectName _) fun name => Advancing.bind (fun _ s => .refl s) fun s => ?_
  have last (value : Constant) : Advancing (addConstant e name value) :=
    Advancing.bind (fun _ _ => advances_of_place rfl) fun _ => .pure _
  have hvalue : Advancing (do
      let value ← memberValue e name
      constantEnd e name value : Reader EnumDraft) := by
    refine Advancing.bind (tokenPath_advances.memberValue e name) fun value => ?_
    refine Advancing.bind (tokenPath_advances.accept _) fun _ => .ite ?_ (last value)
    refine Advancing.bind (tokenPath_advances.check _) fun _ => .ite ?_ (last value)
    exact Advancing.peek.bind fun _ => (Advancing.refuse _ _).bind fun _ => last value
  exact .ite ((Advancing.refuse _ _).bind fun _ => hvalue) hvalue

theorem Takes.enumMember (e : EnumDraft) : Takes (enumMember e) := by
  have hcomment (t : Token) : Advancing (comment t) := bodyPath_advances.comment t
  refine .peek fun t => .ite ?_ (.ite ?_ ?_)
  · exact .bind .advance fun _ => (hcomment t).bind fun _ => .pure e
  · exact .bind .directive fun _ => .pure e
  · exact .enumerator e

/-! ## Loops -/

/-- Fewer tokens are left after some were taken. -/
theorem Advances.left_lt (h : Advances s s') (hlive : s.Live) (htaken : s.taken < s'.taken) :
    s'.left < s.left := by
  have hle := (h.live hlive).2
  omega

/-- A round that takes the token that is ahead if it goes on. -/
structure GoesOn (m : Reader (Round β α)) : Prop where
  adv : Advancing m
  lt : ∀ {env s t ts b s'}, s.ahead = t :: ts → t.kind ≠ .eof → m env s = .ok (.again b) s' →
    s.taken < s'.taken

theorem goesOn_done (a : α) : GoesOn (pure (.done a) : Reader (Round β α)) := by
  refine ⟨.pure _, fun _ _ h => ?_⟩
  cases h

theorem goesOn_ite {c : Prop} [Decidable c] {m₁ m₂ : Reader (Round β α)} (h₁ : GoesOn m₁)
    (h₂ : GoesOn m₂) : GoesOn (if c then m₁ else m₂) := by
  split
  · exact h₁
  · exact h₂

theorem Takes.goesOn {m : Reader (Round β α)} (h : Takes m) : GoesOn m := ⟨h.adv, h.lt⟩

/-- A loop whose rounds take a token if they go on. -/
structure Consuming (step : β → Reader (Round β α)) : Prop where
  adv : ∀ b, Advancing (step b)
  lt : ∀ {env b s b' s'}, s.Live → step b env s = .ok (.again b') s' → s.taken < s'.taken

theorem Consuming.left_lt {step : β → Reader (Round β α)} (h : Consuming step) {b b' : β}
    (hlive : s.Live) (hround : step b env s = .ok (.again b') s') : s'.left < s.left :=
  ((h.adv b).of_ok hround).left_lt hlive (h.lt hlive hround)

/-- A round looks at the next token first, and ends at the end of the input. -/
theorem Consuming.of_peek {f : β → Token → Reader (Round β α)} (hf : ∀ b t, GoesOn (f b t))
    (hend : ∀ b t, t.kind = .eof → ∀ env s b' s', f b t env s ≠ .ok (.again b') s') :
    Consuming fun b => peek >>= f b := by
  refine ⟨fun b => Advancing.peek.bind fun t => (hf b t).adv, fun {env b s b' s'} hlive h => ?_⟩
  obtain ⟨t, s₁, hpeek, h⟩ := bind_ok.mp h
  have hadv := Advancing.peek.of_ok hpeek
  have hle := hadv.taken
  by_cases hkind : t.kind = .eof
  · exact absurd h (hend b t hkind env s₁ b' s')
  · obtain ⟨ts, hahead⟩ := exists_ahead hpeek hkind (hadv.live hlive).1
    have hlt := (hf b t).lt hahead hkind h
    omega

theorem Consuming.collectRound (stops : List String) : Consuming (collectRound stops) := by
  refine .of_peek (fun b t => ?_) fun b t ht env s b' s' h => ?_
  · refine goesOn_ite (goesOn_done _) (goesOn_ite (goesOn_done _) ?_)
    exact (Takes.bind .advance fun _ => .pure _).goesOn
  · rw [if_pos (.inl ht)] at h
    cases h

theorem Consuming.skipRound (line : Nat) (commaEnds : Bool) :
    Consuming (skipRound line commaEnds) := by
  refine .of_peek (fun b t => ?_) fun b t ht env s b' s' h => ?_
  · refine goesOn_ite (goesOn_done _) (goesOn_ite ?_ (goesOn_ite (goesOn_done _) ?_))
    · exact (Takes.bind .advance fun _ => .pure _).goesOn
    · exact (Takes.bind .advance fun _ => .pure _).goesOn
  · rw [if_pos (.inl ht)] at h
    cases h

theorem Consuming.commentRound : Consuming commentRound := by
  refine .of_peek (fun b t => ?_) fun b t ht env s b' s' h => ?_
  · refine goesOn_ite ?_ (goesOn_done _)
    exact (Takes.bind .advance fun _ => .pure _).goesOn
  · rw [if_neg (by simp [ht])] at h
    cases h

theorem Consuming.nestedRound : Consuming nestedRound := by
  refine .of_peek (fun b t => ?_) fun b t ht env s b' s' h => ?_
  · refine goesOn_ite (goesOn_done _) (Takes.bind .advance fun _ => ?_).goesOn
    refine .ite (.pure _) (.ite (.pure _) (.ite ?_
      (.pure _)))
    exact .ite (Advancing.bind (tokenPath_advances.accept _) fun _ => .pure _)
      (.pure _)
  · rw [if_pos ht] at h
    cases h

theorem Consuming.memberRound : Consuming memberRound :=
  ⟨fun _ => bodyPath_advances.memberRound _, taken_lt_of_round⟩

/-- A statement that is attempted where a token is next takes it, or is skipped. -/
theorem Consuming.enumRound (keyword : Token) : Consuming (enumRound keyword) := by
  refine ⟨.enumRound keyword, fun {env e s e' s'} hlive h => ?_⟩
  cases turn_of_enumRound h with
  | member _ next kind read => exact taken_lt_of_peek (.enumMember e) hlive next kind read

theorem Consuming.statementRound : Consuming statementRound := by
  refine ⟨fun _ => .statementRound, fun {env b s b' s'} hlive h => ?_⟩
  cases turn_of_statementRound h with
  | statement _ next kind read => exact taken_lt_of_peek .statement hlive next kind read

end RecordView.Declaration
