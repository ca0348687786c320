import RecordView.Proofs.Declaration.Twin
import RecordView.Proofs.Script.Emission

/-! A place between two members: the reading of a description can be taken up there, and getting there
depends on nothing that comes after it. -/
namespace RecordView.Declaration
open Reader

/-! ## What is never refused -/

def Unrefused {α : Type} (m : Reader α) : Prop := ∀ env s e s', m env s ≠ .error (.refused e) s'

namespace Unrefused

variable {α β : Type}

theorem pure (a : α) : Unrefused (pure a : Reader α) := by
  intro env s e s' h
  cases h

theorem bind {m : Reader α} {f : α → Reader β} (hm : Unrefused m)
    (hf : ∀ a, Unrefused (f a)) : Unrefused (m >>= f) := by
  intro env s e s' h
  rcases bind_error.mp h with h₁ | ⟨a, s₁, -, h₁⟩
  · exact hm env s e s' h₁
  · exact hf a env s₁ e s' h₁

theorem get : Unrefused (get : Reader State) := by
  intro env s e s' h
  cases h

theorem ite {c : Prop} [Decidable c] {m₁ m₂ : Reader α} (h₁ : Unrefused m₁)
    (h₂ : Unrefused m₂) : Unrefused (if c then m₁ else m₂) := by
  split
  · exact h₁
  · exact h₂

theorem forM {f : α → Reader PUnit} (hf : ∀ a, Unrefused (f a)) (as : List α) :
    Unrefused (as.forM f) := by
  induction as with
  | nil => exact .pure _
  | cons a as ih => exact .bind (hf a) fun _ => ih

theorem modify (f : State → State) : Unrefused (modify f : Reader PUnit) := by
  intro env s e s' h
  cases h

theorem rounds {step : β → Reader (Round β α)} (hs : ∀ b, Unrefused (step b)) (b : β) :
    Unrefused (rounds step b) := by
  intro env s e s' h
  obtain ⟨b₁, s₁, -, hlast⟩ := exists_lastRound step env b s
  rw [hlast] at h
  cases hr : step b₁ env s₁ with
  | error e₁ s₂ =>
    rw [hr] at h
    cases h
    exact hs b₁ env s₁ e s' hr
  | ok r s₂ =>
    rw [hr] at h
    cases r <;> cases h

theorem report (location : Location) (p : Problem) : Unrefused (report location p) := by
  intro env s e s' h
  cases h

theorem peek : Unrefused Reader.peek := by
  refine .bind (fun env s e s' h => ?_) fun _ env s e s' h => ?_
  · rw [draw_apply] at h
    split at h
    · unfold State.drawNext at h
      split at h <;> cases h
    · cases h
  · cases h

theorem advance : Unrefused Reader.advance := by
  intro env s e s' h
  rw [advance_apply] at h
  split at h
  · split at h <;> cases h
  · rename_i hpeek
    cases h
    exact peek env s e s' hpeek

theorem check (symbol : String) : Unrefused (check symbol) :=
  .bind .peek fun _ => .pure _

theorem accept (symbol : String) : Unrefused (accept symbol) :=
  .bind (.check symbol) fun _ =>
    .ite (.bind .advance fun _ => .pure _) (.pure _)

theorem collect (stops : List String) : Unrefused (collect stops) := by
  refine .rounds (fun b => .bind .peek fun t => ?_) _
  refine .ite (.pure _) (.ite (.pure _) ?_)
  exact .bind .advance fun _ => .pure _

theorem skipStatement (line : Nat) (commaEnds : Bool) :
    Unrefused (skipStatement line commaEnds) := by
  refine .rounds (fun _ => .bind .peek fun t => ?_) _
  refine .ite (.pure _) (.ite ?_ (.ite (.pure _) ?_))
  · exact .bind .advance fun _ => .pure _
  · exact .bind .advance fun _ => .pure _

theorem attempt (t : Token) (start : Nat) (commaEnds : Bool) (fallback : α)
    (m : Reader α) : Unrefused (attempt t start commaEnds fallback m) := by
  have hskip := skipStatement t.line commaEnds
  have hsync : Unrefused (synchronize t.line start commaEnds) := by
    refine .bind .get fun s => .ite ?_ (.ite ?_ hskip)
    · exact .bind .advance fun _ => hskip
    · exact .pure _
  intro env s e s' h
  rw [Reader.attempt, tryCatch_apply] at h
  split at h
  · cases h
  · rename_i e₁ s₁ _
    cases e₁ with
    | failed f => cases h
    | refused d =>
      rw [recover_refused] at h
      exact hsync.bind (fun _ => .pure _) env _ e s' h

theorem advanceTo (d d' : Draft) : Unrefused (advanceTo d d') :=
  fun _ _ e _ => perform_ne_refused _ e

/-- The members of a body are refused one by one, but not the body. -/
theorem members (d : Draft) : Unrefused (members d) := by
  refine .rounds (fun d => ?_) d
  refine .bind .get fun _ => .ite (.pure _) ?_
  refine .bind .peek fun t => .bind .get fun _ => ?_
  refine .ite ?_ (.ite ?_ ?_)
  · exact .bind (.report _ _) fun _ => .pure _
  · refine .bind .advance fun _ => .ite ?_ ?_
    · refine .bind (.bind .get fun _ => ?_) fun _ => .pure _
      exact .bind (.advanceTo _ _) fun _ =>
        .bind (.attempt _ _ _ _ _) fun _ => .pure _
    · exact .bind .get fun _ =>
        .bind (.advanceTo _ _) fun _ => .pure _
  · exact .bind (.attempt _ _ _ _ _) fun _ => .pure _

theorem enumMembers (keyword : Token) (e : EnumDraft) : Unrefused (enumMembers keyword e) := by
  refine .rounds (fun e => ?_) e
  refine .bind .get fun _ => .ite (.pure _) ?_
  refine .bind .peek fun t => .bind .get fun _ => ?_
  refine .ite ?_ (.ite ?_ ?_)
  · exact .bind (.report _ _) fun _ => .pure _
  · exact .bind .advance fun _ => .pure _
  · exact .bind (.attempt _ _ _ _ _) fun _ => .pure _

end Unrefused

/-! ## Taking up a reading -/

variable {env : Env} {s s' s₀ s₁ s₂ s₃ s₄ : State} {t : Token} {start : Nat} {form : Form} {typedef : Bool}
  {d d₀ : Draft} {word : String}

theorem advance_of_peek (h : peek env s = .ok t s') (ht : t.kind ≠ .eof) :
    advance env s' = .ok t (s'.take t) := by
  rw [advance_apply, peek_peek h]
  exact if_neg ht

theorem kind_of_isWord (h : t.isWord word = true) : t.kind = .identifier := by
  simp only [Token.isWord, Bool.and_eq_true, beq_iff_eq] at h
  exact h.1

theorem text_of_isWord (h : t.isWord word = true) : t.text = word := by
  simp only [Token.isWord, Bool.and_eq_true, beq_iff_eq] at h
  exact h.2

theorem isWord_ne {word' : String} (h : t.isWord word = true) (hne : word ≠ word') :
    t.isWord word' = false := by
  rw [Token.isWord, text_of_isWord h]
  simp [hne]

theorem Enters.exists_next (h : Enters env s₁ form typedef s₃) : ∃ t s₂, peek env s₁ = .ok t s₂ := by
  cases h with
  | declaration _ next => exact ⟨_, _, next⟩
  | typedef _ next => exact ⟨_, _, next⟩

theorem Enters.going (h : Enters env s form typedef s') :
    s.report.full = false := by
  cases h with
  | declaration going => exact going
  | typedef going => exact going

theorem Enters.kind_ne (h : Enters env s form typedef s')
    (next : peek env s = .ok t s₁) : t.kind ≠ .eof := by
  cases h with
  | declaration _ next' word =>
    rw [next] at next'
    cases next'
    rw [kind_of_isWord word]
    decide
  | typedef _ next' word =>
    rw [next] at next'
    cases next'
    rw [kind_of_isWord word]
    decide

/-- A statement that gets to the keyword of a struct or union declares it. -/
theorem Enters.statement_eq (h : Enters env s₁ form typedef s₃) (next : peek env s₁ = .ok t s₂) :
    statement env s₂ = aggregate form typedef env s₃ := by
  rw [statement, bind_apply, peek_peek next]
  cases h with
  | declaration going next' word ne =>
    rw [next] at next'
    cases next'
    have hkind := kind_of_isWord word
    have hsymbol := not_isSymbol_of_name hkind ";"
    cases form with
    | enum => exact absurd rfl ne
    | struct => simp [hkind, hsymbol, show t.isWord "struct" = true from word]
    | union =>
      simp [hkind, hsymbol, isWord_ne word (show Form.word .union ≠ "struct" by decide),
        show t.isWord "union" = true from word]
  | typedef going next' word taken second target ne =>
    rw [next] at next'
    cases next'
    have hkind := kind_of_isWord word
    have hsymbol := not_isSymbol_of_name hkind ";"
    have hword (word' : String) (hne : "typedef" ≠ word') := isWord_ne word hne
    simp only [hkind, hsymbol, hword "struct" (by decide), hword "union" (by decide),
      hword "enum" (by decide), word, reduceCtorEq, if_false, if_true, Bool.false_eq_true]
    rw [Reader.typedef, bind_apply, taken]
    dsimp only
    rw [bind_apply, second]
    cases form with
    | enum => exact absurd rfl ne
    | struct => simp [show Token.isWord _ "struct" = true from target]
    | union =>
      simp [isWord_ne target (show Form.word .union ≠ "struct" by decide),
        show Token.isWord _ "union" = true from target]

/-- A name that is no keyword starts a field. -/
theorem member_eq_field (hpeek : peek env s = .ok t s) (hkind : t.kind = .identifier)
    (hword : t.text ∉ keywords) : member d env s = field d env s := by
  have hunion : t.text ≠ "union" := fun h => hword (h ▸ by decide)
  rw [member, bind_apply, hpeek]
  simp [hkind, not_isSymbol_of_name hkind, startsUnion, hunion, hword]

theorem member_eq_directive (hpeek : peek env s = .ok t s) (hkind : t.kind = .directive) :
    member d env s = (directive >>= fun _ => pure d) env s := by
  rw [member, bind_apply, hpeek]
  simp [hkind]

/-- The rest of a statement that declares a struct or union, from a place between its members on. The
statement starts with the token `t`, before which `start` tokens were taken. -/
def restOfStatement (t : Token) (start : Nat) (typedef : Bool) (d : Draft) : Reader Unit :=
  attempt t start false () (members d >>= closing typedef)

/-- In the reading of a description from `s₀`, the state `s` is between two members of the body of a
statement that starts with the token `t`, before which `start` tokens were taken. -/
def Between (env : Env) (s₀ : State) (t : Token) (start : Nat) (typedef : Bool) (d : Draft)
    (s : State) : Prop :=
  ∃ s₁ s₂ s₃ form d₀ s₄, Runs statementRound env () s₀ () s₁ ∧ peek env s₁ = .ok t s₂ ∧
    s₂.taken = start ∧ Enters env s₁ form typedef s₃ ∧ opening form typedef env s₃ = .ok d₀ s₄ ∧
    Runs memberRound env d₀ s₄ d s

theorem Opens.between (h : Opens env s₀ d₀ s₄) (body : Runs memberRound env d₀ s₄ d s) :
    ∃ t start typedef, Between env s₀ t start typedef d s := by
  obtain ⟨s₁, s₃, form, typedef, hrun, henters, hopen⟩ := h
  obtain ⟨t, s₂, next⟩ := henters.exists_next
  exact ⟨t, s₂.taken, typedef, s₁, s₂, s₃, form, d₀, s₄, hrun, next, rfl, henters, hopen, body⟩

namespace Between

theorem advancing_memberRound (d : Draft) : Advancing (memberRound d) := bodyPath_advances.memberRound d

theorem advancing_restOfStatement (t : Token) (start : Nat) (typedef : Bool) (d : Draft) :
    Advancing (restOfStatement t start typedef d) :=
  tokenPath_advances.attempt t start false ()
    (Advancing.bind (bodyPath_advances.members d) (declarationPath_advances.closing typedef))

/-- The next token in front of the body is its keyword. -/
theorem exists_keyword (henters : Enters env s₁ form typedef s₃) (next : peek env s₁ = .ok t s₂) :
    ∃ v s, v.kind ≠ .eof ∧ peek env s = .ok v s₃ ∧ Advances s₂ s₃ := by
  cases henters with
  | declaration _ next' word _ =>
    rw [next] at next'
    cases next'
    exact ⟨_, _, by rw [kind_of_isWord word]; decide, next, .refl _⟩
  | typedef _ next' _ taken second target _ =>
    rw [next] at next'
    cases next'
    exact ⟨_, _, by rw [kind_of_isWord target]; decide, second,
      (Advancing.advance.of_ok taken).trans (Advancing.peek.of_ok second)⟩

/-- The keyword is taken before the members are read. -/
theorem taken_lt (henters : Enters env s₁ form typedef s₃) (next : peek env s₁ = .ok t s₂)
    (hopen : opening form typedef env s₃ = .ok d₀ s₄) : Advances s₁ s₄ ∧ s₂.taken < s₄.taken := by
  obtain ⟨v, s, hv, hpeek, hadv⟩ := exists_keyword henters next
  rw [opening, bind_apply, advance_of_peek hpeek hv] at hopen
  have hrest : Advances (s₃.take v) s₄ := (declarationPath_advances.bodyHead form typedef v).of_ok hopen
  have htake : Advances s₃ (s₃.take v) := Advancing.advance.of_ok (advance_of_peek hpeek hv)
  have htaken : (s₃.take v).taken = s₃.taken + 1 := rfl
  have hle := hrest.taken
  have hle' := hadv.taken
  exact ⟨((Advancing.peek.of_ok next).trans hadv).trans (htake.trans hrest), by omega⟩

theorem round_eq (henters : Enters env s₁ form typedef s₃) (next : peek env s₁ = .ok t s₂)
    (hopen : opening form typedef env s₃ = .ok d₀ s₄) (body : Runs memberRound env d₀ s₄ d s) :
    statementRound () env s₁ =
      (restOfStatement t s₂.taken typedef d >>= fun _ => pure (.again ())) env s := by
  have hmembers : members d₀ env s₄ = members d env s := body.rounds_eq
  have hstatement : statement env s₂ = (members d >>= closing typedef) env s := by
    rw [henters.statement_eq next, aggregate, bind_apply, hopen]
    dsimp only
    rw [bind_apply, bind_apply, hmembers]
  have hattempt : attempt t s₂.taken false () statement env s₂ =
      restOfStatement t s₂.taken typedef d env s := by
    rw [restOfStatement, attempt, attempt, tryCatch_apply, tryCatch_apply, hstatement]
  rw [statementRound_attempt henters.going next (henters.kind_ne next), bind_apply, hattempt, bind_apply]

theorem advances (h : Between env s₀ t start typedef d s) : Advances s₀ s := by
  obtain ⟨s₁, s₂, s₃, form, d₀, s₄, hrun, next, -, henters, hopen, body⟩ := h
  have hbefore : Advances s₀ s₁ := Advancing.runs (fun _ => .statementRound) hrun
  have hbody : Advances s₄ s := Advancing.runs advancing_memberRound body
  exact (hbefore.trans (taken_lt henters next hopen).1).trans hbody

theorem next {d' : Draft} (h : Between env s₀ t start typedef d s)
    (hround : memberRound d env s = .ok (.again d') s') (hleft : s'.left < s.left) :
    Between env s₀ t start typedef d' s' := by
  obtain ⟨s₁, s₂, s₃, form, d₀, s₄, hrun, next, hstart, henters, hopen, body⟩ := h
  exact ⟨s₁, s₂, s₃, form, d₀, s₄, hrun, next, hstart, henters, hopen, body.next hround hleft⟩

/-- The reading of a description goes on with the rest of the statement, and then with the statements
after it. -/
theorem description_eq (h : Between env s₀ t start typedef d s) (hlive : s₀.Live) :
    description env s₀ = (restOfStatement t start typedef d >>= fun _ => description) env s ∧
      start < s.taken := by
  obtain ⟨s₁, s₂, s₃, form, d₀, s₄, hrun, next, rfl, henters, hopen, body⟩ := h
  obtain ⟨hadv, hlt⟩ := taken_lt henters next hopen
  have hlive₁ : s₁.Live := ((Advancing.runs (fun _ => .statementRound) hrun).live hlive).1
  have hbody : Advances s₄ s := Advancing.runs advancing_memberRound body
  have hpeeked := (Advancing.peek.of_ok next).taken
  refine ⟨?_, Nat.lt_of_lt_of_le hlt hbody.taken⟩
  rw [description, hrun.rounds_eq, rounds, round_eq henters next hopen body, bind_apply, bind_apply]
  cases hrest : restOfStatement t s₂.taken typedef d env s with
  | error e s' => rfl
  | ok a s' =>
    -- the keyword was taken, so that fewer tokens are left
    have hadv' := (hadv.trans hbody).trans ((advancing_restOfStatement _ _ _ _).of_ok hrest)
    have hle := (hadv'.live hlive₁).2
    have htaken := ((advancing_restOfStatement _ _ _ _).of_ok hrest).taken
    have hbodytaken := hbody.taken
    have hshorter : s'.left < s₁.left := by omega
    show (if s'.left < s₁.left then _ else _) = _
    rw [if_pos hshorter]

/-- Before the limit of errors is reached at the end, it is not reached here. -/
theorem not_full (h : Between env s₀ t start typedef d s) (hlive : s₀.Live)
    (hfull : (read env s₀).1.report.full = false) : s.report.full = false := by
  have hend : Advances s (read env s₀).1 := by
    rw [read_fst, ← finalState_eq, (h.description_eq hlive).1, finalState_eq]
    exact ((advancing_restOfStatement _ _ _ _).bind fun _ => .description) env s
  cases hs : s.report.full with
  | false => rfl
  | true => exact absurd (hend.full hs) (by simp [hfull])

end Between

/-! ## Getting there -/

namespace Twin

variable {T : Twin} {u u' : State}

/-- Of two exact readings, the second gives a result where the first one does, unless that is lost. -/
theorem Sim.exists_ok {α γ : Type} {v : α → γ} {m₁ m₂ : Reader α} (hm : T.Sim v m₁ m₂)
    (he : T.exact = true) (hu : T.Rel s u) {a : α} (h : m₁ T.env₁ s = .ok a s')
    (hlost : ¬ T.Lost s') : ∃ b u', m₂ T.env₂ u = .ok b u' ∧ v a = v b ∧ T.Rel s' u' := by
  have hmeets := hm.meets hu
  rw [h] at hmeets
  generalize m₂ T.env₂ u = r at *
  cases hmeets with
  | ok value rel => exact ⟨_, _, rfl, value, rel⟩
  | lost lost => exact absurd lost hlost
  | failed₂ loose => simp [he] at loose

theorem not_lost (h : Advances s s') (hlost : ¬ T.Lost s') : ¬ T.Lost s := fun hs => hlost (hs.mono h)

theorem exists_runs {α β γ δ : Type} {v : α → γ} {w : β → δ} {step : β → Reader (Round β α)}
    (hstep : ∀ b, T.Sim (roundView w v) (step b) (step b)) (hw : ∀ b b', w b = w b' → b = b')
    (he : T.exact = true) {b₀ b : β} {u₀ : State} (hu : T.Rel s₀ u₀)
    (h : Runs step T.env₁ b₀ s₀ b s) (hlost : ¬ T.Lost s) :
    ∃ u, Runs step T.env₂ b₀ u₀ b u ∧ T.Rel s u := by
  induction h with
  | start => exact ⟨u₀, .start, hu⟩
  | @next b b' s s' _ round shorter ih =>
    have hlost' := not_lost ((hstep b).adv.of_ok round) hlost
    obtain ⟨u, hrun, hrel⟩ := ih hlost'
    obtain ⟨r, u', round', hvalue, hrel'⟩ := (hstep b).exists_ok he hrel round hlost
    cases r with
    | done a => cases hvalue
    | again b'' =>
      cases hw b' b'' (Round.again.inj hvalue)
      have hleft := hrel.left
      have hleft' := hrel'.left
      exact ⟨u', hrun.next round' (by omega), hrel'⟩

theorem exists_enters (he : T.exact = true) (hu : T.Rel s u) (h : Enters T.env₁ s form typedef s')
    (hlost : ¬ T.Lost s') : ∃ u', Enters T.env₂ u form typedef u' ∧ T.Rel s' u' := by
  cases h with
  | declaration going next word ne =>
    have hfull := hu.full (not_lost (Advancing.peek.of_ok next) hlost)
    obtain ⟨_, u', next', rfl, hrel⟩ := sim_peek.exists_ok he hu next hlost
    exact ⟨u', .declaration (by rw [← hfull, going]) next' word ne, hrel⟩
  | typedef going next word taken second target ne =>
    have hlost₂ := not_lost (Advancing.peek.of_ok second) hlost
    have hlost₁ := not_lost (Advancing.advance.of_ok taken) hlost₂
    have hfull := hu.full (not_lost (Advancing.peek.of_ok next) hlost₁)
    obtain ⟨_, u₁, next', rfl, hrel₁⟩ := sim_peek.exists_ok he hu next hlost₁
    obtain ⟨_, u₂, taken', rfl, hrel₂⟩ := sim_advance.exists_ok he hrel₁ taken hlost₂
    obtain ⟨_, u', second', rfl, hrel⟩ := sim_peek.exists_ok he hrel₂ second hlost
    exact ⟨u', .typedef (by rw [← hfull, going]) next' word taken' second' target ne, hrel⟩

/-- A place between two members is reached in the same way, whatever stands behind it. -/
theorem exists_between (he : T.exact = true) {u₀ : State} (hu : T.Rel s₀ u₀)
    (h : Between T.env₁ s₀ t start typedef d s) (hlost : ¬ T.Lost s) :
    ∃ start' u, Between T.env₂ u₀ t start' typedef d u ∧ T.Rel s u := by
  have hdraft (d d' : Draft) (h : d.relabel T.labels = d'.relabel T.labels) : d = d' := by
    rw [T.labels_id he] at h
    rwa [d.relabel_id, d'.relabel_id] at h
  obtain ⟨s₁, s₂, s₃, form, d₀, s₄, hrun, next, -, henters, hopen, body⟩ := h
  have hlost₄ := not_lost (Advancing.runs Between.advancing_memberRound body) hlost
  have hlost₃ := not_lost ((sim_opening (T := T) form typedef).adv.of_ok hopen) hlost₄
  obtain ⟨v, s', hv, hpeek, hadv⟩ := Between.exists_keyword henters next
  have hlost₂ := not_lost hadv hlost₃
  have hlost₁ := not_lost (Advancing.peek.of_ok next) hlost₂
  obtain ⟨u₁, hrun', hrel₁⟩ :=
    exists_runs (fun _ => sim_statementRound) (fun _ _ h => h) he hu hrun hlost₁
  obtain ⟨_, u₂, next', rfl, hrel₂⟩ := sim_peek.exists_ok he hrel₁ next hlost₂
  obtain ⟨u₃, henters', hrel₃⟩ := exists_enters he hrel₁ henters hlost₃
  obtain ⟨d₀', u₄, hopen', hd₀, hrel₄⟩ := (sim_opening form typedef).exists_ok he hrel₃ hopen hlost₄
  cases hdraft d₀ d₀' hd₀
  obtain ⟨u, body', hrel⟩ := exists_runs sim_memberRound hdraft he hrel₄ body hlost
  exact ⟨u₂.taken, u, ⟨u₁, u₂, u₃, form, d₀, u₄, hrun', next', rfl, henters', hopen', body'⟩, hrel⟩

/-- Two readings with the same environment that start a statement after `start₁` and `start₂` tokens. -/
def ofStreams (env : Env) (exact : Bool) {rest₁ rest₂ : List Token} (rest : rest₁ = [] → rest₂ = [])
    {errors₁ errors₂ : List Diagnostic} (errors : errors₂.length ≤ errors₁.length)
    (start₁ start₂ : Nat) : Twin where
  env₁ := env
  env₂ := env
  exact := exact
  mark := id
  rest₁ := rest₁
  rest₂ := rest₂
  errors₁ := errors₁
  errors₂ := errors₂
  base := start₁
  start₁ := start₁
  start₂ := start₂
  lines := rfl
  marks := fun _ => rfl
  mark_id := fun _ => rfl
  rest_nil := rest
  errors_le := errors
  base_le := Nat.le_refl _

/-- Two exact readings differ in what is left of their streams and in what they remark. -/
theorem Rel.eq_of_exact (h : T.Rel s u) (he : T.exact = true) (hstart : T.start₁ = T.start₂)
    (herrors : T.errors₁ = T.errors₂) :
    u = { s with
      unread := u.unread, last := u.last, notes := u.notes
      report := ⟨s.report.limit, s.report.errors, u.report.warnings⟩ } := by
  have htaken : s.taken = u.taken := by
    have htaken := h.taken
    omega
  have hregistry : s.registry = u.registry := by
    have hregistry := h.registry
    rwa [T.labels_id he, Registry.relabel_id, Registry.relabel_id] at hregistry
  have hreport : s.report.errors = u.report.errors := by
    obtain ⟨es, h₁, h₂⟩ := h.errors
    rw [h₁, h₂, herrors]
  rw [htaken, hregistry, hreport, h.frames, h.ahead, h.eof, h.declared, h.commentSeen, h.constants,
    eq_of_view he h.settings, h.script he, h.limit]

end Twin

/-- A place between two members is reached with the same draft, types and script in front of another
end of the stream. -/
theorem Between.of_stream (h : Between env s₀ t start typedef d s) {pre mid post c : List Token}
    (hstream : s₀.unread = pre ++ (mid ++ post)) (hmid : mid ≠ []) (hs : s.unread = c ++ (mid ++ post)) :
    ∃ start' last notes warnings,
      Between env { s₀ with unread := pre ++ post } t start' typedef d
        { s with
          unread := c ++ post, last, notes, report := ⟨s.report.limit, s.report.errors, warnings⟩ } := by
  have hne : mid ++ post = [] → post = [] := fun h => absurd (List.append_eq_nil_iff.mp h).1 hmid
  let T : Twin := .ofStreams env true hne (Nat.le_refl s₀.report.errors.length) s₀.taken s₀.taken
  have hstart : T.Rel s₀ { s₀ with unread := pre ++ post } :=
    { unread := ⟨pre, hstream, rfl⟩
      frames := rfl, ahead := rfl, eof := rfl, last := .inl rfl, taken := rfl
      started := Nat.le_refl _, declared := rfl, commentSeen := rfl, constants := rfl
      settings := rfl, registry := rfl, script := fun _ => rfl, limit := rfl
      errors := ⟨[], (List.append_nil _).symm, (List.append_nil _).symm⟩ }
  have hlost : ¬ T.Lost s := by
    rintro (hlt | ⟨hlt, -⟩)
    · rw [hs, List.length_append] at hlt
      exact absurd (Nat.le_add_left _ c.length) (Nat.not_le.mpr hlt)
    · exact Nat.lt_irrefl _ hlt
  obtain ⟨start', u, hu, hrel⟩ := Twin.exists_between (T := T) rfl hstart h hlost
  obtain ⟨ts, hts, hts'⟩ := hrel.unread
  have hc : c = ts := List.append_cancel_right (hs.symm.trans hts)
  have heq := hrel.eq_of_exact rfl rfl rfl
  have hunread : u.unread = c ++ post := by rw [hts', hc]; rfl
  rw [hunread] at heq
  rw [heq] at hu
  exact ⟨start', u.last, u.notes, u.report.warnings, hu⟩

end RecordView.Declaration
