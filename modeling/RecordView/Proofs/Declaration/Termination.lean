import RecordView.Proofs.Declaration.Safety

/-! Every stream of tokens is read to its end: each loop takes tokens as long as it goes on, and a
reading that is not cut short by its errors has taken every token that passed the conditions. -/
namespace RecordView.Declaration
open Reader

variable {α β : Type} {env : Env} {s₀ s s' : State} {drawn taken : List Token}

theorem Trail.live (h : Trail s drawn taken s') (hlive : s.Live) : s'.Live := by
  induction h with
  | start => exact hlive
  | draw env _ going ih =>
    have hadv := advances_drawNext env (Option.eq_none_iff_forall_ne_some.mp going)
    exact (hadv.live ih).1
  | take _ _ ih => exact ih
  | @stay _ _ s₁ s₂ _ same ih =>
    simp only [State.stream, Prod.mk.injEq] at same
    obtain ⟨hunread, hframes, -, heof, -⟩ := same
    unfold State.Live at ih ⊢
    rwa [heof, hunread, hframes]

/-- From every place that a reading from `s₀` can get to, a round of the loop that goes on takes a
token. -/
def Drains (s₀ : State) (step : β → Reader (Round β α)) : Prop :=
  ∀ env drawn taken s b b' s', Trail s₀ drawn taken s → step b env s = .ok (.again b') s' →
    ∃ drawn' t taken', Trail s drawn' (t :: taken') s'

theorem Consuming.drains {step : β → Reader (Round β α)} (h : Consuming step) (hlive : s₀.Live) :
    Drains s₀ step := by
  intro env drawn taken s b b' s' htrail hround
  have hs : s.Live := htrail.live hlive
  have hlt : s.taken < s'.taken := h.lt hs hround
  obtain ⟨drawn', taken', hstep⟩ := ((h.adv b).of_ok hround).trail hs
  have htaken := hstep.taken_eq
  cases taken' with
  | nil =>
    rw [List.length_nil] at htaken
    omega
  | cons t taken' => exact ⟨drawn', t, taken', hstep⟩

/-- Where the next token is the end of the input, nothing is ahead and nothing is left to draw. -/
theorem exhausted_of_peek {t : Token} (hahead : ∀ t ∈ s'.ahead, t.kind ≠ .eof)
    (hlive : s'.Live) (hpeek : peek env s = .ok t s') (ht : t.kind = .eof) :
    s'.ahead = [] ∧ s'.unread = [] ∧ s'.eof = some t := by
  have hnext := next_of_peek hpeek
  cases hs : s'.ahead with
  | cons u us =>
    rw [hs] at hnext hahead
    cases hnext
    exact absurd ht (hahead t List.mem_cons_self)
  | nil =>
    rw [hs] at hnext
    exact ⟨rfl, (hlive.1 t hnext).2, hnext⟩

/-- A description that is read to the end without too many errors ends where the input ends. -/
theorem exists_peek_of_description (h : description env s₀ = .ok () s') (hfull : s'.report.full = false) :
    ∃ s t, peek env s = .ok t s' ∧ t.kind = .eof := by
  obtain ⟨_, s, -, hround⟩ := rounds_ok h
  have hadv := (Consuming.statementRound.adv ()).of_ok hround
  cases turn_of_statementRound hround with
  | full full => exact absurd (hadv.full full) (by simp [hfull])
  | @ended t _ _ next kind => exact ⟨s, t, next, kind⟩

/-- A reading that is not cut short has taken what has been drawn, and nothing is left. -/
theorem exists_trail_of_read (hlive : s₀.Live) (hahead : s₀.ahead = []) (hnone : (read env s₀).2 = none)
    (hfull : (read env s₀).1.report.full = false) :
    ∃ tokens, Trail s₀ tokens tokens (read env s₀).1 ∧ (read env s₀).1.eof.isSome = true ∧
      (read env s₀).1.unread = [] ∧ (read env s₀).1.ahead = [] := by
  have hend := description_of_unfailed hnone
  have hadv : Advances s₀ (read env s₀).1 :=
    (Advancing.rounds Consuming.statementRound.adv ()).of_ok hend
  obtain ⟨drawn, taken, htrail⟩ := hadv.trail hlive
  have horder : drawn = taken ++ (read env s₀).1.ahead := by
    have h := htrail.ahead_append
    rwa [hahead, List.nil_append] at h
  have hseen : ∀ t ∈ (read env s₀).1.ahead, t.kind ≠ .eof := fun t ht =>
    htrail.kind_ne_eof t (horder ▸ List.mem_append_right taken ht)
  obtain ⟨s, t, hpeek, ht⟩ := exists_peek_of_description hend hfull
  obtain ⟨hnothing, hunread, heof⟩ := exhausted_of_peek hseen (hadv.live hlive).1 hpeek ht
  rw [hnothing, List.append_nil] at horder
  exact ⟨taken, horder ▸ htrail, by rw [heof]; rfl, hunread, hnothing⟩

/-- Whatever the tokens, the settings and the limit of errors are: the reading ends, and can only fail
of arithmetic; every loop takes a token in each round that goes on; and unless there are too many
errors, the tokens taken are those that passed the conditions, in their order, when the end of the
input has been drawn and nothing is left. -/
theorem reading_takes_all_tokens (env : Env) (ts : List Token) (settings : Settings) (limit : Int) :
    let s₀ : State := { unread := ts, settings, report := { limit } }
    let last := (read env s₀).1
    (∀ f, (read env s₀).2 = some f → f.Arithmetic) ∧
    (Drains s₀ statementRound ∧ Drains s₀ memberRound ∧ (∀ keyword, Drains s₀ (enumRound keyword)) ∧
      (∀ line commaEnds, Drains s₀ (skipRound line commaEnds)) ∧ Drains s₀ nestedRound ∧
      (∀ stops, Drains s₀ (collectRound stops)) ∧ Drains s₀ commentRound) ∧
    ((read env s₀).2 = none → last.report.full = false →
      ∃ tokens, Trail s₀ tokens tokens last ∧ last.eof.isSome = true ∧ last.unread = [] ∧
        last.ahead = []) := by
  intro s₀ last
  have hlive : s₀.Live := ⟨nofun, fun _ => rfl⟩
  have hsteady : s₀.Steady := ⟨hlive, nofun⟩
  have hsafe : Safe env anything description := safe_description
  refine ⟨fun f hf => ?_, ⟨Consuming.statementRound.drains hlive, Consuming.memberRound.drains hlive,
    fun keyword => (Consuming.enumRound keyword).drains hlive,
    fun line commaEnds => (Consuming.skipRound line commaEnds).drains hlive,
    Consuming.nestedRound.drains hlive, fun stops => (Consuming.collectRound stops).drains hlive,
    Consuming.commentRound.drains hlive⟩, fun hnone hfull => ?_⟩
  · have hend : read env s₀ = (last, some f) := Prod.ext rfl hf
    exact hsafe.triple.of_failed hsteady (description_of_read hend)
  · exact exists_trail_of_read hlive rfl hnone hfull

/-- A struct with a nested union, a hidden bracket and an open enum after it, and no end of the input. -/
def damagedTokens : List Token :=
  [⟨.identifier, "struct", "", 1, 1⟩, ⟨.identifier, "A", "", 1, 8⟩, ⟨.leftBrace, "\x7b", "", 1, 10⟩,
   ⟨.identifier, "union", "", 2, 1⟩, ⟨.identifier, "U", "", 2, 7⟩, ⟨.leftBrace, "\x7b", "", 2, 9⟩,
   ⟨.rightBrace, "\x7d", "", 2, 11⟩, ⟨.directive, "#if", "", 3, 1⟩, ⟨.number, "0", "", 3, 5⟩,
   ⟨.newline, "", "", 3, 6⟩, ⟨.rightBracket, "]", "", 4, 1⟩, ⟨.directive, "#endif", "", 5, 1⟩,
   ⟨.newline, "", "", 5, 7⟩, ⟨.identifier, "uint8_t", "", 6, 1⟩, ⟨.rightBrace, "\x7d", "", 7, 1⟩,
   ⟨.comment, "/**/", "", 8, 1⟩, ⟨.identifier, "enum", "", 9, 1⟩, ⟨.leftBrace, "\x7b", "", 9, 6⟩,
   ⟨.other, "?", "", 10, 1⟩]

/-- The reading takes the thirteen tokens outside the condition. -/
theorem reading_takes_all_tokens_damaged :
    let env : Env := ⟨"__", fun _ => ""⟩
    let s₀ : State := { unread := damagedTokens, settings := {}, report := { limit := 20 } }
    let last := (read env s₀).1
    (read env s₀).2 = none ∧ last.report.full = false ∧ last.taken = 13 ∧
      ∃ tokens, Trail s₀ tokens tokens last ∧ last.eof.isSome = true ∧ last.unread = [] ∧
        last.ahead = [] := by
  refine ⟨by decide +kernel, by decide +kernel, by decide +kernel, ?_⟩
  exact (reading_takes_all_tokens _ damagedTokens {} 20).2.2 (by decide +kernel) (by decide +kernel)

end RecordView.Declaration
