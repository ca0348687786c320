import RecordView.Proofs.Reader.Trail

/-! What every reading does to its place: it takes tokens from the front of the stream, adds errors,
and stays where tokens are seen. -/
namespace RecordView.Declaration
open Reader

/-- Before the end of the input tokens are seen here, and at the end nothing is left. -/
def State.Live (s : State) : Prop :=
  (∀ e, s.eof = some e → e.kind = .eof ∧ s.unread = []) ∧ (s.eof = none → s.frames.active = true)

/-- What every reading does: tokens are taken from the front of the stream, and errors are added. -/
structure Advances (s s' : State) : Prop where
  unread : s'.unread <:+ s.unread
  taken : s.taken ≤ s'.taken
  ahead : s'.taken = s.taken → s.ahead <+: s'.ahead
  limit : s'.report.limit = s.report.limit
  errors : s.report.errors <+: s'.report.errors
  live : s.Live → s'.Live ∧ s'.taken + s'.left ≤ s.taken + s.left
  trail : s.Live → ∃ drawn taken, Trail s drawn taken s'

theorem Advances.refl (s : State) : Advances s s :=
  ⟨List.suffix_rfl, Nat.le_refl _, fun _ => List.prefix_rfl, rfl, List.prefix_rfl,
    fun h => ⟨h, Nat.le_refl _⟩, fun _ => ⟨[], [], .start⟩⟩

theorem Advances.trans {s₁ s₂ s₃ : State} (h : Advances s₁ s₂) (h' : Advances s₂ s₃) :
    Advances s₁ s₃ := by
  refine ⟨h'.unread.trans h.unread, Nat.le_trans h.taken h'.taken, fun heq => ?_,
    h'.limit.trans h.limit, h.errors.trans h'.errors, fun hs => ?_, fun hs => ?_⟩
  · have hle := h.taken
    have hle' := h'.taken
    exact (h.ahead (by omega)).trans (h'.ahead (by omega))
  · obtain ⟨hs₂, hle⟩ := h.live hs
    obtain ⟨hs₃, hle'⟩ := h'.live hs₂
    exact ⟨hs₃, Nat.le_trans hle' hle⟩
  · obtain ⟨_, _, hfirst⟩ := h.trail hs
    obtain ⟨_, _, hrest⟩ := h'.trail (h.live hs).1
    exact ⟨_, _, hfirst.trans hrest⟩

def State.place (s : State) :
    List Token × Frames × List Token × Option Token × Nat × Int × List Diagnostic :=
  (s.unread, s.frames, s.ahead, s.eof, s.taken, s.report.limit, s.report.errors)

theorem advances_of_place {s s' : State} (h : s'.place = s.place) : Advances s s' := by
  simp only [State.place, Prod.mk.injEq] at h
  obtain ⟨hunread, hframes, hahead, heof, htaken, hlimit, herrors⟩ := h
  refine ⟨hunread ▸ List.suffix_rfl, Nat.le_of_eq htaken.symm, fun _ => hahead ▸ List.prefix_rfl, hlimit,
    herrors ▸ List.prefix_rfl, fun hs => ⟨?_, ?_⟩, fun _ => ⟨[], [], .stay .start ?_⟩⟩
  · unfold State.Live at hs ⊢
    rwa [heof, hunread, hframes]
  · simp only [State.left, hunread, hahead, htaken]
    exact Nat.le_refl _
  · simp only [State.stream, hunread, hframes, hahead, heof, htaken]

theorem Advances.full {s s' : State} (h : Advances s s') (hs : s.report.full = true) :
    s'.report.full = true := by
  have hle := h.errors.length_le
  simp only [Report.full, decide_eq_true_eq] at hs ⊢
  rw [h.limit]
  omega

theorem isPath_advances : IsPath Advances := ⟨.refl, .trans⟩

def Advancing {α : Type} (m : Reader α) : Prop := Along Advances m

namespace Advancing

variable {α β : Type} {env : Env} {s s' : State} {m : Reader α}

theorem of_ok (hm : Advancing m) {a : α} (h : m env s = .ok a s') : Advances s s' :=
  Along.of_ok hm h

theorem of_error (hm : Advancing m) {e : Halt Diagnostic} (h : m env s = .error e s') :
    Advances s s' := Along.of_error hm h

theorem bind {f : α → Reader β} (hm : Advancing m) (hf : ∀ a, Advancing (f a)) :
    Advancing (m >>= f) := Along.bind isPath_advances hm hf

theorem tryCatch {f : Halt Diagnostic → Reader α} (hm : Advancing m) (hf : ∀ e, Advancing (f e)) :
    Advancing (tryCatch m f) := Along.tryCatch isPath_advances hm hf

theorem runs {step : β → Reader (Round β α)} (hs : ∀ b, Advancing (step b)) {b₀ b : β} {s₀ : State}
    (h : Runs step env b₀ s₀ b s) : Advances s₀ s := Along.runs isPath_advances hs h

theorem rounds {step : β → Reader (Round β α)} (hs : ∀ b, Advancing (step b)) (b : β) :
    Advancing (rounds step b) := Along.rounds isPath_advances hs b

end Advancing

/-! ## Refused statements -/

/-- An error as it is recorded for a statement that starts with the given token. -/
def located (env : Env) (d : Diagnostic) (t : Token) : Diagnostic :=
  let location := d.location.getD t.location
  d.fill (some location) (some (env.sourceLine location.line))

theorem recover_refused {α : Type} (t : Token) (start : Nat) (commaEnds : Bool) (fallback : α)
    (d : Diagnostic) (env : Env) (s : State) :
    recover t start commaEnds fallback (.refused d) env s =
      (synchronize t.line start commaEnds >>= fun _ => pure fallback) env
        { s with report := s.report.add (located env d t) } := rfl

/-! ## Drawing and taking -/

theorem draw_apply (n : Nat) (env : Env) (s : State) :
    Reader.draw n env s =
      if s.ahead.length ≤ n ∧ s.eof.isNone then s.drawNext env else .ok () s := by
  have hdraw : Frames.draw s.settings.flags env.sourceLine s.frames s.unread = s.draw env := rfl
  have hread (k : Env → Reader Unit) : (MonadReader.read >>= k) env s = k env env s := rfl
  rw [Reader.draw, hread, get_bind_apply]
  split
  · dsimp only
    rw [hdraw, State.drawNext]
    cases (s.draw env).found with
    | error f => rfl
    | ok o =>
      cases o with
      | none => rfl
      | some t =>
        show (if t.kind = .eof then (set _ : Reader Unit) else set _) env _ = _
        simp only [State.receive]
        split <;> rfl
  · rfl

theorem advances_drawNext (env : Env) {s : State} (heof : ∀ e, s.eof ≠ some e) :
    Advances s (finalState (s.drawNext env)) := by
  have hsuffix : (s.draw env).rest <:+ s.unread := (Frames.draws _ _ _ _).rest_suffix
  have hle := hsuffix.length_le
  have hstops : (s.draw env).Stops := (Frames.draws _ _ _ _).stops
  have herrors : s.report.errors <+: (s.report.addAll (s.draw env).errors).errors :=
    List.prefix_append _ _
  have htrail : ∃ drawn taken, Trail s drawn taken (finalState (s.drawNext env)) :=
    ⟨_, _, Trail.start.draw env (Option.eq_none_iff_forall_ne_some.mpr heof)⟩
  unfold State.drawNext at htrail ⊢
  cases hfound : (s.draw env).found with
  | error f =>
    rw [hfound] at htrail
    show Advances s (s.drawn (s.draw env))
    refine ⟨hsuffix, Nat.le_refl _, fun _ => List.prefix_rfl, rfl, herrors,
      fun _ => ⟨⟨fun e he => ?_, fun _ => ?_⟩, ?_⟩, fun _ => htrail⟩
    · exact absurd he (heof e)
    · exact hstops.failed f hfound
    · exact Nat.add_le_add_left (Nat.add_le_add_left hle _) _
  | ok o =>
    rw [hfound] at htrail
    change ∃ drawn taken, Trail s drawn taken ((s.drawn (s.draw env)).receive o) at htrail
    have hended (e : Token) (he : e.kind = .eof) (ho : ∀ t, o = some t → t.kind = .eof)
        (hreceive : (s.drawn (s.draw env)).receive o = { s.drawn (s.draw env) with eof := some e }) :
        Advances s { s.drawn (s.draw env) with eof := some e } := by
      refine ⟨hsuffix, Nat.le_refl _, fun _ => List.prefix_rfl, rfl, herrors,
        fun _ => ⟨⟨fun t ht => ?_, nofun⟩, ?_⟩, fun _ => hreceive ▸ htrail⟩
      · cases ht
        exact ⟨he, hstops.ended o hfound ho⟩
      · exact Nat.add_le_add_left (Nat.add_le_add_left hle _) _
    show Advances s ((s.drawn (s.draw env)).receive o)
    cases o with
    | none => exact hended endOfStream rfl nofun rfl
    | some t =>
      by_cases hk : t.kind = .eof
      · rw [receive_ended hk]
        refine hended t hk (fun t' ht' => ?_) (receive_ended hk _)
        cases ht'
        exact hk
      · have hlt : (s.draw env).rest.length < s.unread.length := Frames.draw_rest_lt hfound
        rw [receive_seen hk] at htrail ⊢
        refine ⟨hsuffix, Nat.le_refl _, fun _ => List.prefix_append _ _, rfl, herrors,
          fun _ => ⟨⟨fun e he => ?_, fun _ => ?_⟩, ?_⟩, fun _ => htrail⟩
        · exact absurd he (heof e)
        · exact hstops.seen t hfound hk
        · simp only [State.left, State.drawn, List.length_append, List.length_singleton]
          omega

theorem Advancing.draw (n : Nat) : Advancing (Reader.draw n) := by
  intro env s
  rw [← finalState_eq, draw_apply]
  split
  · rename_i hcond
    refine advances_drawNext env fun e he => ?_
    simp [he] at hcond
  · exact .refl s

protected theorem Advancing.peek : Advancing peek := (Advancing.draw 0).bind fun _ _ s => .refl s

theorem advance_apply (env : Env) (s : State) :
    advance env s =
      match peek env s with
      | .ok t s' => if t.kind = .eof then .ok t s' else .ok t (s'.take t)
      | .error e s' => .error e s' := by
  rw [advance, bind_apply]
  cases peek env s with
  | error e s' => rfl
  | ok t s' =>
    simp only [ne_eq, ite_not]
    by_cases hk : t.kind = .eof
    · rw [if_pos hk, if_pos hk]
      rfl
    · rw [if_neg hk, if_neg hk]
      rfl

section Looking

variable {env : Env} {s s' : State} {t : Token}

theorem peek_of_next (h : (s.ahead[0]? <|> s.eof) = some t) : peek env s = .ok t s := by
  have hready : ¬ (s.ahead.length ≤ 0 ∧ s.eof.isNone = true) := by
    rintro ⟨hahead, heof⟩
    rw [List.length_eq_zero_iff.mp (Nat.le_zero.mp hahead), Option.isNone_iff_eq_none.mp heof] at h
    cases h
  rw [peek, bind_apply, draw_apply, if_neg hready]
  show EStateM.Result.ok ((s.ahead[0]? <|> s.eof).getD endOfStream) s = _
  rw [h]
  rfl

/-- What is drawn stands behind what was ahead. -/
theorem newest_receive (s : State) (o : Option Token) :
    ((s.receive o).ahead[s.ahead.length]? <|> (s.receive o).eof) = some (o.getD endOfStream) := by
  cases o with
  | none => simp [State.receive]
  | some t =>
    by_cases ht : t.kind = .eof
    · rw [receive_ended ht]
      simp
    · rw [receive_seen ht]
      simp

theorem next_receive (hahead : s.ahead = []) (o : Option Token) :
    ((s.receive o).ahead[0]? <|> (s.receive o).eof) = some (o.getD endOfStream) := by
  have hnewest := newest_receive s o
  rwa [hahead] at hnewest

/-- Where nothing was looked at, the next token is drawn. -/
theorem peek_of_draw (env : Env) (hahead : s.ahead = []) (heof : s.eof = none) :
    peek env s = match (s.draw env).found with
      | .ok o => .ok (o.getD endOfStream) ((s.drawn (s.draw env)).receive o)
      | .error f => .error (.failed f) (s.drawn (s.draw env)) := by
  rw [peek, bind_apply, draw_apply, if_pos ⟨by simp [hahead], by rw [heof]; rfl⟩, State.drawNext]
  cases (s.draw env).found with
  | error f => rfl
  | ok o =>
    have hnext := next_receive (s := s.drawn (s.draw env)) hahead o
    show EStateM.Result.ok (((State.receive _ o).ahead[0]? <|> (State.receive _ o).eof).getD _) _ = _
    rw [hnext]
    rfl

theorem found_of_peek (hahead : s.ahead = []) (heof : s.eof = none) (h : peek env s = .ok t s') :
    ∃ o, (s.draw env).found = .ok o ∧ o.getD endOfStream = t ∧ (s.drawn (s.draw env)).receive o = s' := by
  rw [peek_of_draw env hahead heof] at h
  split at h
  · cases h
    exact ⟨_, by assumption, rfl, rfl⟩
  · cases h

theorem unlooked_of_next (h : (s.ahead[0]? <|> s.eof) = none) : s.ahead = [] ∧ s.eof = none := by
  cases hahead : s.ahead with
  | nil =>
    rw [hahead] at h
    exact ⟨rfl, h⟩
  | cons v vs =>
    rw [hahead] at h
    cases h

/-- The token that is looked at is the next one. -/
theorem next_of_peek (h : peek env s = .ok t s') : (s'.ahead[0]? <|> s'.eof) = some t := by
  cases hnext : (s.ahead[0]? <|> s.eof) with
  | some v =>
    rw [peek_of_next hnext] at h
    cases h
    exact hnext
  | none =>
    obtain ⟨hahead, heof⟩ := unlooked_of_next hnext
    obtain ⟨o, -, rfl, rfl⟩ := found_of_peek hahead heof h
    have hnil : (s.drawn (s.draw env)).ahead = [] := hahead
    exact next_receive hnil o

/-- The next token is the same when it is looked at again. -/
theorem peek_peek (h : peek env s = .ok t s') : peek env s' = .ok t s' := peek_of_next (next_of_peek h)

/-- A token that is next is ahead, unless it is the end. -/
theorem ahead_of_next (h : (s.ahead[0]? <|> s.eof) = some t) (ht : t.kind ≠ .eof) (hlive : s.Live) :
    ∃ ts, s.ahead = t :: ts := by
  cases hahead : s.ahead with
  | cons u ts =>
    rw [hahead] at h
    exact ⟨ts, congrArg (· :: ts) (Option.some.inj h)⟩
  | nil =>
    rw [hahead] at h
    exact absurd (hlive.1 t h).1 ht

theorem exists_ahead (h : peek env s = .ok t s') (ht : t.kind ≠ .eof) (hlive : s'.Live) :
    ∃ ts, s'.ahead = t :: ts := ahead_of_next (next_of_peek h) ht hlive

end Looking

theorem Advancing.advance : Advancing advance := by
  intro env s
  have hpeek := Advancing.peek env s
  rw [← finalState_eq, advance_apply]
  rw [after] at hpeek
  cases h : peek env s with
  | error e s' =>
    rw [h] at hpeek
    exact hpeek
  | ok t s' =>
    rw [h] at hpeek
    dsimp only
    split
    · exact hpeek
    · rename_i hk
      have htake : Advances s' (s'.take t) := by
        refine ⟨List.suffix_rfl, Nat.le_succ _, fun heq => ?_, rfl, List.prefix_rfl,
          fun hl => ⟨hl, ?_⟩, fun hl => ?_⟩
        · exact absurd heq (Nat.succ_ne_self _)
        · obtain ⟨ts, hahead⟩ := exists_ahead h hk hl
          simp only [State.left, State.take, hahead, List.length_drop, List.length_cons]
          omega
        · obtain ⟨ts, hahead⟩ := exists_ahead h hk hl
          exact ⟨_, _, Trail.start.take hahead⟩
      exact hpeek.trans htake

end RecordView.Declaration
