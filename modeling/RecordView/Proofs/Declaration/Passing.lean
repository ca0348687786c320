import RecordView.Proofs.Declaration.Pragma

/-! Tokens that come next, one after another, are passed in this order: a loop that only takes them goes
on behind them. -/
namespace RecordView.Declaration
open Reader

variable {α β : Type} {env : Env} {s s' : State} {t v : Token} {ts us post : List Token}

/-! ## What comes next -/

/-- The tokens `ts` come next, whether they were looked at or not, and `post` is behind them. -/
structure State.Faces (s : State) (ts post : List Token) : Prop where
  plain : ∀ t ∈ ts, Plain t
  stream : s.ahead ++ s.unread = ts ++ post
  live : s.Live

/-- The state when as many tokens as `ts` has were taken, `ts` being those that come next. -/
def State.past (s : State) (ts : List Token) : State :=
  { s with
    ahead := s.ahead.drop ts.length
    unread := s.unread.drop (ts.length - s.ahead.length)
    taken := s.taken + ts.length
    last := ts.getLast?.or s.last }

theorem past_nil (s : State) : s.past [] = s := by simp [State.past]

theorem past_append (s : State) (ts us : List Token) : s.past (ts ++ us) = (s.past ts).past us := by
  have hlength : ts.length + us.length - s.ahead.length =
      (ts.length - s.ahead.length) + (us.length - (s.ahead.length - ts.length)) := by omega
  simp [State.past, hlength, Nat.add_assoc, List.getLast?_append, Option.or_assoc]

theorem past_cons (s : State) (t : Token) (ts : List Token) : s.past (t :: ts) = (s.past [t]).past ts :=
  past_append s [t] ts

theorem live_past (h : s.Live) (ts : List Token) : (s.past ts).Live := by
  refine ⟨fun e he => ?_, h.2⟩
  obtain ⟨hkind, hunread⟩ := h.1 e he
  exact ⟨hkind, by simp [State.past, hunread]⟩

namespace State.Faces

theorem of_append (h : s.Faces (ts ++ us) post) : s.Faces ts (us ++ post) :=
  ⟨fun t ht => h.plain t (List.mem_append_left us ht), by rw [h.stream, List.append_assoc], h.live⟩

theorem past (h : s.Faces (ts ++ us) post) : (s.past ts).Faces us post := by
  have hstream : (s.ahead ++ s.unread).drop ts.length = us ++ post := by
    rw [h.stream, List.append_assoc, List.drop_left]
  rw [List.drop_append] at hstream
  exact ⟨fun t ht => h.plain t (List.mem_append_right ts ht), hstream, live_past h.live ts⟩

theorem past_cons (h : s.Faces (t :: ts) post) : (s.past [t]).Faces ts post := by
  rw [← List.singleton_append] at h
  exact h.past

/-- Behind all that was looked at, nothing is ahead. -/
theorem past_eq (h : s.Faces ts post) (hahead : s.ahead.length ≤ ts.length) :
    s.past ts = { s with
      ahead := [], unread := post, taken := s.taken + ts.length, last := ts.getLast?.or s.last } := by
  have hnil : s.ahead.drop ts.length = [] := List.drop_eq_nil_of_le hahead
  have hstream : s.ahead.drop ts.length ++ s.unread.drop (ts.length - s.ahead.length) = post := by
    rw [← List.drop_append, h.stream, List.drop_left]
  rw [hnil, List.nil_append] at hstream
  rw [State.past, hnil, hstream]

theorem ne_eof (h : s.Faces (t :: ts) post) : t.kind ≠ .eof := (h.plain t List.mem_cons_self).1

theorem left_eq (h : s.Faces ts post) : s.left = ts.length + post.length := by
  rw [State.left, ← List.length_append, h.stream, List.length_append]

/-- Where the tokens `ts` were looked at, the next one is looked at as well, and this changes nothing
behind it. -/
theorem draw (env : Env) (ts : List Token) (h : s.Faces (ts ++ v :: us) post) (hahead : ts.length ≤ s.ahead.length) :
    ∃ s', Reader.draw ts.length env s = .ok () s' ∧ s'.Faces (ts ++ v :: us) post ∧
      s'.ahead[ts.length]? = some v ∧ s' = { s with ahead := s'.ahead, unread := s'.unread } ∧
      ∀ vs, s'.past (ts ++ v :: vs) = s.past (ts ++ v :: vs) := by
  have hnext {s' : State} (hs' : s'.Faces (ts ++ v :: us) post) (hlt : ts.length < s'.ahead.length) :
      s'.ahead[ts.length]? = some v := by
    have hstream : (s'.ahead ++ s'.unread)[ts.length]? = some v := by
      rw [hs'.stream]
      simp
    rwa [List.getElem?_append_left hlt] at hstream
  by_cases hlt : ts.length < s.ahead.length
  · refine ⟨s, ?_, h, hnext h hlt, rfl, fun _ => rfl⟩
    rw [draw_apply, if_neg (by omega)]
  · have hstream := h.stream
    rw [List.append_assoc] at hstream
    obtain ⟨hts, hunread⟩ := List.append_inj hstream (by omega)
    have hv : Plain v := h.plain v (by simp)
    -- something is left to draw, so the end has not been drawn
    have heof : s.eof = none := by
      cases heof : s.eof with
      | none => rfl
      | some e =>
        have hnil := (h.live.1 e heof).2
        rw [hunread] at hnil
        cases hnil
    have hactive : s.frames.active = true := h.live.2 heof
    have hdraw : s.draw env = ⟨.ok (some v), us ++ post, s.frames, [], []⟩ := by
      rw [State.draw, hunread, List.cons_append, Frames.draw_plain_cons hv.1 hv.2, if_pos hactive]
    have hlive : State.Live { s with unread := us ++ post, ahead := s.ahead ++ [v] } := by
      refine ⟨fun e he => ?_, fun _ => hactive⟩
      rw [show s.eof = some e from he] at heof
      cases heof
    have hfaces : State.Faces { s with unread := us ++ post, ahead := s.ahead ++ [v] }
        (ts ++ v :: us) post := ⟨h.plain, by simp [hts], hlive⟩
    refine ⟨{ s with unread := us ++ post, ahead := s.ahead ++ [v] }, ?_, hfaces, hnext hfaces ?_, rfl,
      fun vs => ?_⟩
    · rw [draw_apply, if_pos ⟨by omega, by rw [heof]; rfl⟩, State.drawNext, hdraw]
      dsimp only
      rw [receive_seen hv.1]
      simp [State.drawn, Report.addAll]
    · simp [hts]
    · have hlength : ts.length + (vs.length + 1) - (ts.length + 1) = vs.length := by omega
      simp [State.past, hts, hunread, hlength]

/-- The first of the tokens is the next one. -/
theorem peek (env : Env) (h : s.Faces (t :: ts) post) :
    ∃ s', Reader.peek env s = .ok t s' ∧ s'.Faces (t :: ts) post ∧
      s' = { s with ahead := s'.ahead, unread := s'.unread } ∧
      ∀ us, s'.past (t :: us) = s.past (t :: us) := by
  obtain ⟨s', hdraw, hs', hnext, hsame, hpast⟩ := draw env [] h (Nat.zero_le _)
  have hfirst : (s'.ahead[0]? <|> s'.eof).getD endOfStream = t := by
    rw [show s'.ahead[0]? = some t from hnext]
    rfl
  refine ⟨s', bind_ok.mpr ⟨(), s', hdraw, ?_⟩, hs', hsame, hpast⟩
  show EStateM.Result.ok _ s' = _
  rw [hfirst]

theorem peekSecond (env : Env) (h : s.Faces (t :: v :: us) post) :
    ∃ s', Reader.peekSecond env s = .ok v s' ∧ s'.Faces (t :: v :: us) post ∧
      ∀ vs, s'.past (t :: v :: vs) = s.past (t :: v :: vs) := by
  obtain ⟨s₁, hdraw₁, hs₁, hnext₁, -, hpast₁⟩ := draw env [] h (Nat.zero_le _)
  have hlt : 0 < s₁.ahead.length := (List.getElem?_eq_some_iff.mp hnext₁).1
  obtain ⟨s₂, hdraw₂, hs₂, hnext₂, -, hpast₂⟩ := draw env [t] hs₁ hlt
  have hsecond : (s₂.ahead[1]? <|> s₂.eof).getD endOfStream = v := by
    rw [show s₂.ahead[1]? = some v from hnext₂]
    rfl
  refine ⟨s₂, bind_ok.mpr ⟨(), s₁, hdraw₁, bind_ok.mpr ⟨(), s₂, hdraw₂, ?_⟩⟩, hs₂,
    fun vs => (hpast₂ vs).trans (hpast₁ (v :: vs))⟩
  show EStateM.Result.ok _ s₂ = _
  rw [hsecond]

theorem take_eq (hahead : s.ahead = t :: us) : s.take t = s.past [t] := by
  simp [State.take, State.past, hahead]

/-- The first of the tokens is taken. -/
theorem advance (h : s.Faces (t :: ts) post) : Reader.advance env s = .ok t (s.past [t]) := by
  obtain ⟨s', hpeek, hs', -, hpast⟩ := h.peek env
  obtain ⟨vs, hahead⟩ := exists_ahead hpeek h.ne_eof hs'.live
  rw [advance_apply, hpeek]
  dsimp only
  rw [if_neg h.ne_eof, take_eq hahead, hpast]

end State.Faces

/-! ## Loops -/

/-- A loop whose round takes the next token and goes on does so behind that token. -/
theorem rounds_past {step : β → Reader (Round β α)} {b b' : β} (h : s.Faces (t :: ts) post)
    (hround : step b env s = .ok (.again b') (s.past [t])) :
    rounds step b env s = rounds step b' env (s.past [t]) := by
  have hleft : (s.past [t]).left < s.left := by
    rw [h.left_eq, h.past_cons.left_eq, List.length_cons]
    omega
  rw [rounds, hround]
  dsimp only
  rw [if_pos hleft]

end RecordView.Declaration
