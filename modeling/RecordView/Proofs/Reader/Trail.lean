import RecordView.Proofs.Condition.Drawing
import RecordView.Proofs.Reader.Steps

/-! The stream of a reading: tokens are drawn through the conditions and taken in the order in which
they were drawn, each of them once. -/
namespace RecordView.Declaration
open Reader

def finalState {α : Type} : EStateM.Result (Halt Diagnostic) State α → State
  | .ok _ s => s
  | .error _ s => s

theorem finalState_eq {α : Type} (m : Reader α) (env : Env) (s : State) :
    finalState (m env s) = after m env s := by
  unfold after
  cases m env s <;> rfl

/-- The state after a drawing, before what was drawn is put anywhere. -/
def State.drawn (s : State) (d : Frames.Draw) : State :=
  { s with
    unread := d.rest
    frames := d.frames
    report := s.report.addAll d.errors
    notes := s.notes ++ d.notes }

/-- Puts what was drawn where it is looked for. -/
def State.receive (s : State) : Option Token → State
  | some t => if t.kind = .eof then { s with eof := some t } else { s with ahead := s.ahead ++ [t] }
  | none => { s with eof := some endOfStream }

def State.draw (env : Env) (s : State) : Frames.Draw :=
  Frames.draw s.settings.flags env.sourceLine s.frames s.unread

theorem receive_ended {t : Token} (h : t.kind = .eof) (s : State) :
    s.receive (some t) = { s with eof := some t } := if_pos h

theorem receive_seen {t : Token} (h : t.kind ≠ .eof) (s : State) :
    s.receive (some t) = { s with ahead := s.ahead ++ [t] } := if_neg h

/-- What was drawn goes to the tokens ahead or to the end, and nothing else is touched. -/
theorem receive_eq (o : Option Token) : ∃ ts e, ∀ s : State,
    s.receive o = { s with ahead := s.ahead ++ ts, eof := e <|> s.eof } := by
  cases o with
  | none => exact ⟨[], some endOfStream, fun s => by simp [State.receive]⟩
  | some t =>
    by_cases h : t.kind = .eof
    · exact ⟨[], some t, fun s => by simp [receive_ended h]⟩
    · exact ⟨[t], none, fun s => receive_seen h s⟩

def State.drawNext (env : Env) (s : State) : EStateM.Result (Halt Diagnostic) State Unit :=
  match (s.draw env).found with
  | .error f => .error (.failed f) (s.drawn (s.draw env))
  | .ok o => .ok () ((s.drawn (s.draw env)).receive o)

theorem found_of_drawNext {s s' : State} {env : Env} (h : s.drawNext env = .ok () s') :
    ∃ o, (s.draw env).found = .ok o ∧ (s.drawn (s.draw env)).receive o = s' := by
  unfold State.drawNext at h
  split at h
  · cases h
  · cases h
    exact ⟨_, by assumption, rfl⟩

/-- A drawing touches only the place in the stream and what the conditions report. -/
theorem finalState_drawNext (env : Env) (s : State) : ∃ ts e,
    finalState (s.drawNext env) = { s.drawn (s.draw env) with ahead := ts, eof := e } := by
  unfold State.drawNext
  cases (s.draw env).found with
  | error f => exact ⟨_, _, rfl⟩
  | ok o =>
    obtain ⟨ts, e, hreceive⟩ := receive_eq o
    exact ⟨_, _, hreceive _⟩

def State.take (s : State) (t : Token) : State :=
  { s with ahead := s.ahead.drop 1, taken := s.taken + 1, last := some t }

/-! ## Trails -/

/-- What a drawing lets through: one token, or nothing where the input ends or the drawing fails. -/
def passed (d : Frames.Draw) : List Token :=
  match d.found with
  | .ok (some t) => if t.kind = .eof then [] else [t]
  | _ => []

def State.stream (s : State) : List Token × Frames × List Token × Option Token × Nat :=
  (s.unread, s.frames, s.ahead, s.eof, s.taken)

/-- What can happen to the stream between two states, with the tokens that pass the conditions on the
way and the tokens that are taken. Each token is drawn under the settings of its moment, the token
taken is the one that was drawn first, and nothing else touches the stream. -/
inductive Trail (s : State) : List Token → List Token → State → Prop where
  | start : Trail s [] [] s
  | draw {drawn taken : List Token} {s' : State} (env : Env) (h : Trail s drawn taken s')
      (going : s'.eof = none) :
      Trail s (drawn ++ passed (s'.draw env)) taken (finalState (s'.drawNext env))
  | take {drawn taken ts : List Token} {s' : State} {t : Token} (h : Trail s drawn taken s')
      (ahead : s'.ahead = t :: ts) : Trail s drawn (taken ++ [t]) (s'.take t)
  | stay {drawn taken : List Token} {s' s'' : State} (h : Trail s drawn taken s')
      (same : s''.stream = s'.stream) : Trail s drawn taken s''

namespace Trail

variable {s s' s'' : State} {drawn taken drawn' taken' : List Token}

theorem trans (h : Trail s drawn taken s') (h' : Trail s' drawn' taken' s'') :
    Trail s (drawn ++ drawn') (taken ++ taken') s'' := by
  induction h' with
  | start => rwa [List.append_nil, List.append_nil]
  | draw env _ going ih =>
    rw [← List.append_assoc]
    exact ih.draw env going
  | take _ ahead ih =>
    rw [← List.append_assoc]
    exact ih.take ahead
  | stay _ same ih => exact ih.stay same

/-- What is drawn goes behind what is ahead. -/
theorem ahead_drawNext (env : Env) (s : State) :
    (finalState (s.drawNext env)).ahead = s.ahead ++ passed (s.draw env) := by
  unfold State.drawNext passed
  cases (s.draw env).found with
  | error f => exact (List.append_nil _).symm
  | ok o =>
    cases o with
    | none => exact (List.append_nil _).symm
    | some t =>
      show ((s.drawn _).receive (some t)).ahead = s.ahead ++ if t.kind = .eof then [] else [t]
      by_cases hkind : t.kind = .eof
      · rw [receive_ended hkind, if_pos hkind]
        exact (List.append_nil _).symm
      · rw [receive_seen hkind, if_neg hkind]
        rfl

theorem taken_drawNext (env : Env) (s : State) : (finalState (s.drawNext env)).taken = s.taken := by
  obtain ⟨ts, e, hdraw⟩ := finalState_drawNext env s
  rw [hdraw]
  rfl

/-- What a drawing lets through is no end, and comes from the stream. -/
theorem mem_passed {env : Env} {t : Token} (ht : t ∈ passed (s.draw env)) :
    t.kind ≠ .eof ∧ t ∈ s.unread := by
  unfold passed at ht
  split at ht
  · rename_i v hfound
    split at ht
    · cases ht
    · rename_i hkind
      obtain rfl := List.mem_singleton.mp ht
      obtain ⟨-, c, hunread, -⟩ := (Frames.draws _ _ _ _).seen_append hfound hkind
      refine ⟨hkind, ?_⟩
      rw [hunread]
      simp
  · cases ht

/-- What is ahead or unread after a drawing was so before it. -/
theorem subset_drawNext (env : Env) (s : State) :
    (finalState (s.drawNext env)).ahead ++ (finalState (s.drawNext env)).unread ⊆
      s.ahead ++ s.unread := by
  have hrest : (s.draw env).rest <:+ s.unread := (Frames.draws _ _ _ _).rest_suffix
  obtain ⟨ts, e, hdraw⟩ := finalState_drawNext env s
  have hunread : (finalState (s.drawNext env)).unread = (s.draw env).rest := by rw [hdraw]; rfl
  rw [ahead_drawNext, hunread, List.append_assoc]
  intro t ht
  simp only [List.mem_append] at ht ⊢
  rcases ht with ht | ht | ht
  · exact .inl ht
  · exact .inr (mem_passed ht).2
  · exact .inr (hrest.subset ht)

/-- Nothing is ahead or unread that was not so before. -/
theorem subset (h : Trail s drawn taken s') : s'.ahead ++ s'.unread ⊆ s.ahead ++ s.unread := by
  induction h with
  | start => exact fun _ h => h
  | draw env _ _ ih => exact fun t ht => ih (subset_drawNext env _ ht)
  | take _ ahead ih =>
    intro t ht
    rcases List.mem_append.mp ht with ht | ht
    · exact ih (List.mem_append_left _ (List.mem_of_mem_drop ht))
    · exact ih (List.mem_append_right _ ht)
  | stay _ same ih =>
    simp only [State.stream, Prod.mk.injEq] at same
    rwa [same.1, same.2.2.1]

/-- Tokens are taken in the order in which they were drawn, and what was not taken is ahead. -/
theorem ahead_append (h : Trail s drawn taken s') : s.ahead ++ drawn = taken ++ s'.ahead := by
  induction h with
  | start => simp
  | draw env _ going ih => rw [ahead_drawNext, ← List.append_assoc, ih, List.append_assoc]
  | @take drawn taken ts s' t _ ahead ih => simp [State.take, ih, ahead]
  | @stay drawn taken s' s'' _ same ih =>
    have hahead : s''.ahead = s'.ahead := congrArg (·.2.2.1) same
    rw [hahead, ih]

theorem taken_eq (h : Trail s drawn taken s') : s'.taken = s.taken + taken.length := by
  induction h with
  | start => rfl
  | draw env _ going ih => rw [taken_drawNext, ih]
  | take _ ahead ih =>
    simp only [State.take, ih, List.length_append, List.length_singleton]
    omega
  | @stay drawn taken s' s'' _ same ih =>
    have htaken : s''.taken = s'.taken := congrArg (·.2.2.2.2) same
    rw [htaken, ih]

/-- The end of the input does not pass as a token. -/
theorem kind_ne_eof (h : Trail s drawn taken s') : ∀ t ∈ drawn, t.kind ≠ .eof := by
  induction h with
  | start => nofun
  | @draw drawn taken s' env _ going ih =>
    intro t ht
    obtain ht | ht := List.mem_append.mp ht
    · exact ih t ht
    · exact (mem_passed ht).1
  | take _ ahead ih => exact ih
  | stay _ same ih => exact ih

end Trail
end RecordView.Declaration
