import RecordView.Proofs.Condition.Relabel
import RecordView.Proofs.Reader.Advance
import RecordView.Proofs.Script.Relabel

/-! A reading and the same reading further down in a description: all that it does is the same, but
for the lines on which it happens. -/
namespace RecordView

def Warning.relabel (R : Relabeling) (w : Warning) : Warning :=
  { w with location := w.location.map R.place }

def Report.relabel (R : Relabeling) (r : Report) : Report :=
  { r with errors := r.errors.map (·.relabel R), warnings := r.warnings.map (·.relabel R) }

abbrev Halt.down (k : Nat) : Halt Diagnostic → Halt Diagnostic := Halt.map (·.relabel (.down k))

/-! ## The end of the stream -/

variable {ts : List Token} {s : State}

namespace Frames

/-- The end of the stream is drawn, or is left. -/
structure Draw.Reaches (d : Draw) : Prop where
  found : d.found ≠ .ok none
  ended : (∃ t, d.found = .ok (some t) ∧ t.kind = .eof) ∨ ∃ e ∈ d.rest, e.kind = .eof

theorem eof_mem_tail {t : Token} (ht : t.kind ≠ .eof) (h : ∃ e ∈ t :: ts, e.kind = .eof) :
    ∃ e ∈ ts, e.kind = .eof := by
  obtain ⟨e, hmem, he⟩ := h
  rcases List.mem_cons.mp hmem with rfl | hmem
  · exact absurd he ht
  · exact ⟨e, hmem, he⟩

theorem eof_mem_behindLine (h : ∃ e ∈ ts, e.kind = .eof) : ∃ e ∈ behindLine ts, e.kind = .eof := by
  obtain ⟨e, hmem, he⟩ := h
  rw [← List.takeWhile_append_dropWhile (p := inLine) (l := ts)] at hmem
  have hdrop : e ∈ ts.dropWhile inLine := by
    refine (List.mem_append.mp hmem).resolve_left fun hmem => ?_
    have hin := List.all_eq_true.mp List.all_takeWhile e hmem
    simp [inLine, he] at hin
  unfold behindLine
  split
  · rename_i hd
    simp [hd] at hdrop
  · rename_i t rest hd
    rw [hd] at hdrop
    split
    · exact ⟨e, hdrop, he⟩
    · rename_i ht
      exact eof_mem_tail ht ⟨e, hdrop, he⟩

theorem Draws.reaches {flags : Scope} {sourceLine : Int → String} {fs : Frames} {d : Draw}
    (h : Draws flags sourceLine fs ts d) (hts : ∃ e ∈ ts, e.kind = .eof) : d.Reaches := by
  induction h with
  | nil =>
    obtain ⟨e, hmem, -⟩ := hts
    cases hmem
  | eof fs ht ts =>
    refine ⟨?_, .inl ⟨_, finish_found fs _, ht⟩⟩
    rw [finish_found]
    simp
  | seen ht | failed ht => exact ⟨by simp, .inr (eof_mem_tail ht hts)⟩
  | skipped ht _ _ _ ih => exact ih (eof_mem_tail ht hts)
  | line ht _ _ _ ih =>
    have hreaches := ih (eof_mem_behindLine (eof_mem_tail ht hts))
    exact ⟨hreaches.found, hreaches.ended⟩

end Frames

namespace Declaration
open Reader

/-- Nothing is known of the lines of the description. -/
def Env.blank (env : Env) : Env := ⟨env.padding, Frames.blankLine⟩

def State.down (k : Nat) (s : State) : State :=
  { s with
    unread := s.unread.map (·.down k)
    frames := s.frames.relabel (.down k)
    ahead := s.ahead.map (·.down k)
    eof := s.eof.map (·.down k)
    last := s.last.map (·.down k)
    registry := s.registry.relabel (.down k)
    script := s.script.relabel (.down k)
    report := s.report.relabel (.down k)
    notes := s.notes.map (·.relabel (.down k)) }

def relocate {α : Type} (k : Nat) (v : α → α) :
    EStateM.Result (Halt Diagnostic) State α → EStateM.Result (Halt Diagnostic) State α
  | .ok a s => .ok (v a) (s.down k)
  | .error e s => .error (e.down k) (s.down k)

/-- The end of the input has been drawn, or is still to come. -/
def State.Ended (s : State) : Prop := s.eof.isSome = true ∨ ∃ e ∈ s.unread, e.kind = .eof

def KeepsEnd {α : Type} (m : Reader α) : Prop := Along (fun s s' => s.Ended → s'.Ended) m

theorem isPath_ended : IsPath fun s s' : State => s.Ended → s'.Ended :=
  ⟨fun _ hs => hs, fun h h' hs => h' (h hs)⟩

/-- The second reading does further down what the first one does. -/
structure Moves {α : Type} (k : Nat) (v : α → α) (m m' : Reader α) : Prop where
  ends : KeepsEnd m
  eq : ∀ (env : Env) (s : State), s.Ended → m' env.blank (s.down k) = relocate k v (m env s)

variable {k : Nat}

/-! ## Combinators -/

section Combinators

variable {α β : Type} {v : α → α} {w : β → β} {m m' : Reader α} {f f' : α → Reader β}

theorem Moves.result {a a' : α} (h : a' = v a) : Moves k v (pure a) (pure a') := by
  subst h
  exact ⟨fun _ _ hs => hs, fun _ _ _ => rfl⟩

theorem Moves.pure (a : α) : Moves k v (pure a) (pure (v a)) := .result rfl

theorem Moves.throw (e : Halt Diagnostic) : Moves k v (throw e) (throw (e.down k)) :=
  ⟨fun _ _ hs => hs, fun _ _ _ => rfl⟩

theorem Moves.bind (hm : Moves k v m m') (hf : ∀ a, Moves k w (f a) (f' (v a))) :
    Moves k w (m >>= f) (m' >>= f') := by
  refine ⟨Along.bind isPath_ended hm.ends fun a => (hf a).ends, fun env s hs => ?_⟩
  rw [bind_apply, bind_apply, hm.eq env s hs]
  cases h : m env s with
  | error e s₁ => rfl
  | ok a s₁ => exact (hf a).eq env s₁ (hm.ends.of_ok h hs)

theorem Moves.ite {c : Prop} [Decidable c] {n n' : Reader α} (hm : Moves k v m m')
    (hn : Moves k v n n') : Moves k v (if c then m else n) (if c then m' else n') := by
  split
  · exact hm
  · exact hn

theorem Moves.get {g g' : State → Reader α} (h : ∀ s, s.Ended → Moves k v (g s) (g' (s.down k))) :
    Moves k v (get >>= g) (get >>= g') :=
  ⟨fun env s hs => (h s hs).ends env s hs, fun env s hs => (h s hs).eq env s hs⟩

theorem Moves.read {g g' : Env → Reader α} (h : ∀ env, Moves k v (g env) (g' env.blank)) :
    Moves k v (MonadReader.read >>= g) (MonadReader.read >>= g') :=
  ⟨fun env s => (h env).ends env s, fun env s hs => (h env).eq env s hs⟩

theorem Moves.modify {g g' : State → State} (hended : ∀ s : State, s.Ended → (g s).Ended)
    (hg : ∀ s, g' (s.down k) = (g s).down k) : Moves k id (modify g : Reader PUnit) (modify g') := by
  refine ⟨fun _ s hs => hended s hs, fun env s _ => ?_⟩
  show EStateM.Result.ok _ (g' (s.down k)) = _
  rw [hg]
  rfl

protected theorem Moves.set {s' : State} (hs : s.Ended) (h : s' = s.down k) :
    Moves k id (set s : Reader PUnit) (set s') := by
  subst h
  exact ⟨fun _ _ _ => hs, fun _ _ _ => rfl⟩

end Combinators

theorem State.left_down (s : State) : (s.down k).left = s.left := by
  simp [State.left, State.down]

/-! ## Results -/

section Results

variable {α : Type} {v : α → α}

theorem Moves.fail (f : Failure) : Moves k v (fail f) (fail f) := .throw _

theorem Moves.orThrow {x x' : Except (Halt Diagnostic) α}
    (h : x' = (x.mapError (·.down k)).map v) : Moves k v (orThrow x) (orThrow x') := by
  subst h
  cases x with
  | ok a => exact .pure a
  | error e => exact .throw e

protected theorem Moves.log (n : Note) : Moves k id (log n) (log (n.relabel (.down k))) := by
  have hwritable : (n.relabel (.down k)).writable = n.writable := by
    cases n <;> rfl
  simp only [log, hwritable]
  refine .ite (.modify (fun _ hs => hs) fun s => ?_) (.fail _)
  simp only [State.down, List.map_append]
  rfl

theorem Report.add_relabel {R : Relabeling} (r : Report) (d : Diagnostic) :
    (r.add d).relabel R = (r.relabel R).add (d.relabel R) := by
  simp only [Report.relabel, Report.add, List.map_append]
  rfl

theorem Moves.report (location : Location) (p : Problem) :
    Moves k id (report location p)
      (report ((Relabeling.down k).place location) (p.relabel (.down k))) := by
  refine .read fun env => .modify (fun _ hs => hs) fun s => ?_
  simp only [State.down, Report.add_relabel]
  rfl

theorem Moves.record (d : Diagnostic) (t : Token) :
    Moves k id (record d t) (record (d.relabel (.down k)) (t.down k)) := by
  refine .read fun env => .modify (fun _ hs => hs) fun s => ?_
  obtain ⟨p, location, line⟩ := d
  simp only [State.down, Report.add_relabel]
  cases location <;> cases line <;> rfl

end Results

/-! ## Tokens -/

theorem State.draw_down (env : Env) (s : State) :
    (s.down k).draw env.blank = (s.draw env).relabel (.down k) :=
  (Frames.draws _ _ _ _).relabel

theorem State.drawn_down (s : State) (d : Frames.Draw) :
    (s.down k).drawn (d.relabel (.down k)) = (s.drawn d).down k := by
  simp only [State.drawn, State.down, Report.relabel, Report.addAll, List.map_append]
  rfl

theorem State.receive_down (s : State) (t : Token) :
    (s.down k).receive (some (t.down k)) = (s.receive (some t)).down k := by
  by_cases ht : t.kind = .eof
  · rw [receive_ended ht, receive_ended (by exact ht)]
    rfl
  · rw [receive_seen ht, receive_seen (by exact ht)]
    simp only [State.down, List.map_append]
    rfl

theorem State.Ended.reaches (hs : s.Ended) (heof : s.eof.isNone = true) (env : Env) :
    (s.draw env).Reaches := by
  rcases hs with h | h
  · rw [Option.isNone_iff_eq_none] at heof
    rw [heof] at h
    cases h
  · exact (Frames.draws _ _ s.frames s.unread).reaches h

theorem State.ended_receive {env : Env} {t : Token} (hfound : (s.draw env).found = .ok (some t))
    (h : (s.draw env).Reaches) : ((s.drawn (s.draw env)).receive (some t)).Ended := by
  by_cases ht : t.kind = .eof
  · rw [receive_ended ht]
    exact .inl rfl
  · rw [receive_seen ht]
    rcases h.ended with ⟨t', hfound', ht'⟩ | hrest
    · rw [hfound] at hfound'
      cases hfound'
      exact absurd ht' ht
    · exact .inr hrest

theorem keepsEnd_draw (n : Nat) : KeepsEnd (Reader.draw n) := by
  intro env s hs
  rw [← finalState_eq, draw_apply]
  split
  · rename_i hcond
    have hreaches := hs.reaches hcond.2 env
    rw [State.drawNext]
    cases hfound : (s.draw env).found with
    | error f =>
      rcases hreaches.ended with ⟨t, ht, -⟩ | hrest
      · rw [hfound] at ht
        cases ht
      · exact .inr hrest
    | ok o =>
      cases o with
      | none => exact absurd hfound hreaches.found
      | some t => exact State.ended_receive hfound hreaches
  · exact hs

theorem Moves.draw (n : Nat) : Moves k id (Reader.draw n) (Reader.draw n) := by
  refine ⟨keepsEnd_draw n, fun env s hs => ?_⟩
  have hahead : (s.down k).ahead.length = s.ahead.length := List.length_map _
  have heof : (s.down k).eof.isNone = s.eof.isNone := Option.isNone_map
  rw [draw_apply, draw_apply, hahead, heof]
  split
  · rename_i hcond
    have hreaches := hs.reaches hcond.2 env
    have hfound' : ((s.draw env).relabel (.down k)).found =
      (s.draw env).found.map (·.map (·.down k)) := rfl
    rw [State.drawNext, State.drawNext, State.draw_down, State.drawn_down, hfound']
    cases hfound : (s.draw env).found with
    | error f => rfl
    | ok o =>
      cases o with
      | none => exact absurd hfound hreaches.found
      | some t => exact congrArg (EStateM.Result.ok ()) (State.receive_down _ t)
  · rfl

/-- The token at a place ahead, where there is one or the end. -/
theorem ahead_down {n : Nat} (h : (s.ahead[n]? <|> s.eof).isSome = true) (env : Env) :
    ahead n env.blank (s.down k) = relocate k (Token.down k) (ahead n env s) := by
  have hahead : (s.down k).ahead[n]? = s.ahead[n]?.map (·.down k) := List.getElem?_map
  show EStateM.Result.ok (((s.down k).ahead[n]? <|> (s.down k).eof).getD endOfStream) _ =
    .ok (Token.down k ((s.ahead[n]? <|> s.eof).getD endOfStream)) _
  rw [hahead]
  cases hn : s.ahead[n]? with
  | some t => rfl
  | none =>
    rw [hn] at h
    cases he : s.eof with
    | some e =>
      show EStateM.Result.ok ((s.eof.map (Token.down k)).getD endOfStream) _ = _
      rw [he]
      rfl
    | none =>
      rw [he] at h
      cases h

/-- After a token was drawn there is one ahead, or the end. -/
theorem isSome_of_draw {n : Nat} {env : Env} {s' : State} (hs : s.Ended)
    (hn : n ≤ s.ahead.length ∨ s.eof.isSome = true) (h : Reader.draw n env s = .ok () s') :
    (s'.ahead[n]? <|> s'.eof).isSome = true := by
  rw [draw_apply] at h
  split at h
  · rename_i hcond
    obtain ⟨hle, heof⟩ := hcond
    have hreaches := hs.reaches heof env
    obtain ⟨o, hfound, rfl⟩ := found_of_drawNext h
    cases o with
    | none => exact absurd hfound hreaches.found
    | some t =>
      by_cases ht : t.kind = .eof
      · rw [receive_ended ht]
        cases ((s.drawn (s.draw env)).ahead)[n]? <;> rfl
      · have hlength : s.ahead.length = n := by
          rcases hn with hn | hn
          · omega
          · rw [Option.isNone_iff_eq_none] at heof
            rw [heof] at hn
            cases hn
        have hget : (s.ahead ++ [t])[n]? = some t := by
          rw [← hlength]
          exact List.getElem?_concat_length
        rw [receive_seen ht]
        show ((s.ahead ++ [t])[n]? <|> _).isSome = true
        rw [hget]
        rfl
  · rename_i hcond
    cases h
    by_cases hlt : n < s.ahead.length
    · rw [List.getElem?_eq_getElem hlt]
      rfl
    · cases he : s.eof with
      | none => exact absurd ⟨Nat.not_lt.mp hlt, by rw [he]; rfl⟩ hcond
      | some e => cases s.ahead[n]? <;> rfl

/-- A token that is looked at once it has been drawn. -/
theorem draw_ahead_down {n : Nat} {env : Env} (hs : s.Ended)
    (hn : n ≤ s.ahead.length ∨ s.eof.isSome = true) :
    (Reader.draw n >>= fun _ => ahead n) env.blank (s.down k) =
      relocate k (Token.down k) ((Reader.draw n >>= fun _ => ahead n) env s) := by
  rw [bind_apply, bind_apply, (Moves.draw n).eq env s hs]
  cases h : Reader.draw n env s with
  | error e s₁ => rfl
  | ok a s₁ => exact ahead_down (isSome_of_draw hs hn h) env

theorem keepsEnd_ahead (n : Nat) : KeepsEnd (ahead n) := fun _ _ hs => hs

theorem Moves.peek : Moves k (Token.down k) peek peek :=
  ⟨Along.bind isPath_ended (keepsEnd_draw 0) fun _ => keepsEnd_ahead 0,
    fun _ _ hs => draw_ahead_down hs (.inl (Nat.zero_le _))⟩

theorem Moves.peekSecond : Moves k (Token.down k) peekSecond peekSecond := by
  refine ⟨Along.bind isPath_ended (keepsEnd_draw 0) fun _ =>
    Along.bind isPath_ended (keepsEnd_draw 1) fun _ => keepsEnd_ahead 1, fun env s hs => ?_⟩
  show (Reader.draw 0 >>= fun _ => Reader.draw 1 >>= fun _ => ahead 1) _ _ =
    relocate k _ ((Reader.draw 0 >>= fun _ => Reader.draw 1 >>= fun _ => ahead 1) env s)
  rw [bind_apply, bind_apply, (Moves.draw 0).eq env s hs]
  cases h : Reader.draw 0 env s with
  | error e s₁ => rfl
  | ok a s₁ =>
    refine draw_ahead_down ((keepsEnd_draw 0).of_ok h hs) ?_
    have hsome := isSome_of_draw hs (.inl (Nat.zero_le _)) h
    cases hahead : s₁.ahead with
    | cons t ts => exact .inl (by simp)
    | nil =>
      rw [hahead] at hsome
      exact .inr hsome

theorem Moves.advance : Moves k (Token.down k) advance advance := by
  refine .bind .peek fun t => ?_
  refine .ite (.bind (v := id) (.modify (fun _ hs => hs) fun s => ?_) fun _ => .pure t)
    (.pure t)
  simp only [State.down, List.map_drop]
  rfl

end Declaration
end RecordView
