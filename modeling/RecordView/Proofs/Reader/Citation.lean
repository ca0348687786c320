import RecordView.Proofs.Declaration.Comparison
import RecordView.Proofs.Reader.Relocation

/-! Where errors point to: what it is for a reading that all places in it are those of tokens, and that an
error quotes the line of its place. -/
namespace RecordView

variable {P : Location → Prop}

/-- The place has the property, and the line of the place is quoted. -/
def Diagnostic.Cites (sourceLine : Int → String) (P : Location → Prop) (d : Diagnostic) : Prop :=
  ∃ l, P l ∧ d.location = some l ∧ d.line = some (sourceLine l.line)

/-- If there is a place, it has the property. The line is still to be quoted. -/
structure Diagnostic.Points (P : Location → Prop) (d : Diagnostic) : Prop where
  line : d.line = none
  location : ∀ l, d.location = some l → P l

theorem Diagnostic.Points.here {l : Location} (p : Problem) (hl : P l) :
    Points P ⟨p, some l, none⟩ :=
  ⟨rfl, fun _ h => Option.some.inj h ▸ hl⟩

theorem Diagnostic.Points.nowhere (p : Problem) : Points P ⟨p, none, none⟩ :=
  ⟨rfl, fun _ h => by cases h⟩

/-! ## Conditions -/

namespace Frames

variable {flags : Scope} {sourceLine : Int → String} {fs : Frames} {t : Token} {ts : List Token}

/-- What is drawn stands where the tokens do, and so do the errors. -/
structure Draw.Sourced (sourceLine : Int → String) (P : Location → Prop) (d : Draw) : Prop where
  found : ∀ t, d.found = .ok (some t) → P t.location
  rest : ∀ t ∈ d.rest, P t.location
  frames : ∀ f ∈ d.frames, P f.location
  errors : ∀ x ∈ d.errors, x.Cites sourceLine P

theorem Draw.Sourced.after {d : Draw} {errors : List Diagnostic} (h : d.Sourced sourceLine P)
    (herrors : ∀ x ∈ errors, x.Cites sourceLine P) (notes : List Note) :
    (d.after errors notes).Sourced sourceLine P := by
  refine ⟨h.found, h.rest, h.frames, fun x hx => ?_⟩
  rcases List.mem_append.mp hx with hx | hx
  · exact herrors x hx
  · exact h.errors x hx

theorem sourced_finish (sourceLine : Int → String) (hfs : ∀ f ∈ fs, P f.location) (ht : P t.location) :
    (finish sourceLine fs t).Sourced sourceLine P := by
  have hfound (u : Token) (hu : (Except.ok (some t) : Except Failure (Option Token)) = .ok (some u)) :
      P u.location := by
    cases hu
    exact ht
  unfold finish
  split
  · exact ⟨hfound, by simp, by simp, by simp⟩
  · next f hf =>
    refine ⟨hfound, by simp, by simp, fun x hx => ?_⟩
    obtain rfl := List.mem_singleton.mp hx
    exact ⟨f.location, hfs f (List.mem_of_getLast? hf), rfl, rfl⟩

/-- A condition stands where its line does. -/
theorem location_of_line {word : ConditionWord} {body : List Token} {effect : Effect}
    (h : line flags fs word t body = .ok effect) (hfs : ∀ f ∈ fs, P f.location) (ht : P t.location) :
    ∀ f ∈ effect.frames, P f.location := by
  have hmoves := moves_line h
  generalize effect.frames = fs' at hmoves ⊢
  cases hmoves with
  | opens => exact List.forall_mem_cons.mpr ⟨ht, hfs⟩
  | turns top => exact List.forall_mem_cons.mpr (List.forall_mem_cons.mp (top ▸ hfs))
  | closes top => exact (List.forall_mem_cons.mp (top ▸ hfs)).2
  | keeps => exact hfs

theorem Draws.sourced {d : Draw} (h : Draws flags sourceLine fs ts d) (hfs : ∀ f ∈ fs, P f.location)
    (hts : ∀ t ∈ ts, P t.location) : d.Sourced sourceLine P := by
  induction h with
  | nil => exact ⟨fun _ h => (by cases h), by simp, hfs, by simp⟩
  | eof => exact sourced_finish _ hfs (hts _ List.mem_cons_self)
  | seen =>
    obtain ⟨hplace, hrest⟩ := List.forall_mem_cons.mp hts
    exact ⟨fun u hu => (by cases hu; exact hplace), hrest, hfs, by simp⟩
  | skipped _ _ _ _ ih => exact ih hfs (List.forall_mem_cons.mp hts).2
  | failed => exact ⟨fun _ h => (by cases h), (List.forall_mem_cons.mp hts).2, hfs, by simp⟩
  | @line fs t ts word effect d _ _ he _ ih =>
    obtain ⟨hplace, hrest⟩ := List.forall_mem_cons.mp hts
    have hnext := ih (location_of_line he hfs hplace) fun u hu => hrest u ((behindLine_suffix ts).subset hu)
    refine hnext.after (fun x hx => ?_) _
    obtain ⟨p, -, rfl⟩ := List.mem_map.mp hx
    exact ⟨t.location, hplace, rfl, rfl⟩

end Frames

namespace Declaration
open Reader

/-! ## States -/

/-- Tokens and open conditions have places with the property, the end of the input is among them, and all
errors but the first ones cite such places. -/
structure State.Sourced (env : Env) (P : Location → Prop) (first : List Diagnostic) (s : State) : Prop where
  unread : ∀ t ∈ s.unread, P t.location
  ahead : ∀ t ∈ s.ahead, P t.location
  eof : ∀ t, s.eof = some t → P t.location
  frames : ∀ f ∈ s.frames, P f.location
  ended : s.Ended
  errors : ∃ ds, s.report.errors = first ++ ds ∧ ∀ d ∈ ds, d.Cites env.sourceLine P

namespace State.Sourced

variable {env : Env} {first : List Diagnostic} {s s' : State}

/-- The invariant looks at nothing else of a state. -/
theorem congr (h : s.Sourced env P first) (hunread : s'.unread = s.unread) (hahead : s'.ahead = s.ahead)
    (heof : s'.eof = s.eof) (hframes : s'.frames = s.frames)
    (herrors : s'.report.errors = s.report.errors) : s'.Sourced env P first := by
  refine ⟨by rw [hunread]; exact h.unread, by rw [hahead]; exact h.ahead, by rw [heof]; exact h.eof,
    by rw [hframes]; exact h.frames, ?_, by rw [herrors]; exact h.errors⟩
  unfold Ended
  rw [heof, hunread]
  exact h.ended

theorem addAll (h : s.Sourced env P first) {ds : List Diagnostic}
    (hds : ∀ d ∈ ds, d.Cites env.sourceLine P) :
    { s with report := s.report.addAll ds }.Sourced env P first := by
  obtain ⟨es, heq, hes⟩ := h.errors
  refine ⟨h.unread, h.ahead, h.eof, h.frames, h.ended, es ++ ds, ?_, fun d hd => ?_⟩
  · show s.report.errors ++ ds = _
    rw [heq, List.append_assoc]
  · rcases List.mem_append.mp hd with hd | hd
    · exact hes d hd
    · exact hds d hd

theorem add (h : s.Sourced env P first) {d : Diagnostic} (hd : d.Cites env.sourceLine P) :
    { s with report := s.report.add d }.Sourced env P first :=
  h.addAll fun _ he => List.mem_singleton.mp he ▸ hd

/-- A token is drawn, and with it the errors on the way to it. -/
theorem receive (h : s.Sourced env P first) {d : Frames.Draw} (hd : d.Sourced env.sourceLine P) {t : Token}
    (ht : d.found = .ok (some t)) (hended : ((s.drawn d).receive (some t)).Ended) :
    ((s.drawn d).receive (some t)).Sourced env P first := by
  have herrors := (h.addAll hd.errors).errors
  by_cases hk : t.kind = .eof
  · rw [receive_ended hk] at hended ⊢
    exact ⟨hd.rest, h.ahead, fun u hu => Option.some.inj hu ▸ hd.found t ht, hd.frames, hended, herrors⟩
  · rw [receive_seen hk] at hended ⊢
    refine ⟨hd.rest, fun u hu => ?_, h.eof, hd.frames, hended, herrors⟩
    rcases List.mem_append.mp hu with hu | hu
    · exact h.ahead u hu
    · obtain rfl := List.mem_singleton.mp hu
      exact hd.found u ht

/-- The token that is looked at has a place with the property. -/
theorem looked (h : s.Sourced env P first) {n : Nat} (hsome : (s.ahead[n]? <|> s.eof).isSome = true) :
    P ((s.ahead[n]? <|> s.eof).getD endOfStream).location := by
  cases hn : s.ahead[n]? with
  | some t => exact h.ahead t (List.mem_of_getElem? hn)
  | none =>
    rw [hn] at hsome
    obtain ⟨t, ht⟩ := Option.isSome_iff_exists.mp hsome
    have heof : s.eof = some t := ht
    show P (s.eof.getD endOfStream).location
    rw [heof]
    exact h.eof t heof

end State.Sourced

/-! ## Readings -/

/-- What a reading keeps that points to the source only: where tokens stand, and what errors cite. -/
def sourcing (env : Env) (P : Location → Prop) (first : List Diagnostic) : Discipline where
  env := env
  keep := State.Sourced env P first
  fails _ _ := True
  refusal := Diagnostic.Points P
  place := P
  around _ := True
  draft d := P d.location
  value _ := True

section Tokens

variable {env : Env} {first : List Diagnostic} {t : Token}

theorem sourcing_log (n : Note) : (sourcing env P first).Holds (fun _ => True) (log n) :=
  .ite (.modify fun _ hs => hs.congr rfl rfl rfl rfl rfl) ⟨fun _ _ => trivial⟩

theorem sourcing_report {l : Location} (h : P l) (p : Problem) :
    (sourcing env P first).Holds (fun _ => True) (report l p) :=
  ⟨fun _ hs => ⟨hs.add ⟨l, h, rfl, rfl⟩, trivial⟩⟩

/-- A refusal without a place is recorded at the token where the statement starts. -/
theorem sourcing_record {d : Diagnostic} (hd : d.Points P) (ht : P t.location) :
    (sourcing env P first).Holds (fun _ => True) (record d t) := by
  constructor
  intro s hs
  have hplace : P (d.location.getD t.location) := by
    cases hl : d.location with
    | none => exact ht
    | some l => exact hd.location l hl
  refine ⟨hs.add ⟨d.location.getD t.location, hplace, ?_, ?_⟩, trivial⟩
  · cases hl : d.location <;> simp [Diagnostic.fill, hl]
  · simp [Diagnostic.fill, hd.line, sourcing]

theorem sourcing_draw (n : Nat) : (sourcing env P first).Holds (fun _ => True) (Reader.draw n) := by
  constructor
  intro s hs
  have hdraw := (Frames.draws s.settings.flags env.sourceLine _ _).sourced hs.frames hs.unread
  show Expected _ _ _ (Reader.draw n env s)
  rw [draw_apply]
  split
  · next hcond =>
    have hreaches := hs.ended.reaches hcond.2 env
    unfold State.drawNext
    cases hfound : (s.draw env).found with
    | error f => trivial
    | ok o =>
      cases o with
      | none => exact absurd hfound hreaches.found
      | some t => exact ⟨hs.receive hdraw hfound (State.ended_receive hfound hreaches), trivial⟩
  · exact ⟨hs, trivial⟩

theorem sourcing_peek : (sourcing env P first).Holds (fun t => P t.location) peek := by
  have hholds : (sourcing env P first).Holds (fun _ => True) (Reader.draw 0) := sourcing_draw 0
  constructor
  intro s hs
  have hdraw : Expected _ _ _ (Reader.draw 0 env s) := hholds.triple s hs
  show Expected _ _ _ (peek env s)
  rw [peek, bind_apply]
  cases hend : Reader.draw 0 env s with
  | error e s' =>
    rw [hend] at hdraw
    cases e <;> exact hdraw
  | ok a s' =>
    rw [hend] at hdraw
    exact ⟨hdraw.1, hdraw.1.looked (isSome_of_draw hs.ended (.inl (Nat.zero_le _)) hend)⟩

theorem sourcing_advance : (sourcing env P first).Holds (fun t => P t.location) advance := by
  refine sourcing_peek.bind fun t ht => .ite (.bind (.modify fun s hs => ?_) fun _ _ => .pure ht) (.pure ht)
  exact ⟨hs.unread, fun u hu => hs.ahead u (List.mem_of_mem_drop hu), hs.eof, hs.frames, hs.ended, hs.errors⟩

end Tokens
end Declaration
end RecordView
