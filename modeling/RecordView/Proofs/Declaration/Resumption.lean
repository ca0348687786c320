import RecordView.Proofs.Declaration.Position
import RecordView.Proofs.Declaration.Progress

/-! Going on from a place between two members, after the condition lines that may stand there. -/
namespace RecordView.Declaration
open Reader

variable {env : Env} {s s' s₀ s₁ s₂ u : State} {t v : Token} {start : Nat} {typedef exact : Bool} {d : Draft}

/-! ## Lines in front of a token -/

/-- Where nothing was looked at, the next token is drawn. -/
theorem drawn_of_peek (hlive : s.Live) (hahead : s.ahead = []) (h : peek env s = .ok t s')
    (ht : t.kind ≠ .eof) :
    s.eof = none ∧ (s.draw env).found = .ok (some t) ∧
      s' = { s.drawn (s.draw env) with ahead := [t] } := by
  cases heof : s.eof with
  | some e =>
    rw [peek_of_next (by rw [hahead, heof]; rfl)] at h
    cases h
    exact absurd (hlive.1 _ heof).1 ht
  | none =>
    obtain ⟨o, hfound, rfl, rfl⟩ := found_of_peek hahead heof h
    cases o with
    | none => exact absurd rfl ht
    | some v =>
      refine ⟨rfl, hfound, (receive_seen ht _).trans ?_⟩
      simp [State.drawn, hahead]

/-- The lines in front of a token have the same effect in front of another end of the stream. -/
theorem peek_beyond (hfound : (s.draw env).found = .ok (some t)) (ht : t.kind ≠ .eof) :
    ∃ c, s.unread = c ++ t :: (s.draw env).rest ∧ ∀ u post, u.unread = c ++ post →
      u.frames = s.frames → u.settings = s.settings → u.ahead = [] → u.eof = none →
      peek env u = peek env (u.drawn { s.draw env with rest := post }) := by
  obtain ⟨-, c, hs, hall⟩ := (Frames.draws _ _ _ _).seen_append hfound ht
  refine ⟨c, hs, fun u post hunread hframes hsettings hahead heof => ?_⟩
  have hdraw : u.draw env = ((u.drawn { s.draw env with rest := post }).draw env).after
      (s.draw env).errors (s.draw env).notes := by
    have hall := hall post
    rw [State.draw, State.draw, hunread, hframes, hsettings, hall]
    simp only [State.drawn, hsettings]
    rfl
  have hnext : u.drawNext env = (u.drawn { s.draw env with rest := post }).drawNext env := by
    have hdrawn : u.drawn (u.draw env) = (u.drawn { s.draw env with rest := post }).drawn
        ((u.drawn { s.draw env with rest := post }).draw env) := by
      rw [hdraw]
      simp [State.drawn, Frames.Draw.after, Report.addAll]
    rw [State.drawNext, State.drawNext, hdrawn, hdraw]
    rfl
  rw [peek, bind_apply, bind_apply, draw_apply, draw_apply, hnext]
  simp [State.drawn, hahead, heof]

/-- What is read of a body is the same if the next token is. -/
theorem members_eq_of_peek (hpeek : peek env s = peek env u) (hfull : s.report.full = false)
    (hfull' : u.report.full = false) (hlive : u.Live) (hleft : u.left ≤ s.left) :
    members d env s = members d env u := by
  have hround : memberRound d env s = memberRound d env u := by
    rw [memberRound, get_bind_apply, get_bind_apply, hfull, hfull', if_neg Bool.false_ne_true,
      bind_apply, bind_apply, hpeek]
  rw [members, rounds, rounds, hround]
  cases h : memberRound d env u with
  | error e s' => rfl
  | ok r s' =>
    cases r with
    | done x => rfl
    | again d' =>
      have hlt := taken_lt_of_round hlive h
      have hle := (((Between.advancing_memberRound d).of_ok h).live hlive).2
      have hleft' : s'.left < u.left := by omega
      dsimp only
      rw [if_pos hleft', if_pos (Nat.lt_of_lt_of_le hleft' hleft)]

theorem restOfStatement_congr (h : members d env s = members d env u) :
    restOfStatement t start typedef d env s = restOfStatement t start typedef d env u := by
  rw [restOfStatement, attempt, tryCatch_apply, tryCatch_apply, bind_apply, bind_apply, h]

def State.skipTo (s : State) (post : List Token) (taken : Nat) (last : Option Token)
    (notes : List Note) : State := { s with unread := post, ahead := [], taken, last, notes }

/-- Without the part of the stream that starts with the next token, the reading goes on behind the lines
in front of that token. -/
theorem Between.resume (h : Between env s₀ v start typedef d s) (hlive : s₀.Live) (hahead : s.ahead = [])
    (heof : s.eof = none) (hfound : (s.draw env).found = .ok (some t)) (ht : t.kind ≠ .eof)
    {pre mid post : List Token} (hstream : s₀.unread = pre ++ (mid ++ post)) (hmid : mid ≠ [])
    (hnext : t :: (s.draw env).rest = mid ++ post)
    (hfull : (s.report.addAll (s.draw env).errors).full = false) :
    ∃ start' u last notes warnings, start' < s.taken ∧ u.held = s.held ∧
      Between env { s₀ with unread := pre ++ post } v start' typedef d u ∧
      restOfStatement v start' typedef d env u = restOfStatement v start' typedef d env
        { (s.drawn (s.draw env)).skipTo post s.taken last notes with
          report := ⟨s.report.limit, s.report.errors ++ (s.draw env).errors, warnings⟩ } ∧
      description env { s₀ with unread := pre ++ post } =
        (restOfStatement v start' typedef d >>= fun _ => description) env u := by
  obtain ⟨c, hc, hbeyond⟩ := peek_beyond hfound ht
  obtain ⟨start', last, notes, warnings, hb⟩ := h.of_stream hstream hmid (by rw [hc, hnext])
  have hlive' : State.Live { s₀ with unread := pre ++ post } := by
    refine ⟨fun e he => absurd (hlive.1 e he).2 ?_, hlive.2⟩
    rw [hstream]
    simp [hmid]
  obtain ⟨heq, hstart⟩ := hb.description_eq hlive'
  -- the place in the shorter stream, and the place behind the lines that follow
  let u : State := { s with
    unread := c ++ post, last, notes, report := ⟨s.report.limit, s.report.errors, warnings⟩ }
  let w : State := u.drawn { s.draw env with rest := post }
  have hpeek : peek env u = peek env w := hbeyond u post rfl rfl rfl hahead heof
  have hw : w.Live := by
    have hactive : (s.draw env).frames.active = true := (Frames.draws _ _ _ _).stops.seen t hfound ht
    refine ⟨fun e he => ?_, fun _ => hactive⟩
    have heof' : w.eof = none := heof
    rw [heof'] at he
    cases he
  have hleft : w.left ≤ u.left := by
    simp only [State.left, State.drawn, u, w, List.length_append]
    omega
  have hfull' : u.report.full = false := by
    show decide (s.report.limit ≤ s.report.errors.length) = false
    simp only [Report.full, Report.addAll, List.length_append, decide_eq_false_iff_not] at hfull ⊢
    omega
  have hmembers : members d env u = members d env w :=
    members_eq_of_peek hpeek hfull' hfull hw hleft
  have hrest : restOfStatement v start' typedef d env u = restOfStatement v start' typedef d env w :=
    restOfStatement_congr hmembers
  have hw' : w = { (s.drawn (s.draw env)).skipTo post s.taken last (notes ++ (s.draw env).notes) with
      report := ⟨s.report.limit, s.report.errors ++ (s.draw env).errors, warnings⟩ } := by
    simp only [State.skipTo, State.drawn, Report.addAll, u, w, hahead]
  exact ⟨start', u, last, notes ++ (s.draw env).notes, warnings, hstart, rfl, hb, hw' ▸ hrest, heq⟩

/-! ## Going on in two ways -/

/-- Where a reading stands and what it has declared. -/
def State.standing (s : State) : List Token × Frames × List Token × Option Token × Bool × Bool × Scope ×
    Registry × Int :=
  (s.unread, s.frames, s.ahead, s.eof, s.declared, s.commentSeen, s.constants, s.registry, s.report.limit)

namespace Twin

variable {T : Twin} {u : State}

/-- Nothing stands behind two whole streams. -/
theorem whole_streams : ([] : List Token) = [] → ([] : List Token) = [] := id

def resuming (env : Env) (exact : Bool) {s u : State}
    (errors : u.report.errors.length ≤ s.report.errors.length) : Twin :=
  .ofStreams env exact whole_streams errors s.taken u.taken

theorem rel_resuming (exact : Bool) (errors : u.report.errors.length ≤ s.report.errors.length)
    (h : s.standing = u.standing) (hsettings : s.settings.plain = u.settings.plain)
    (hexact : exact = true → s.settings = u.settings ∧ s.script = u.script) :
    (resuming env exact errors).Rel s u := by
  simp only [State.standing, Prod.mk.injEq] at h
  obtain ⟨hunread, hframes, hahead, heof, hdeclared, hcomment, hconstants, hregistry, hlimit⟩ := h
  refine
    { unread := ⟨s.unread, (List.append_nil _).symm, by rw [hunread]; exact (List.append_nil _).symm⟩
      frames := hframes, ahead := hahead, eof := heof, last := .inr rfl, taken := Nat.add_comm _ _
      started := Nat.le_refl _, declared := hdeclared, commentSeen := hcomment
      constants := hconstants, settings := ?_, registry := congrArg _ hregistry
      script := fun he => (hexact he).2, limit := hlimit
      errors := ⟨[], (List.append_nil _).symm, (List.append_nil _).symm⟩ }
  cases exact with
  | true => exact (hexact rfl).1
  | false => exact hsettings

theorem registry_resuming {x y : State} {errors : u.report.errors.length ≤ s.report.errors.length}
    (h : (resuming env exact errors).Rel x y) : x.registry = y.registry := by
  have hregistry := h.registry
  rwa [show (resuming env exact errors).labels = .ofMark id from rfl, Registry.relabel_id,
    Registry.relabel_id] at hregistry

/-- Without a difference in errors, and with whole streams, nothing is lost. -/
theorem not_lost_of_errors (hle : u.report.errors.length ≤ s.report.errors.length)
    (h : s.report.errors = u.report.errors) (x : State) : ¬ (resuming env exact hle).Lost x := by
  rintro (hx | ⟨hx, -⟩)
  · exact Nat.not_lt_zero _ hx
  · exact absurd (congrArg List.length h) (Nat.ne_of_gt hx)

theorem errors_resuming {x y : State} {hle : u.report.errors.length ≤ s.report.errors.length}
    (h : (resuming env exact hle).Rel x y) (herrors : s.report.errors = u.report.errors) :
    x.report.errors = y.report.errors := by
  obtain ⟨after, hx, hy⟩ := h.errors
  calc x.report.errors = s.report.errors ++ after := hx
    _ = u.report.errors ++ after := by rw [herrors]
    _ = y.report.errors := hy.symm

/-- A reading goes on as its place, its settings and its script say, however it got there. -/
theorem read_resuming (env : Env) (h : s.standing = u.standing)
    (hsettings : s.settings = u.settings) (hscript : s.script = u.script)
    (herrors : s.report.errors = u.report.errors) :
    let r := read env s
    let r' := read env u
    r.2 = r'.2 ∧ r.1.settings = r'.1.settings ∧ r.1.script = r'.1.script ∧
      r.1.report.errors = r'.1.report.errors := by
  have hle : u.report.errors.length ≤ s.report.errors.length := Nat.le_of_eq (by rw [herrors])
  have hrel : (resuming env true hle).Rel s u :=
    rel_resuming true hle h (by rw [hsettings]) fun _ => ⟨hsettings, hscript⟩
  have hmeets : (resuming env true hle).Meets id (description env s) (description env u) :=
    sim_description.meets hrel
  have hend {x y : State} (hxy : (resuming env true hle).Rel x y) :
      x.settings = y.settings ∧ x.script = y.script ∧ x.report.errors = y.report.errors :=
    ⟨eq_of_view rfl hxy.settings, hxy.script rfl, errors_resuming hxy herrors⟩
  unfold read
  generalize description env s = r at hmeets ⊢
  generalize description env u = r' at hmeets ⊢
  cases hmeets with
  | ok _ rel => exact ⟨rfl, hend rel⟩
  | lost lost => exact absurd lost (not_lost_of_errors hle herrors _)
  | failed₁ loose => exact absurd rfl (loose rfl)
  | failed₂ loose => cases loose
  | error e rel =>
    cases e with
    | refused d => exact ⟨rfl, hend rel⟩
    | failed f => exact ⟨rfl, hend rel⟩

/-- The closing brace of a body is taken. -/
theorem taken_of_done {d' : Draft} (h : memberRound d env s = .ok (.done (some d')) s') :
    s.taken < s'.taken := by
  cases memberRound_turn h with
  | @bodyEnd t _ s₁ _ _ _ next kind taken _ placed =>
    have hle := (Advancing.peek.of_ok next).taken
    rw [advance_of_peek next kind] at taken
    cases taken
    have hadv := ((bodyPath_advances.perform _).of_ok placed).taken
    have htake : (s₁.take t).taken = s₁.taken + 1 := rfl
    omega

/-- A statement is refused after its closing brace was taken. -/
theorem taken_of_refused {e : Diagnostic}
    (h : (members d >>= closing typedef) env s = .error (.refused e) s') : s.taken < s'.taken := by
  rcases bind_error.mp h with h₁ | ⟨x, s₁, h₁, h₂⟩
  · exact absurd h₁ (Unrefused.members d _ _ _ _)
  · cases x with
    | none => cases h₂
    | some d' =>
      obtain ⟨d₂, s₂, hrun, hdone⟩ := members_ok h₁
      have hbody := (Advancing.runs Between.advancing_memberRound hrun).taken
      have hbrace := taken_of_done hdone
      have hclosing := ((declarationPath_advances.closing typedef (some d')).of_error h₂).taken
      omega

/-- The rest of a statement, read from two places before which its start lies. -/
theorem meets_restOfStatement (hs : T.Rel s u) (htaken : s.taken = T.base)
    {start' : Nat} (hstart : start < T.start₁) (hstart' : start' < T.start₂) :
    T.Meets id (restOfStatement t start typedef d T.env₁ s)
      (restOfStatement t start' typedef d T.env₂ u) := by
  have h := (sim_body d typedef).meets hs
  rw [restOfStatement, restOfStatement, attempt, attempt, tryCatch_apply, tryCatch_apply]
  cases h₁ : (members d >>= closing typedef) T.env₁ s with
  | ok a s₁ =>
    rw [h₁] at h
    generalize (members d >>= closing typedef) T.env₂ u = r₂ at h ⊢
    cases h with
    | ok value rel => exact .ok value rel
    | lost lost => exact .lost lost
    | failed₂ loose => exact .failed₂ loose
  | error e s₁ =>
    rw [h₁] at h
    generalize (members d >>= closing typedef) T.env₂ u = r₂ at h ⊢
    cases h with
    | failed₁ loose => exact .failed₁ loose
    | failed₂ loose => exact .failed₂ loose
    | lost lost =>
      refine .lost ?_
      show T.Lost (finalState (recover t start false () e T.env₁ s₁))
      rw [finalState_eq]
      exact Lost.mono lost (tokenPath_advances.recover _ _ _ _ e T.env₁ s₁)
    | error _ rel =>
      cases e with
      | failed f => exact .error _ rel
      | refused d =>
        -- both have taken a token since, so that the last one is the same
        have hlt := taken_of_refused h₁
        have hstarted := rel.started
        refine meets_recover d rel (.inr ⟨?_, ?_, ?_⟩)
        · omega
        · omega
        · omega

/-- Two exact readings that are not lost end in the same way. -/
theorem rel_of_exact (he : T.exact = true) (hrest : T.rest₁ = [])
    (h : T.Meets id (description T.env₁ s₁) (description T.env₂ s₂))
    (hfull : (read T.env₁ s₁).1.report.full = false) :
    (read T.env₁ s₁).2 = (read T.env₂ s₂).2 ∧ T.Rel (read T.env₁ s₁).1 (read T.env₂ s₂).1 := by
  have hlost : ¬ T.Lost (read T.env₁ s₁).1 := by
    rintro (hlt | ⟨-, hf⟩)
    · rw [hrest] at hlt
      exact Nat.not_lt_zero _ hlt
    · rw [hfull] at hf
      cases hf
  rw [read_fst, ← finalState_eq] at hlost
  unfold read
  generalize description T.env₁ s₁ = r₁ at *
  generalize description T.env₂ s₂ = r₂ at *
  cases h with
  | ok _ rel => exact ⟨rfl, rel⟩
  | lost lost => exact absurd lost hlost
  | failed₁ loose => exact absurd hrest (loose he)
  | failed₂ loose => exact absurd he (by simp [loose])
  | error e rel =>
    cases e with
    | refused d => exact ⟨rfl, rel⟩
    | failed f => exact ⟨rfl, rel⟩

end Twin

/-- A round that leaves the draft as it is can be left out: where another reading goes on from a place
with the same standing, the two end alike. -/
theorem Between.meets_of_rel {q w w₀ u₀ : State} {start' : Nat} (h : Between env s₀ v start typedef d s)
    (hlive : s₀.Live) (hround : memberRound d env s = .ok (.again d) q) (htaken : s.taken < q.taken)
    (hrest : restOfStatement v start' typedef d env w₀ = restOfStatement v start' typedef d env w)
    (hdescription' :
      description env u₀ = (restOfStatement v start' typedef d >>= fun _ => description) env w₀)
    (hstart' : start' < w.taken) {hle : w.report.errors.length ≤ q.report.errors.length}
    (hrel : (Twin.resuming env exact hle).Rel q w) :
    (Twin.resuming env exact hle).Meets id (description env s₀) (description env u₀) ∧
      (Twin.resuming env exact hle).Meets id (restOfStatement v start typedef d env s)
        (restOfStatement v start' typedef d env w₀) := by
  have hs : s.Live := (h.advances.live hlive).1
  have hshorter := (((Between.advancing_memberRound d).of_ok hround).live hs).2
  have hbetween := h.next hround (by omega)
  obtain ⟨hdescription, hstart⟩ := hbetween.description_eq hlive
  have hmembers : members d env s = members d env q :=
    (Runs.start.next hround (by omega) : Runs memberRound env d s d q).rounds_eq
  have hmeets : (Twin.resuming env exact hle).Meets id (restOfStatement v start typedef d env q)
      (restOfStatement v start' typedef d env w₀) := by
    rw [hrest]
    exact Twin.meets_restOfStatement (T := .resuming env exact hle) hrel rfl hstart hstart'
  refine ⟨?_, restOfStatement_congr hmembers ▸ hmeets⟩
  rw [hdescription, hdescription']
  exact Twin.meets_bind (T := .resuming env exact hle) hmeets fun _ _ _ => Twin.sim_description

/-- A part of a body that is read in a round and leaves the draft as it is can be left out: the reading
goes on from the same place, with the errors up to there. -/
theorem Between.without (exact : Bool) {q : State} (h : Between env s₀ v start typedef d s)
    (hlive : s₀.Live) (hahead : s.ahead = []) (heof : s.eof = none)
    (hfound : (s.draw env).found = .ok (some t)) (ht : t.kind ≠ .eof) {pre mid post : List Token}
    (hstream : s₀.unread = pre ++ (mid ++ post)) (hmid : mid ≠ [])
    (hnext : t :: (s.draw env).rest = mid ++ post)
    (hfull : (s.report.addAll (s.draw env).errors).full = false)
    (hround : memberRound d env s = .ok (.again d) q) (htaken : s.taken < q.taken)
    (hstanding : q.standing = ((s.drawn (s.draw env)).skipTo post s.taken s.last s.notes).standing)
    (hsettings : q.settings.plain = s.settings.plain)
    (hexact : exact = true → q.settings = s.settings ∧ q.script = s.script)
    {es : List Diagnostic} (herrors : q.report.errors = s.report.errors ++ (s.draw env).errors ++ es) :
    ∃ (start' : Nat) (w₀ w : State), w.report.errors = s.report.errors ++ (s.draw env).errors ∧
      w₀.held = s.held ∧ Between env { s₀ with unread := pre ++ post } v start' typedef d w₀ ∧
      ∃ hle : w.report.errors.length ≤ q.report.errors.length,
        (Twin.resuming env exact hle).Meets id (description env s₀)
          (description env { s₀ with unread := pre ++ post }) ∧
        (Twin.resuming env exact hle).Meets id (restOfStatement v start typedef d env s)
          (restOfStatement v start' typedef d env w₀) := by
  obtain ⟨start', w₀, last, notes, warnings, hstart', hheld, hbetween', hrest, hdescription'⟩ :=
    h.resume hlive hahead heof hfound ht hstream hmid hnext hfull
  generalize hw : { (s.drawn (s.draw env)).skipTo post s.taken last notes with
    report := ⟨s.report.limit, s.report.errors ++ (s.draw env).errors, warnings⟩ } = w at hrest
  have hwerrors : w.report.errors = s.report.errors ++ (s.draw env).errors := by rw [← hw]
  have hle : w.report.errors.length ≤ q.report.errors.length := by
    rw [hwerrors, herrors]
    exact (List.prefix_append _ es).length_le
  have hstart'' : start' < w.taken := by rw [← hw]; exact hstart'
  have hrel : (Twin.resuming env exact hle).Rel q w := by
    refine Twin.rel_resuming exact hle ?_ ?_ ?_
    · rw [hstanding, ← hw]
      rfl
    · rw [hsettings, ← hw]
      rfl
    · rw [← hw]
      exact hexact
  exact ⟨start', w₀, w, hwerrors, hheld, hbetween', hle,
    h.meets_of_rel hlive hround htaken hrest hdescription' hstart'' hrel⟩

end RecordView.Declaration
