import RecordView.Proofs.Condition.Thinning
import RecordView.Proofs.Reader.Aside

/-! A reading, and a reading of the same stream without some of its comments. As long as the first one
meets no error, the second one follows it: where the first takes a comment that the second does not
have, the second waits. -/
namespace RecordView.Declaration
open Reader

def State.Facing (s : State) (c : Token) : Prop := c.kind = .comment ∧ ∃ us, s.ahead = c :: us

namespace Thinning

variable {α β : Type} {env : Env} {s s' u u' : State} {t c : Token} {o : Option Token}

/-! ## Places side by side -/

/-- The two readings are at the same token, and the second stream lacks comments after it. -/
structure Level (s u : State) : Prop where
  ahead : s.ahead = u.ahead
  eof : s.eof = u.eof
  frames : s.frames = u.frames
  unread : Thins s.unread u.unread

/-- The two readings are at the same place in their streams. The second one may wait in front of
conditional lines that the first has passed; then it draws what stands behind them. -/
inductive Beside (env : Env) (s u : State) : Prop where
  | level (h : Level s u)
  | waiting {us : List Token} (ahead₁ : s.ahead = []) (ahead₂ : u.ahead = []) (eof₁ : s.eof = none)
      (eof₂ : u.eof = none) (rest : Thins s.unread us)
      (onward : (u.draw env).outcome =
        (Frames.draw s.settings.flags env.sourceLine s.frames us).outcome)

/-- The two readings have come equally far without an error. -/
structure Rel (env : Env) (s u : State) : Prop where
  core : Core s u
  clean : s.report.errors = []
  beside : Beside env s u
  live₁ : s.Live
  live₂ : u.Live
  named : Token.Named (s.ahead ++ s.unread)

/-- They have both taken the same token last. -/
structure Even (env : Env) (s u : State) : Prop extends Rel env s u where
  level : Level s u

/-- They have both looked at the same token. -/
structure Looked (env : Env) (t : Token) (s u : State) : Prop extends Even env s u where
  next : (s.ahead[0]? <|> s.eof) = some t

structure SamePlace (s' s : State) : Prop where
  ahead : s'.ahead = s.ahead
  eof : s'.eof = s.eof
  frames : s'.frames = s.frames
  unread : s'.unread = s.unread
  settings : s'.settings = s.settings

theorem samePlace_of_aside {m : Reader α} (hm : Aside m) {a : α} (h : m env s = .ok a s') :
    SamePlace s' s := by
  have hmoved := hm.stays h
  constructor
  · exact (congrArg State.ahead hmoved).trans rfl
  · exact (congrArg State.eof hmoved).trans rfl
  · exact (congrArg State.frames hmoved).trans rfl
  · exact (congrArg State.unread hmoved).trans rfl
  · exact hm.settings.of_ok h

protected theorem SamePlace.refl (s : State) : SamePlace s s := ⟨rfl, rfl, rfl, rfl, rfl⟩

theorem SamePlace.symm (h : SamePlace s' s) : SamePlace s s' :=
  ⟨h.ahead.symm, h.eof.symm, h.frames.symm, h.unread.symm, h.settings.symm⟩

theorem SamePlace.trans (h : SamePlace s' s) (h' : SamePlace s u) : SamePlace s' u :=
  ⟨h.ahead.trans h'.ahead, h.eof.trans h'.eof, h.frames.trans h'.frames, h.unread.trans h'.unread,
    h.settings.trans h'.settings⟩

theorem SamePlace.take (h : SamePlace s' s) (c : Token) : SamePlace (s'.take c) (s.take c) :=
  { h with ahead := congrArg (List.drop 1) h.ahead }

theorem SamePlace.live (h : SamePlace s' s) (hlive : s.Live) : s'.Live := by
  unfold State.Live at hlive ⊢
  rwa [h.eof, h.unread, h.frames]

theorem SamePlace.draw_eq (h : SamePlace s' s) : s'.draw env = s.draw env := by
  unfold State.draw
  rw [h.settings, h.frames, h.unread]

theorem Level.move (h : Level s u) (hs : SamePlace s' s) (hu : SamePlace u' u) : Level s' u' := by
  constructor
  · rw [hs.ahead, hu.ahead, h.ahead]
  · rw [hs.eof, hu.eof, h.eof]
  · rw [hs.frames, hu.frames, h.frames]
  · rw [hs.unread, hu.unread]
    exact h.unread

theorem Beside.move (h : Beside env s u) (hs : SamePlace s' s) (hu : SamePlace u' u) :
    Beside env s' u' := by
  cases h with
  | level h => exact .level (h.move hs hu)
  | waiting ahead₁ ahead₂ eof₁ eof₂ rest onward =>
    refine .waiting (hs.ahead.trans ahead₁) (hu.ahead.trans ahead₂) (hs.eof.trans eof₁)
      (hu.eof.trans eof₂) (by rw [hs.unread]; exact rest) ?_
    rw [hu.draw_eq, hs.settings, hs.frames, onward]

/-! ## Looking -/

/-- What was next stays next. -/
theorem first_receive {vs : List Token} (hahead : s.ahead = t :: vs) (o : Option Token) :
    ((s.receive o).ahead[0]? <|> (s.receive o).eof) = some t := by
  obtain ⟨ts, e, hreceive⟩ := receive_eq o
  rw [hreceive]
  simp [hahead]

theorem report_receive (s : State) (o : Option Token) : (s.receive o).report = s.report := by
  obtain ⟨ts, e, hreceive⟩ := receive_eq o
  rw [hreceive]

theorem errors_of_receive {o : Option Token}
    (h : ((s.drawn (s.draw env)).receive o).report.errors = []) : (s.draw env).errors = [] := by
  rw [report_receive] at h
  exact (List.append_eq_nil_iff.mp h).2

theorem Level.receive (h : Level s u) (o : Option Token) : Level (s.receive o) (u.receive o) := by
  obtain ⟨ts, e, hreceive⟩ := receive_eq o
  rw [hreceive, hreceive]
  exact { h with ahead := by rw [h.ahead], eof := by rw [h.eof] }

/-- Where nothing was looked at, the second reading draws from a thinned stream. -/
theorem Rel.unlooked (h : Rel env s u) (hahead : s.ahead = []) (heof : s.eof = none) :
    u.ahead = [] ∧ u.eof = none ∧ ∃ us, Thins s.unread us ∧
      (u.draw env).outcome =
        (Frames.draw s.settings.flags env.sourceLine s.frames us).outcome := by
  cases h.beside with
  | waiting _ ahead₂ _ eof₂ rest onward => exact ⟨ahead₂, eof₂, _, rest, onward⟩
  | level hlevel =>
    refine ⟨hlevel.ahead ▸ hahead, hlevel.eof ▸ heof, u.unread, hlevel.unread, ?_⟩
    rw [State.draw, ← h.core.settings, ← hlevel.frames]

theorem Rel.named_receive (h : Rel env s u) (hfound : (s.draw env).found = .ok o) :
    Token.Named (((s.drawn (s.draw env)).receive o).ahead ++
      ((s.drawn (s.draw env)).receive o).unread) := by
  have hsubset := Trail.subset_drawNext env s
  rw [State.drawNext, hfound] at hsubset
  exact fun v hv => h.named v (hsubset hv)

/-- The first reading draws and takes a comment that the second one does not have; that one waits. -/
theorem Rel.wait (h : Rel env s u) (hahead : s.ahead = []) (heof : s.eof = none)
    (hfound : (s.draw env).found = .ok (some c)) (herrors : (s.draw env).errors = [])
    (hc : c.kind = .comment) {us : List Token} (hrest : Thins (s.draw env).rest us)
    (honward : (u.draw env).outcome =
      (Frames.draw s.settings.flags env.sourceLine (s.draw env).frames us).outcome) :
    Rel env (((s.drawn (s.draw env)).receive (some c)).take c) u := by
  have hlive : ((s.drawn (s.draw env)).receive (some c)).Live := by
    have hpeek := peek_of_draw env hahead heof
    rw [hfound] at hpeek
    exact ((Advancing.peek.of_ok hpeek).live h.live₁).1
  obtain ⟨hahead', heof', -⟩ := h.unlooked hahead heof
  have hnamed := h.named_receive hfound
  have hne : c.kind ≠ .eof := by rw [hc]; decide
  rw [receive_seen hne] at hlive hnamed ⊢
  have hcore : Core s u := h.core
  have hsame : s.report.errors ++ (s.draw env).errors = s.report.errors := by
    rw [herrors, List.append_nil]
  constructor
  · exact { hcore with errors := hsame.trans hcore.errors }
  · exact hsame.trans h.clean
  · refine .waiting ?_ hahead' heof heof' hrest honward
    simp [State.take, State.drawn, hahead]
  · exact hlive
  · exact h.live₂
  · intro v hv
    refine hnamed v ?_
    simp only [State.take, State.drawn, hahead, List.nil_append, List.drop_one, List.tail_cons] at hv
    simp [State.drawn, hahead, hv]

theorem advances_receive (heof : s.eof = none) (hfound : (s.draw env).found = .ok o) :
    Advances s ((s.drawn (s.draw env)).receive o) := by
  have hadv := advances_drawNext env (s := s) (by simp [heof])
  unfold State.drawNext at hadv
  rw [hfound] at hadv
  exact hadv

/-- Both readings draw the same. -/
theorem Rel.receive (h : Rel env s u) (hahead : s.ahead = u.ahead) (heof : s.eof = none)
    (heof' : u.eof = none) (hfound : (s.draw env).found = .ok o) (herrors : (s.draw env).errors = [])
    (hfound' : (u.draw env).found = .ok o) (herrors' : (u.draw env).errors = [])
    (hrest : Thins (s.draw env).rest (u.draw env).rest)
    (hframes : (s.draw env).frames = (u.draw env).frames) :
    Even env ((s.drawn (s.draw env)).receive o) ((u.drawn (u.draw env)).receive o) := by
  have hdrawn : Level (s.drawn (s.draw env)) (u.drawn (u.draw env)) :=
    ⟨hahead, heof.trans heof'.symm, hframes, hrest⟩
  have hlevel := hdrawn.receive o
  refine ⟨⟨?_, ?_, .level hlevel, ?_, ?_, h.named_receive hfound⟩, hlevel⟩
  · exact (h.core.drawn (herrors.trans herrors'.symm)).receive o
  · rw [report_receive]
    show s.report.errors ++ (s.draw env).errors = []
    rw [herrors, h.clean]
    rfl
  · exact ((advances_receive heof hfound).live h.live₁).1
  · exact ((advances_receive heof' hfound').live h.live₂).1

/-- If the first reading looks at the next token, the second one sees the same; or the token is a
comment that the second one does not have. -/
theorem Rel.peek (h : Rel env s u) (hpeek : peek env s = .ok t s') (hclean : s'.report.errors = []) :
    (∃ u', Reader.peek env u = .ok t u' ∧ Looked env t s' u') ∨
      (s'.Facing t ∧ Rel env (s'.take t) u) := by
  cases hnext : (s.ahead[0]? <|> s.eof) with
  | some v =>
    rw [peek_of_next hnext] at hpeek
    cases hpeek
    cases hbeside : h.beside with
    | waiting ahead₁ _ eof₁ =>
      rw [ahead₁, eof₁] at hnext
      cases hnext
    | level hlevel =>
      have hnext' : (u.ahead[0]? <|> u.eof) = some t := by rw [← hlevel.ahead, ← hlevel.eof, hnext]
      exact .inl ⟨u, peek_of_next hnext', ⟨⟨h, hlevel⟩, hnext⟩⟩
  | none =>
    obtain ⟨hahead, heof⟩ := unlooked_of_next hnext
    obtain ⟨o, hfound, rfl, rfl⟩ := found_of_peek hahead heof hpeek
    have herrors := errors_of_receive hclean
    obtain ⟨hahead', heof', us, hthins, honward⟩ := h.unlooked hahead heof
    cases (Frames.draws _ _ _ _).thins hthins hfound herrors with
    | @dropped c us' found comment rest onward =>
      cases found
      have hne : c.kind ≠ .eof := by rw [comment]; decide
      refine .inr ⟨⟨comment, [], ?_⟩, h.wait hahead heof hfound herrors comment rest (honward.trans onward)⟩
      rw [receive_seen hne]
      exact congrArg (· ++ [c]) hahead
    | same found rest frames errors =>
      simp only [Frames.Draw.outcome, Prod.mk.injEq] at honward
      obtain ⟨hfound', hrest', hframes', herrors'⟩ := honward
      have hpeek' := peek_of_draw env hahead' heof'
      rw [hfound'.trans found] at hpeek'
      have heven := h.receive (hahead.trans hahead'.symm) heof heof' hfound herrors (hfound'.trans found)
        (herrors'.trans errors) (hrest' ▸ rest) (hframes'.trans frames).symm
      have hnil : (s.drawn (s.draw env)).ahead = [] := hahead
      exact .inl ⟨_, hpeek', heven, next_receive hnil o⟩

theorem Looked.peek₁ (h : Looked env t s u) : peek env s = .ok t s := peek_of_next h.next

theorem Looked.peek₂ (h : Looked env t s u) : peek env u = .ok t u := by
  refine peek_of_next ?_
  rw [← h.level.ahead, ← h.level.eof, h.next]

theorem Even.take (h : Looked env t s u) : Even env (s.take t) (u.take t) := by
  have hlevel : Level (s.take t) (u.take t) :=
    { h.level with ahead := congrArg (List.drop 1) h.level.ahead }
  refine ⟨⟨{ h.core with }, h.clean, .level hlevel, h.live₁, h.live₂, fun v hv => h.named v ?_⟩, hlevel⟩
  rcases List.mem_append.mp hv with hv | hv
  · exact List.mem_append_left _ (List.mem_of_mem_drop hv)
  · exact List.mem_append_right _ hv

theorem Looked.exists_ahead (h : Looked env t s u) (ht : t.kind ≠ .eof) : ∃ vs, s.ahead = t :: vs :=
  ahead_of_next h.next ht h.live₁

theorem Looked.named_next (h : Looked env t s u) : Token.Named [t] := by
  have hnext := h.next
  cases hahead : s.ahead with
  | nil =>
    rw [hahead] at hnext
    have hkind : t.kind = .eof := (h.live₁.1 t hnext).1
    exact .cons (fun ht => by rw [hkind] at ht; cases ht) .nil
  | cons v vs =>
    rw [hahead] at hnext
    cases hnext
    exact .cons (h.named t (by simp [hahead])) .nil

/-! ## The token after the next one -/

/-- The second token from here, when a token is next. -/
theorem peekSecond_apply {vs : List Token} (h : s.ahead = t :: vs) :
    peekSecond env s = (draw 1 >>= fun _ => ahead 1) env s := by
  rw [peekSecond, bind_apply, draw_apply, if_neg (by simp [h])]

/-- Both have also looked at the same token after the next one. -/
structure LookedOn (env : Env) (t v : Token) (s u : State) : Prop extends Looked env t s u where
  second : (s.ahead[1]? <|> s.eof) = some v

/-- One more token is drawn: the same by both, or a comment that the second reading does not have. -/
theorem Even.drawNext (h : Even env s u) (heof : s.eof = none) (hdraw : s.drawNext env = .ok () s')
    (hclean : s'.report.errors = []) : ∃ o, s' = (s.drawn (s.draw env)).receive o ∧
      ((∃ u', u.drawNext env = .ok () u' ∧ Even env s' u') ∨ ∃ c, o = some c ∧ c.kind = .comment) := by
  have heof' : u.eof = none := h.level.eof ▸ heof
  have hsame : u.draw env = Frames.draw s.settings.flags env.sourceLine s.frames u.unread := by
    rw [State.draw, h.core.settings, h.level.frames]
  obtain ⟨o, hfound, rfl⟩ := found_of_drawNext hdraw
  have herrors := errors_of_receive hclean
  rw [State.drawNext]
  refine ⟨o, rfl, ?_⟩
  cases (Frames.draws _ _ _ _).thins h.level.unread hfound herrors with
  | dropped found comment rest onward => exact .inr ⟨_, found, comment⟩
  | same found rest frames errors =>
    rw [← hsame] at found rest frames errors
    refine .inl ⟨(u.drawn (u.draw env)).receive o, ?_, ?_⟩
    · rw [found]
    · exact h.receive h.level.ahead heof heof' hfound herrors found errors rest frames.symm

theorem Looked.peekSecond {v : Token} (h : Looked env t s u) (ht : t.kind ≠ .eof)
    (hpeek : Reader.peekSecond env s = .ok v s') (hclean : s'.report.errors = []) :
    (∃ u', Reader.peekSecond env u = .ok v u' ∧ LookedOn env t v s' u') ∨ v.kind = .comment := by
  obtain ⟨vs, hahead⟩ := h.exists_ahead ht
  have hahead' : u.ahead = t :: vs := h.level.ahead ▸ hahead
  rw [peekSecond_apply hahead] at hpeek
  rw [peekSecond_apply hahead']
  obtain ⟨_, s₁, hdraw, hsecond⟩ := bind_ok.mp hpeek
  obtain rfl : s₁ = s' := by
    cases hsecond
    rfl
  have hv : v = (s₁.ahead[1]? <|> s₁.eof).getD endOfStream := by
    cases hsecond
    rfl
  rw [draw_apply] at hdraw
  split at hdraw
  · rename_i hdrawn
    have hlone : s.ahead.length = 1 := by
      have hle := hdrawn.1
      simp only [hahead, List.length_cons] at hle ⊢
      omega
    have heof : s.eof = none := Option.isNone_iff_eq_none.mp hdrawn.2
    obtain ⟨o, hs₁, hboth⟩ := h.toEven.drawNext heof hdraw hclean
    have hnewest : (s₁.ahead[1]? <|> s₁.eof) = some (o.getD endOfStream) := by
      rw [hs₁, ← newest_receive (s.drawn (s.draw env)) o]
      show _ = (_[s.ahead.length]? <|> _)
      rw [hlone]
    rw [hnewest] at hv
    subst hv
    rcases hboth with ⟨u', hu', heven⟩ | ⟨c, rfl, hc⟩
    · refine .inl ⟨u', bind_ok.mpr ⟨(), u', ?_, ?_⟩, ⟨heven, ?_⟩, hnewest⟩
      · rw [draw_apply, ← h.level.ahead, ← h.level.eof, if_pos hdrawn, hu']
      · show EStateM.Result.ok ((u'.ahead[1]? <|> u'.eof).getD endOfStream) u' = _
        rw [← heven.level.ahead, ← heven.level.eof, hnewest]
      · rw [hs₁]
        exact first_receive (s := s.drawn (s.draw env)) hahead o
    · exact .inr hc
  · rename_i hdrawn
    cases hdraw
    have hseen : ∃ w, (s.ahead[1]? <|> s.eof) = some w := by
      rw [hahead] at hdrawn ⊢
      cases vs with
      | nil =>
        refine Option.ne_none_iff_exists'.mp fun hnone => hdrawn ⟨Nat.le_refl 1, ?_⟩
        exact Option.isNone_iff_eq_none.mpr hnone
      | cons w ws => exact ⟨w, rfl⟩
    obtain ⟨w, hw⟩ := hseen
    rw [hw] at hv
    subst hv
    refine .inl ⟨u, bind_ok.mpr ⟨(), u, ?_, ?_⟩, h, hw⟩
    · rw [draw_apply, ← h.level.ahead, ← h.level.eof, if_neg hdrawn]
    · show EStateM.Result.ok ((u.ahead[1]? <|> u.eof).getD endOfStream) u = _
      rw [← h.level.ahead, ← h.level.eof, hw]
      rfl

/-! ## In front of a comment -/

theorem isSymbol_comment (hc : c.kind = .comment) (symbol : String) : c.isSymbol symbol = false := by
  simp [Token.isSymbol, hc, Token.Kind.isContent]

theorem peek_of_facing (h : s.Facing c) : peek env s = .ok c s := by
  obtain ⟨-, us, hahead⟩ := h
  refine peek_of_next ?_
  rw [hahead]
  rfl

theorem advance_of_facing (h : s.Facing c) : advance env s = .ok c (s.take c) := by
  have hne : c.kind ≠ .eof := by rw [h.1]; decide
  rw [advance_apply, peek_of_facing h]
  dsimp only
  rw [if_neg hne]

theorem check_of_facing (h : s.Facing c) (symbol : String) : check symbol env s = .ok false s := by
  rw [check, bind_apply, peek_of_facing h]
  show EStateM.Result.ok (c.isSymbol symbol) s = _
  rw [isSymbol_comment h.1]

theorem accept_of_facing (h : s.Facing c) (symbol : String) : accept symbol env s = .ok false s := by
  rw [accept, bind_apply, check_of_facing h]
  rfl

theorem expectAs_of_facing (h : s.Facing c) (symbol : String) (wanted : Wanted) :
    expectAs symbol wanted env s ≠ .ok t s' := by
  intro hok
  rw [expectAs, bind_apply, check_of_facing h] at hok
  obtain ⟨_, _, -, hok⟩ := bind_ok.mp hok
  cases hok

theorem expectName_of_facing (h : s.Facing c) (wanted : Wanted) : expectName wanted env s ≠ .ok t s' := by
  intro hok
  rw [expectName, bind_apply, peek_of_facing h] at hok
  dsimp only at hok
  rw [if_neg (by rw [h.1]; decide)] at hok
  cases hok

theorem facing_of_samePlace (h : s.Facing c) (hplace : SamePlace s' s) : s'.Facing c := by
  refine ⟨h.1, ?_⟩
  rw [hplace.ahead]
  exact h.2

/-! ## The same place twice -/

theorem core_take (s : State) (c : Token) : Core s (s.take c) := ⟨rfl, rfl, rfl, rfl, rfl, rfl, rfl⟩

theorem core_drawn {d : Frames.Draw} (hd : d.errors = []) (o : Option Token) :
    Core u ((u.drawn d).receive o) := by
  have hdrawn : Core u (u.drawn d) := { Core.refl u with errors := by simp [State.drawn, Report.addAll, hd] }
  obtain ⟨ts, e, hreceive⟩ := receive_eq o
  rw [hreceive]
  exact { hdrawn with }

theorem SamePlace.receive (h : SamePlace s' s) (d : Frames.Draw) (o : Option Token) :
    SamePlace ((s'.drawn d).receive o) ((s.drawn d).receive o) := by
  obtain ⟨ts, e, hreceive⟩ := receive_eq o
  rw [hreceive, hreceive]
  exact ⟨congrArg (· ++ ts) h.ahead, congrArg (e <|> ·) h.eof, rfl, rfl, h.settings⟩

/-- From the same place the next token is the same. -/
theorem SamePlace.peek (h : SamePlace s u) (hpeek : Reader.peek env s = .ok t s')
    (hclean : s'.report.errors = []) :
    ∃ u', Reader.peek env u = .ok t u' ∧ SamePlace s' u' ∧ Core s s' ∧ Core u u' := by
  cases hnext : (s.ahead[0]? <|> s.eof) with
  | some v =>
    have hnext' : (u.ahead[0]? <|> u.eof) = some v := by rw [← h.ahead, ← h.eof, hnext]
    rw [peek_of_next hnext] at hpeek
    cases hpeek
    exact ⟨u, peek_of_next hnext', h, .refl _, .refl _⟩
  | none =>
    obtain ⟨hahead, heof⟩ := unlooked_of_next hnext
    have hdraw : s.draw env = u.draw env := h.draw_eq
    obtain ⟨o, hfound, rfl, rfl⟩ := found_of_peek hahead heof hpeek
    have herrors := errors_of_receive hclean
    rw [peek_of_draw env (h.ahead ▸ hahead) (h.eof ▸ heof), ← hdraw, hfound]
    exact ⟨_, rfl, h.receive _ o, core_drawn herrors o, core_drawn herrors o⟩

end Thinning
end RecordView.Declaration
