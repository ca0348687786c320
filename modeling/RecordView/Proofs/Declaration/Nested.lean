import RecordView.Proofs.Declaration.Passing
import RecordView.Proofs.Declaration.Resumption

/-! A declaration inside a body is skipped through its closing brace and leaves nothing but one error. -/
namespace RecordView.Declaration
open Reader

variable {env : Env} {s s' s₀ s₁ : State} {t keyword : Token} {ts decl post : List Token} {d : Draft}
  {depth : Nat}

/-! ## Declarations -/

/-- Tokens in which every brace has its counterpart. -/
inductive Balanced : List Token → Prop where
  | nil : Balanced []
  | token {t : Token} {ts : List Token} (opens : t.isSymbol "\x7b" = false)
      (closes : t.isSymbol "\x7d" = false) (rest : Balanced ts) : Balanced (t :: ts)
  | braces {opening closing : Token} {inner ts : List Token} (opens : opening.isSymbol "\x7b" = true)
      (body : Balanced inner) (closes : closing.isSymbol "\x7d" = true) (rest : Balanced ts) :
      Balanced (opening :: (inner ++ closing :: ts))

/-- Tokens before the body of a declaration: its name, a type that it extends, what a typedef stands
for. -/
def IsHeader (ts : List Token) : Prop :=
  ∀ t ∈ ts, t.isSymbol ";" = false ∧ t.isSymbol "\x7b" = false ∧ t.isSymbol "\x7d" = false

/-- The tokens of a declaration through its closing brace. A union has a name here: without one it is a
member. -/
inductive IsDeclaration (keyword : Token) : List Token → Prop where
  | intro {header body : List Token} {opening closing : Token} (name : keyword.kind = .identifier)
      (word : keyword.text ∈ keywords) (named : keyword.text = "union" → header ≠ [])
      (head : IsHeader header) (opens : opening.isSymbol "\x7b" = true) (balanced : Balanced body)
      (closes : closing.isSymbol "\x7d" = true) :
      IsDeclaration keyword (keyword :: (header ++ opening :: (body ++ [closing])))

/-! ## Skipping -/

/-- A round of skipping takes a token, and goes by the braces. -/
theorem nestedRound_eq (h : s.Faces (t :: ts) post) (depth : Nat) :
    nestedRound depth env s =
      (if t.isSymbol ";" && depth == 0 then pure (.done ())
        else if t.isSymbol "\x7b" then pure (.again (depth + 1))
        else if t.isSymbol "\x7d" then
          if depth ≤ 1 then accept ";" >>= fun _ => pure (.done ()) else pure (.again (depth - 1))
        else pure (.again depth) : Reader (Round Nat Unit)) env (s.past [t]) := by
  obtain ⟨s', hpeek, hs', -, hpast⟩ := h.peek env
  rw [nestedRound, bind_apply, hpeek]
  dsimp only
  rw [if_neg h.ne_eof, bind_apply, hs'.advance, hpast]

theorem nested_past_token (h : s.Faces (t :: ts) post) (hend : t.isSymbol ";" = false ∨ depth ≠ 0)
    (hopens : t.isSymbol "\x7b" = false) (hcloses : t.isSymbol "\x7d" = false) :
    rounds nestedRound depth env s = rounds nestedRound depth env (s.past [t]) := by
  have hgoes : (t.isSymbol ";" && depth == 0) = false := by
    rcases hend with hend | hend
    · simp [hend]
    · simp [hend]
  refine rounds_past h ?_
  simp only [nestedRound_eq h, hgoes, hopens, hcloses, Bool.false_eq_true, if_false]
  rfl

theorem nested_past_opening (h : s.Faces (t :: ts) post) (hopens : t.isSymbol "\x7b" = true) :
    rounds nestedRound depth env s = rounds nestedRound (depth + 1) env (s.past [t]) := by
  have hend := not_isSymbol_of_ne (u := ";") hopens (by decide)
  refine rounds_past h ?_
  simp only [nestedRound_eq h, hopens, hend, Bool.false_and, Bool.false_eq_true, if_false, if_true]
  rfl

theorem nested_past_closing (h : s.Faces (t :: ts) post) (hcloses : t.isSymbol "\x7d" = true) :
    rounds nestedRound (depth + 2) env s = rounds nestedRound (depth + 1) env (s.past [t]) := by
  have hend := not_isSymbol_of_ne (u := ";") hcloses (by decide)
  have hopens := not_isSymbol_of_ne (u := "\x7b") hcloses (by decide)
  refine rounds_past h ?_
  simp only [nestedRound_eq h, hopens, hend, hcloses, Bool.false_and, Bool.false_eq_true, if_false,
    if_true]
  rfl

/-- The brace that closes the declaration ends the skipping. -/
theorem nested_past_end (h : s.Faces (t :: ts) post) (hcloses : t.isSymbol "\x7d" = true) :
    rounds nestedRound 1 env s = (accept ";" >>= fun _ => pure ()) env (s.past [t]) := by
  have hend := not_isSymbol_of_ne (u := ";") hcloses (by decide)
  have hopens := not_isSymbol_of_ne (u := "\x7b") hcloses (by decide)
  have hround : nestedRound 1 env s = (accept ";" >>= fun _ => pure (.done ())) env (s.past [t]) := by
    simp only [nestedRound_eq h, hopens, hend, hcloses, Bool.false_and, Bool.false_eq_true, if_false,
      if_true, Nat.le_refl]
  rw [rounds, hround, bind_apply, bind_apply]
  cases accept ";" env (s.past [t]) <;> rfl

/-- Inside braces, tokens whose braces match are skipped. -/
theorem nested_past_balanced (hts : Balanced ts) :
    ∀ {depth : Nat} {s : State} {post : List Token}, s.Faces ts post →
      rounds nestedRound (depth + 1) env s = rounds nestedRound (depth + 1) env (s.past ts) := by
  induction hts with
  | nil =>
    intro depth s post _
    rw [past_nil]
  | @token t ts opens closes rest ih =>
    intro depth s post h
    rw [nested_past_token h (.inr (Nat.succ_ne_zero _)) opens closes, ih h.past_cons, ← past_cons]
  | @braces opening closing inner ts opens body closes rest ihbody ihrest =>
    intro depth s post h
    have hbody := h.past_cons
    have hclosing : ((s.past [opening]).past inner).Faces (closing :: ts) post := hbody.past
    calc rounds nestedRound (depth + 1) env s
        = rounds nestedRound (depth + 2) env (s.past [opening]) := nested_past_opening h opens
      _ = rounds nestedRound (depth + 2) env ((s.past [opening]).past inner) := ihbody hbody.of_append
      _ = rounds nestedRound (depth + 1) env (((s.past [opening]).past inner).past [closing]) :=
          nested_past_closing hclosing closes
      _ = rounds nestedRound (depth + 1) env ((((s.past [opening]).past inner).past [closing]).past ts) :=
          ihrest hclosing.past_cons
      _ = _ := by rw [← past_cons, ← past_append, ← past_cons]

theorem nested_past_header (hts : IsHeader ts) (h : s.Faces ts post) :
    rounds nestedRound 0 env s = rounds nestedRound 0 env (s.past ts) := by
  induction ts generalizing s with
  | nil => rw [past_nil]
  | cons t ts ih =>
    obtain ⟨hend, hopens, hcloses⟩ := hts t List.mem_cons_self
    rw [nested_past_token h (.inl hend) hopens hcloses,
      ih (fun v hv => hts v (List.mem_cons_of_mem t hv)) h.past_cons, ← past_cons]

/-- A declaration is skipped through its closing brace, and a semicolon behind it. -/
theorem skipNested_eq (env : Env) (hdecl : IsDeclaration keyword decl) (h : s.Faces decl post) :
    skipNested env s = (accept ";" >>= fun _ => pure ()) env (s.past decl) := by
  obtain @⟨header, body, opening, closing, name, word, named, head, opens, balanced, closes⟩ := hdecl
  have hkeyword : IsHeader [keyword] := by
    intro t ht
    rw [List.mem_singleton.mp ht]
    simp [Token.isSymbol, name, Token.Kind.isContent]
  have hheader : IsHeader (keyword :: header) := by
    intro t ht
    rcases List.mem_cons.mp ht with rfl | ht
    · exact hkeyword t (List.mem_singleton_self t)
    · exact head t ht
  have h₁ : s.Faces ((keyword :: header) ++ opening :: (body ++ [closing])) post := h
  have h₂ : (s.past (keyword :: header)).Faces (opening :: (body ++ [closing])) post := h₁.past
  have h₃ : ((s.past (keyword :: header)).past [opening]).Faces (body ++ [closing]) post := h₂.past_cons
  have h₄ := h₃.past
  rw [skipNested, nested_past_header hheader h₁.of_append, nested_past_opening h₂ opens,
    nested_past_balanced balanced h₃.of_append, nested_past_end h₄ closes, ← past_append,
    ← past_cons, ← past_append]
  rfl

/-! ## The round -/

theorem last_draw (n : Nat) : Keeps State.last (draw n) := by
  intro env s
  rw [← finalState_eq, draw_apply]
  split
  · obtain ⟨ts, e, hdraw⟩ := finalState_drawNext env s
    rw [hdraw]
    rfl
  · rfl

theorem last_peek : Keeps State.last peek :=
  .bind (last_draw 0) fun _ => .bind .get fun _ => .pure _

/-- A statement that has ended has still ended when a semicolon behind it is taken. -/
theorem ended_of_accept {b : Bool} (hs : s.last.any (endsStatement false) = true)
    (h : accept ";" env s = .ok b s') : s'.last.any (endsStatement false) = true := by
  obtain ⟨c, s₁, hcheck, h⟩ := bind_ok.mp h
  obtain ⟨t, s₂, hpeek, hc⟩ := bind_ok.mp hcheck
  have hlast : s₂.last = s.last := last_peek.of_ok hpeek
  cases hc
  split at h
  · rename_i hsymbol
    obtain ⟨t', s₃, hadvance, h⟩ := bind_ok.mp h
    cases h
    rw [advance_apply, peek_peek hpeek] at hadvance
    dsimp only at hadvance
    split at hadvance
    · cases hadvance
      rwa [hlast]
    · cases hadvance
      simp [State.take, endsStatement, hsymbol]
  · cases h
    rwa [hlast]

/-- Where a declaration comes next, no anonymous union starts. -/
theorem startsUnion_eq (env : Env) (hdecl : IsDeclaration keyword decl) (h : s.Faces decl post) :
    ∃ s', startsUnion keyword env s = .ok false s' ∧ s'.Faces decl post ∧ s'.past decl = s.past decl := by
  by_cases hunion : keyword.text = "union"
  · obtain @⟨header, body, opening, closing, name, word, named, head, opens, balanced, closes⟩ := hdecl
    cases header with
    | nil => exact absurd rfl (named hunion)
    | cons v vs =>
      obtain ⟨s', hpeek, hs', hpast⟩ := h.peekSecond env
      refine ⟨s', ?_, hs', hpast _⟩
      rw [startsUnion, if_pos hunion, bind_apply, hpeek]
      show EStateM.Result.ok (v.isSymbol "\x7b") s' = _
      rw [(head v List.mem_cons_self).2.1]
  · refine ⟨s, ?_, h, rfl⟩
    rw [startsUnion, if_neg hunion]
    rfl

theorem member_eq_nested (hdecl : IsDeclaration keyword decl) (hpeek : peek env s = .ok keyword s)
    (h : s.Faces decl post) :
    member d env s =
      (accept ";" >>= fun _ =>
        refuse keyword.location (.malformed (.nestedDeclaration keyword.text))) env (s.past decl) := by
  obtain ⟨s', hstarts, hs', hpast⟩ := startsUnion_eq env hdecl h
  have hskip := skipNested_eq env hdecl hs'
  cases hdecl with
  | intro name word =>
    rw [member, bind_apply, hpeek]
    simp only [name, not_isSymbol_of_name name, reduceCtorEq, if_false, ne_eq, not_true_eq_false,
      Bool.false_eq_true]
    rw [bind_apply, hstarts]
    simp only [List.contains_iff_mem.mpr word, if_true, Bool.false_eq_true, if_false]
    rw [bind_apply, hskip, hpast, bind_apply, bind_apply]
    cases accept ";" env _ <;> rfl

/-- The round of a body that meets a declaration takes it with a semicolon behind it, records one error
and leaves the draft as it is. -/
theorem memberRound_nested (hdecl : IsDeclaration keyword decl) (hpeek : peek env s = .ok keyword s₁)
    (h : s₁.Faces decl post) (hgoing : s.report.full = false) :
    memberRound d env s = (do
      let _ ← accept ";"
      report keyword.location (.malformed (.nestedDeclaration keyword.text))
      return .again d : Reader (Round Draft (Option Draft))) env (s₁.past decl) := by
  have hmember := member_eq_nested (d := d) hdecl (peek_peek hpeek) h
  have hlength : 0 < decl.length := by cases hdecl; simp
  have hname : keyword.kind = .identifier := by cases hdecl; assumption
  have hended : (s₁.past decl).last.any (endsStatement false) = true := by
    obtain @⟨header, body, opening, closing, name, word, named, head, opens, balanced, closes⟩ := hdecl
    have hlast : (keyword :: (header ++ opening :: (body ++ [closing]))).getLast? = some closing := by
      simp [List.getLast?_cons, List.getLast?_append]
    simp only [State.past, hlast, Option.some_or, Option.any_some, endsStatement, closes, Bool.or_true,
      Bool.true_or]
  have hne : keyword.kind ≠ .eof := by rw [hname]; decide
  rw [memberRound_attempt hgoing hpeek hne (not_isSymbol_of_name hname _), bind_apply, attempt,
    tryCatch_apply, hmember, bind_apply, bind_apply]
  cases haccept : accept ";" env (s₁.past decl) with
  | error e s₂ =>
    dsimp only
    cases e with
    | failed f => rfl
    | refused e => exact absurd haccept (Unrefused.accept _ env _ e s₂)
  | ok b s₂ =>
    have hle : (s₁.past decl).taken ≤ s₂.taken :=
      ((tokenPath_advances.accept _).of_ok haccept).taken
    have htaken : s₂.taken ≠ s₁.taken := by
      simp only [State.past] at hle
      omega
    have hsync (r : Report) : synchronize keyword.line s₁.taken false env { s₂ with report := r } =
        .ok () { s₂ with report := r } := by
      rw [synchronize, get_bind_apply, if_neg htaken, if_pos (ended_of_accept hended haccept)]
      rfl
    have hrefuse (e : Problem) : (refuse keyword.location e : Reader Draft) env s₂ =
        .error (.refused ⟨e, some keyword.location, none⟩) s₂ := rfl
    dsimp only
    rw [hrefuse]
    dsimp only
    rw [recover_refused, bind_apply, hsync]
    rfl

/-! ## Without the declaration -/

theorem Twin.standing_resuming {u x y : State}
    {errors : u.report.errors.length ≤ s.report.errors.length} (h : (resuming env true errors).Rel x y) :
    x.standing = y.standing ∧ x.settings = y.settings ∧ x.script = y.script := by
  have hunread : x.unread = y.unread := by
    obtain ⟨ts, hx, hy⟩ := h.unread
    rw [hx, hy]
    rfl
  refine ⟨?_, eq_of_view rfl h.settings, h.script rfl⟩
  simp only [State.standing, hunread, h.frames, h.ahead, h.eof, h.declared, h.commentSeen, h.constants,
    registry_resuming h, h.limit]

theorem accept_symbol {symbol : String} (h : s.Faces (t :: ts) post) (ht : t.isSymbol symbol = true) :
    accept symbol env s = .ok true (s.past [t]) := by
  obtain ⟨s', hpeek, hs', -, hpast⟩ := h.peek env
  have hcheck : check symbol env s = .ok true s' := by
    rw [check, bind_apply, hpeek]
    show EStateM.Result.ok (t.isSymbol symbol) s' = _
    rw [ht]
  rw [accept, bind_apply, hcheck]
  dsimp only
  rw [if_pos rfl, bind_apply, hs'.advance, hpast]
  rfl

/-- A reading that fails in a body fails as a whole. -/
theorem Between.failed {v : Token} {start : Nat} {typedef : Bool} {f : Failure}
    (h : Between env s₀ v start typedef d s) (hlive : s₀.Live)
    (hround : memberRound d env s = .error (.failed f) s') : (read env s₀).2 = some f := by
  have hmembers : members d env s = .error (.failed f) s' := by
    rw [members, rounds, hround]
  have hdescription : description env s₀ = .error (.failed f) s' := by
    rw [(h.description_eq hlive).1, bind_apply, restOfStatement, attempt, tryCatch_apply, bind_apply,
      hmembers]
    rfl
  rw [read, hdescription]

theorem not_full_of_initial {r r' : Report} (hlimit : r'.limit = r.limit)
    (herrors : r.errors <+: r'.errors) (h : r'.full = false) : r.full = false := by
  have hle := herrors.length_le
  simp only [Report.full, decide_eq_false_iff_not, hlimit] at h ⊢
  omega

/-- A round that leaves the draft as it is and records an error can be left out with its tokens, if the
reading without them gets to the same standing. -/
theorem Between.without_error {v : Token} {start : Nat} {typedef : Bool} {q r : State}
    {e : Diagnostic} {pre mid : List Token} (h : Between env s₀ v start typedef d s) (hlive : s₀.Live)
    (hahead : s.ahead = []) (hpeek : peek env s = .ok t s₁) (ht : t.kind ≠ .eof)
    (hstream : s₀.unread = pre ++ (mid ++ post)) (hmid : mid ≠ [])
    (hnext : s₁.ahead ++ s₁.unread = mid ++ post) (hround : memberRound d env s = .ok (.again d) q)
    (htaken : s.taken < q.taken) (hq : q = { r with report := r.report.add e })
    (hsame : ∀ w : State,
      w.standing = ((s.drawn (s.draw env)).skipTo post s.taken s.last s.notes).standing →
      w.settings = s.settings → w.script = s.script →
      w.report.errors = s.report.errors ++ (s.draw env).errors →
      ∃ w', Advances w w' ∧ (w.report.full = false → w'.report.full = false →
          members d env w = members d env w') ∧ r.standing = w'.standing ∧
        r.settings = w'.settings ∧ r.script = w'.script ∧ r.report.errors = w'.report.errors)
    (hfull : (read env s₀).1.report.full = false) :
    let r := read env s₀
    let r' := read env { s₀ with unread := pre ++ post }
    r.2 = r'.2 ∧ r.1.registry = r'.1.registry ∧ r.1.constants = r'.1.constants ∧
      r.1.settings = r'.1.settings ∧ r.1.script = r'.1.script ∧
      ∃ before after, r.1.report.errors = before ++ e :: after ∧
        r'.1.report.errors = before ++ after := by
  have hs : s.Live := (h.advances.live hlive).1
  obtain ⟨heof, hfound, hs₁⟩ := drawn_of_peek hs hahead hpeek ht
  have hrest : t :: (s.draw env).rest = mid ++ post := by
    rw [← hnext, hs₁]
    rfl
  have hshorter := (((Between.advancing_memberRound d).of_ok hround).live hs).2
  have hqfull : q.report.full = false := (h.next hround (by omega)).not_full hlive hfull
  have hqerrors : q.report.errors = r.report.errors ++ [e] := by rw [hq]; rfl
  have hlimit : q.report.limit = s.report.limit := ((Between.advancing_memberRound d).of_ok hround).limit
  have hprefix : r.report.errors <+: q.report.errors := hqerrors ▸ List.prefix_append _ _
  have hbefore : s.report.errors ++ (s.draw env).errors <+: q.report.errors := by
    obtain ⟨w', hadv, -, -, -, -, herrors⟩ :=
      hsame ((s.drawn (s.draw env)).skipTo post s.taken s.last s.notes) rfl rfl rfl rfl
    exact (hadv.errors.trans (herrors ▸ List.prefix_rfl)).trans hprefix
  obtain ⟨start', w₀, last, notes, warnings, hstart', -, -, hresume, hdescription⟩ :=
    h.resume hlive hahead heof hfound ht hstream hmid hrest (not_full_of_initial hlimit hbefore hqfull)
  generalize hw : { (s.drawn (s.draw env)).skipTo post s.taken last notes with
    report := ⟨s.report.limit, s.report.errors ++ (s.draw env).errors, warnings⟩ } = w at hresume
  obtain ⟨w', hadv, hmembers, hstanding, hsettings, hscript, herrors⟩ :=
    hsame w (by rw [← hw]; rfl) (by rw [← hw]; rfl) (by rw [← hw]; rfl) (by rw [← hw])
  have hle : w'.report.errors.length ≤ q.report.errors.length := by
    rw [hqerrors, herrors, List.length_append]
    exact Nat.le_add_right _ _
  have hrel : (Twin.resuming env true hle).Rel q w' := by
    have hqstanding : q.standing = w'.standing := by
      rw [← hstanding, hq]
      rfl
    refine Twin.rel_resuming true hle hqstanding ?_ fun _ => ?_
    · rw [hq, ← hsettings]
    · rw [hq]
      exact ⟨hsettings, hscript⟩
  have hstart : start' < w'.taken := Nat.lt_of_lt_of_le (by rw [← hw]; exact hstart') hadv.taken
  have hwfull : w.report.full = false := by
    rw [← hw]
    exact not_full_of_initial hlimit hbefore hqfull
  have hwfull' : w'.report.full = false := by
    refine not_full_of_initial ?_ (herrors ▸ hprefix) hqfull
    have hstands : r.report.limit = w'.report.limit := congrArg (·.2.2.2.2.2.2.2.2) hstanding
    rw [hq, ← hstands]
    rfl
  have hsplit := hresume.trans (restOfStatement_congr (hmembers hwfull hwfull'))
  obtain ⟨hmeets, -⟩ := h.meets_of_rel hlive hround htaken hsplit hdescription hstart hrel
  obtain ⟨hend, hfinal⟩ := Twin.rel_of_exact (T := .resuming env true hle) rfl rfl hmeets hfull
  obtain ⟨after, herrors₁, herrors₂⟩ := hfinal.errors
  refine ⟨hend, Twin.registry_resuming hfinal, hfinal.constants, Twin.eq_of_view rfl hfinal.settings,
    hfinal.script rfl, w'.report.errors, after, ?_, herrors₂⟩
  have happend : q.report.errors ++ after = w'.report.errors ++ e :: after := by
    rw [hqerrors, herrors, List.append_assoc, List.singleton_append]
  exact herrors₁.trans happend

theorem live_of_standing {w : State} (h : w.standing = s.standing) (hs : s.Live) : w.Live := by
  simp only [State.standing, Prod.mk.injEq] at h
  unfold State.Live at hs ⊢
  rwa [h.1, h.2.1, h.2.2.2.1]

/-- Two readings with the same standing look at the same token. -/
theorem exists_alike_of_peek {w r : State} (hpeek : peek env s = .ok t r) (hstanding : s.standing = w.standing)
    (hsettings : s.settings = w.settings) (hscript : s.script = w.script)
    (herrors : s.report.errors = w.report.errors) :
    ∃ w', peek env w = .ok t w' ∧ Advances w w' ∧ r.standing = w'.standing ∧
      r.settings = w'.settings ∧ r.script = w'.script ∧ r.report.errors = w'.report.errors := by
  have hle : w.report.errors.length ≤ s.report.errors.length := Nat.le_of_eq (by rw [herrors])
  have hrel : (Twin.resuming env true hle).Rel s w :=
    Twin.rel_resuming true hle hstanding (by rw [hsettings]) fun _ => ⟨hsettings, hscript⟩
  obtain ⟨_, w', hpeek', rfl, hrel'⟩ :=
    Twin.sim_peek.exists_ok (T := .resuming env true hle) rfl hrel hpeek
      (Twin.not_lost_of_errors hle herrors r)
  obtain ⟨hstanding', hsettings', hscript'⟩ := Twin.standing_resuming hrel'
  exact ⟨w', hpeek', Advancing.peek.of_ok hpeek', hstanding', hsettings', hscript',
    Twin.errors_resuming hrel' herrors⟩

theorem exists_peek_of_accept {b : Bool} {symbol : String} (h : accept symbol env s = .ok b s')
    (hother : ∀ v s', peek env s = .ok v s' → v.isSymbol symbol = false) :
    ∃ v, peek env s = .ok v s' := by
  obtain ⟨c, s₁, hcheck, h⟩ := bind_ok.mp h
  obtain ⟨v, s₂, hpeek, hc⟩ := bind_ok.mp hcheck
  cases hc
  rw [hother v s₁ hpeek, if_neg Bool.false_ne_true] at h
  cases h
  exact ⟨v, hpeek⟩

/-- The place behind tokens that come next where nothing was looked at. -/
theorem past_of_peek (hlive : s.Live) (hahead : s.ahead = []) (hpeek : peek env s = .ok t s₁)
    (ht : t.kind ≠ .eof) (hnext : s₁.Faces ts post) (hts : ts ≠ []) :
    s₁.past ts = (s.drawn (s.draw env)).skipTo post (s.taken + ts.length) (ts.getLast?.or s.last)
      (s.drawn (s.draw env)).notes := by
  obtain ⟨-, -, hs₁⟩ := drawn_of_peek hlive hahead hpeek ht
  have hlength : s₁.ahead.length ≤ ts.length := by
    rw [hs₁]
    exact List.length_pos_of_ne_nil hts
  rw [hnext.past_eq hlength, hs₁]
  rfl

/-- Where a declaration is written between two members, it is skipped through its closing brace and a
semicolon that follows, and costs one error, whatever was looked at before. If nothing was looked at,
the whole description is read as if the declaration and its semicolon were not there: the same types
and constants are declared, with the same settings, and the same script is written. -/
theorem nested_declaration_leaves_error {semicolon : List Token} (hdecl : IsDeclaration keyword decl)
    (hsemicolon : semicolon = [] ∨ ∃ c, semicolon = [c] ∧ c.isSymbol ";" = true)
    (hpeek : peek env s = .ok keyword s₁) (hnext : s₁.Faces (decl ++ semicolon) post)
    (hgoing : s.report.full = false) :
    (∀ d, memberRound d env s = (do
      let _ ← accept ";"
      report keyword.location (.malformed (.nestedDeclaration keyword.text))
      return .again d : Reader (Round Draft (Option Draft))) env (s₁.past decl)) ∧
    ∀ s₀ d₀ s₂ d pre, s₀.Live → Opens env s₀ d₀ s₂ → Runs memberRound env d₀ s₂ d s → s.ahead = [] →
      s₀.unread = pre ++ (decl ++ semicolon ++ post) →
      (semicolon = [] → ∀ v s', peek env (s₁.past decl) = .ok v s' → v.isSymbol ";" = false) →
      (read env s₀).2 = none → (read env s₀).1.report.full = false →
      let r := read env s₀
      let r' := read env { s₀ with unread := pre ++ post }
      r.2 = r'.2 ∧ r.1.registry = r'.1.registry ∧ r.1.constants = r'.1.constants ∧
        r.1.settings = r'.1.settings ∧ r.1.script = r'.1.script ∧
        ∃ before after, r.1.report.errors = before ++
            ⟨.malformed (.nestedDeclaration keyword.text), some keyword.location,
              some (env.sourceLine keyword.line)⟩ :: after ∧
          r'.1.report.errors = before ++ after := by
  have hround (d : Draft) := memberRound_nested (d := d) hdecl hpeek hnext.of_append hgoing
  refine ⟨hround, fun s₀ d₀ s₂ d pre hlive hopens hrun hahead hstream hend hnone hfull => ?_⟩
  obtain ⟨v, start, typedef, hbetween⟩ := hopens.between hrun
  have hs : s.Live := (hbetween.advances.live hlive).1
  obtain ⟨hname, hlength⟩ : keyword.kind = .identifier ∧ 0 < decl.length := by
    cases hdecl
    exact ⟨by assumption, by simp⟩
  have hne : keyword.kind ≠ .eof := by rw [hname]; decide
  have hmid : decl ++ semicolon ≠ [] := by
    simp [List.ne_nil_of_length_pos hlength]
  rcases hsemicolon with rfl | ⟨c, rfl, hc⟩
  · rw [List.append_nil] at hnext hstream hmid
    have hbehind := past_of_peek hs hahead hpeek hne hnext hmid
    cases haccept : accept ";" env (s₁.past decl) with
    | error x s' =>
      cases x with
      | refused e => exact absurd haccept (Unrefused.accept _ env _ e s')
      | failed f =>
        have hfailed := hbetween.failed hlive (by rw [hround d, bind_apply, haccept])
        rw [hfailed] at hnone
        cases hnone
    | ok b r =>
      have hq : memberRound d env s = .ok (.again d) { r with
          report := r.report.add ⟨.malformed (.nestedDeclaration keyword.text), some keyword.location,
            some (env.sourceLine keyword.line)⟩ } := by
        rw [hround d, bind_apply, haccept]
        rfl
      have htaken : s.taken < r.taken := by
        have hle := ((tokenPath_advances.accept ";").of_ok haccept).taken
        rw [hbehind] at hle
        exact Nat.lt_of_lt_of_le (Nat.lt_add_of_pos_right hlength) hle
      refine hbetween.without_error hlive hahead hpeek hne hstream hmid hnext.stream hq htaken rfl
        (fun w hw hsettings hscript herrors => ?_) hfull
      -- the next token has been looked at; without the declaration it is looked at here
      obtain ⟨v, hlook⟩ := exists_peek_of_accept haccept (hend rfl)
      rw [hbehind] at hlook
      have hw' : w.Live := by
        have hbehind' : (s₁.past decl).Faces [] post := State.Faces.past (by rwa [List.append_nil])
        rw [hbehind] at hbehind'
        exact live_of_standing hw hbehind'.live
      obtain ⟨w', hpeek', hadv, hstanding⟩ :=
        exists_alike_of_peek hlook hw.symm hsettings.symm hscript.symm herrors.symm
      have hle := hadv.taken
      obtain ⟨hlive', hleft⟩ := hadv.live hw'
      refine ⟨w', hadv, fun hwfull hwfull' => ?_, hstanding⟩
      exact members_eq_of_peek (hpeek'.trans (peek_peek hpeek').symm) hwfull hwfull' hlive' (by omega)
  · have haccept : accept ";" env (s₁.past decl) = .ok true (s₁.past (decl ++ [c])) := by
      have hpast : (s₁.past decl).Faces [c] post := hnext.past
      rw [accept_symbol hpast hc, ← past_append]
    have hbehind := past_of_peek hs hahead hpeek hne hnext hmid
    have hq : memberRound d env s = .ok (.again d) { s₁.past (decl ++ [c]) with
        report := (s₁.past (decl ++ [c])).report.add
          ⟨.malformed (.nestedDeclaration keyword.text), some keyword.location,
            some (env.sourceLine keyword.line)⟩ } := by
      rw [hround d, bind_apply, haccept]
      rfl
    rw [hbehind] at hq
    refine hbetween.without_error hlive hahead hpeek hne hstream hmid hnext.stream hq
      (Nat.lt_add_of_pos_right (by simp)) rfl (fun w hw hsettings hscript herrors => ?_) hfull
    exact ⟨w, .refl w, fun _ _ => rfl, hw.symm, hsettings.symm, hscript.symm, herrors.symm⟩

def lookedAt? (env : Env) (s : State) : Option (Token × State) :=
  match peek env s with
  | .ok t s' => some (t, s')
  | .error _ _ => none

theorem peek_of_lookedAt? {x : Token × State} (h : lookedAt? env s = some x) :
    peek env s = .ok x.1 x.2 := by
  unfold lookedAt? at h
  split at h
  · cases h
    assumption
  · cases h

def bodyHead : List Token :=
  [⟨.identifier, "struct", "", 1, 1⟩, ⟨.identifier, "A", "", 1, 8⟩, ⟨.leftBrace, "\x7b", "", 1, 10⟩,
   ⟨.identifier, "Uint8", "", 2, 1⟩, ⟨.identifier, "a", "", 2, 7⟩, ⟨.semicolon, ";", "", 2, 8⟩]

def nestedKeyword : Token := ⟨.identifier, "struct", "", 3, 1⟩

def nestedStruct : List Token :=
  nestedKeyword ::
    ([⟨.identifier, "B", "", 3, 8⟩, ⟨.colon, ":", "", 3, 9⟩, ⟨.identifier, "P", "", 3, 10⟩] ++
      ⟨.leftBrace, "\x7b", "", 3, 11⟩ ::
      ([⟨.identifier, "union", "", 4, 1⟩, ⟨.leftBrace, "\x7b", "", 4, 7⟩, ⟨.identifier, "x", "", 4, 8⟩,
        ⟨.rightBrace, "\x7d", "", 4, 9⟩, ⟨.semicolon, ";", "", 4, 10⟩] ++
      [⟨.rightBrace, "\x7d", "", 5, 1⟩]))

def bodyTail : List Token :=
  [⟨.directive, "#if", "", 6, 1⟩, ⟨.number, "1", "", 6, 5⟩, ⟨.newline, "", "", 6, 6⟩,
   ⟨.identifier, "Uint16", "", 7, 1⟩, ⟨.identifier, "b", "", 7, 8⟩, ⟨.semicolon, ";", "", 7, 9⟩,
   ⟨.directive, "#endif", "", 8, 1⟩, ⟨.newline, "", "", 8, 7⟩,
   ⟨.rightBrace, "\x7d", "", 9, 1⟩, ⟨.semicolon, ";", "", 9, 2⟩, ⟨.eof, "", "", 10, 1⟩]

theorem isDeclaration_nestedStruct : IsDeclaration nestedKeyword nestedStruct := by
  refine .intro rfl (by decide) (by decide) ?_ rfl ?_ rfl
  · unfold IsHeader
    decide
  · have hinner : Balanced [⟨.identifier, "x", "", 4, 8⟩] := .token rfl rfl .nil
    exact .token rfl rfl (.braces rfl hinner rfl (.token rfl rfl .nil))

/-- The struct inside costs one error, and both fields around it are laid out. -/
theorem nested_declaration_leaves_error_struct :
    let env : Env := ⟨"__", fun _ => ""⟩
    let r := read env { unread := bodyHead ++ (nestedStruct ++ bodyTail) }
    let r' := read env { unread := bodyHead ++ bodyTail }
    r.1.registry.types.map (fun t => t.fields.map (·.name)) = [["a", "b"]] ∧
      r.2 = r'.2 ∧ r.1.registry = r'.1.registry ∧ r.1.constants = r'.1.constants ∧
      r.1.settings = r'.1.settings ∧ r.1.script = r'.1.script ∧
      ∃ before after, r.1.report.errors = before ++
          ⟨.malformed (.nestedDeclaration "struct"), some ⟨"", 3, 1⟩, some ""⟩ :: after ∧
        r'.1.report.errors = before ++ after := by
  let env : Env := ⟨"__", fun _ => ""⟩
  let s₀ : State := { unread := bodyHead ++ (nestedStruct ++ [] ++ bodyTail) }
  have hlive : s₀.Live := ⟨nofun, fun _ => rfl⟩
  have h : ∃ x ∈ firstBody? env .struct s₀, ∃ v ∈ runs? memberRound env 1 x.1 x.2, v.2.ahead = [] ∧
      v.2.report.full = false ∧ ∃ y ∈ lookedAt? env v.2, y.1 = nestedKeyword ∧
        y.2.ahead ++ y.2.unread = nestedStruct ++ [] ++ bodyTail ∧
        ∃ z ∈ lookedAt? env (y.2.past nestedStruct), z.1.text = "Uint16" := by
    decide +kernel
  obtain ⟨x, hx, v, hv, hahead, hgoing, y, hy, hkeyword, hstream, z, hz, htext⟩ := h
  have hpeek := peek_of_lookedAt? hy
  have hopens := opens_of_firstBody? hx
  have hrun : Runs memberRound env x.1 x.2 v.1 v.2 := runs_of_runs? hv
  have hy' : y.2.Live := by
    obtain ⟨_, _, _, hbetween⟩ := hopens.between hrun
    exact ((hbetween.advances.trans (Advancing.peek.of_ok hpeek)).live hlive).1
  rw [hkeyword] at hpeek
  have hplain : ∀ t ∈ nestedStruct ++ [], Plain t := by
    unfold Plain
    decide
  refine ⟨by decide +kernel, ?_⟩
  refine (nested_declaration_leaves_error isDeclaration_nestedStruct (.inl rfl) hpeek
    ⟨hplain, hstream, hy'⟩ hgoing).2 s₀ x.1 x.2 v.1 bodyHead hlive hopens hrun hahead rfl
    (fun _ t s' ht => ?_) (by decide +kernel) (by decide +kernel)
  rw [peek_of_lookedAt? hz] at ht
  cases ht
  simp [Token.isSymbol, htext]

def nestedTypedef : List Token :=
  [⟨.identifier, "struct", "", 1, 1⟩, ⟨.identifier, "A", "", 1, 8⟩, ⟨.leftBrace, "\x7b", "", 1, 10⟩,
   ⟨.identifier, "typedef", "", 2, 1⟩, ⟨.identifier, "struct", "", 2, 9⟩, ⟨.leftBrace, "\x7b", "", 2, 16⟩,
   ⟨.identifier, "uint8_t", "", 2, 18⟩, ⟨.identifier, "x", "", 2, 26⟩, ⟨.semicolon, ";", "", 2, 27⟩,
   ⟨.rightBrace, "\x7d", "", 2, 29⟩, ⟨.identifier, "B", "", 2, 31⟩, ⟨.semicolon, ";", "", 2, 32⟩,
   ⟨.identifier, "uint8_t", "", 3, 1⟩, ⟨.identifier, "y", "", 3, 9⟩, ⟨.semicolon, ";", "", 3, 10⟩,
   ⟨.rightBrace, "\x7d", "", 4, 1⟩, ⟨.semicolon, ";", "", 4, 2⟩, ⟨.eof, "", "", 5, 1⟩]

/-- The name of a typedef stands behind its closing brace, and is read as a field. -/
theorem nested_typedef_costs_two_errors :
    (read ⟨"__", fun _ => ""⟩ { unread := nestedTypedef }).1.report.errors.map (·.problem) =
      [.malformed (.nestedDeclaration "typedef"),
        .malformed (.expected .fieldName (.text ";"))] := by
  decide +kernel

end RecordView.Declaration
