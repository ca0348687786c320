import RecordView.Proofs.Declaration.Passing
import RecordView.Proofs.Declaration.Resumption
import RecordView.Proofs.Token.DirectiveLine

/-! A directive that is refused costs one error, and the reading goes on behind its line, unless
something in the line ends a statement. -/
namespace RecordView.Declaration
open Reader

variable {α : Type} {env : Env} {s s' s₁ s₂ : State} {t mark newline : Token} {ts body post : List Token}
  {e : Diagnostic} {line : Nat} {commaEnds : Bool}

/-! ## Where a directive is refused -/

def State.adopt (s u : State) : State :=
  { s with settings := u.settings, script := u.script, notes := u.notes }

/-- A reading from `s`, where the tokens `ts` come next, has stopped in the midst of them in `s₂`; only
the settings, the script and the remarks have changed. -/
def Stops (s : State) (ts post : List Token) (s₂ : State) : Prop :=
  ∃ before rest, ts = before ++ rest ∧ rest ≠ [] ∧ s₂.Faces rest post ∧
    s₂.taken = s.taken + before.length ∧ s₂.last = before.getLast?.or s.last ∧
    s₂.past rest = (s.past ts).adopt s₂

namespace Stops

theorem here (h : s.Faces ts post) (hts : ts ≠ []) : Stops s ts post s :=
  ⟨[], ts, rfl, hts, h, rfl, rfl, rfl⟩

theorem cons (h : Stops (s.past [t]) ts post s₂) : Stops s (t :: ts) post s₂ := by
  obtain ⟨before, rest, rfl, hrest, hfaces, htaken, hlast, hpast⟩ := h
  refine ⟨t :: before, rest, rfl, hrest, hfaces, ?_, ?_, ?_⟩
  · rw [htaken, List.length_cons]
    simp only [State.past, List.length_singleton]
    omega
  · rw [hlast, List.getLast?_cons]
    cases before.getLast? <;> rfl
  · rw [hpast, past_cons s t (before ++ rest)]

/-- Looking at the next token before makes no difference. -/
theorem of_peek (hsame : s' = { s with ahead := s'.ahead, unread := s'.unread })
    (hpast : ∀ us, s'.past (t :: us) = s.past (t :: us)) (h : Stops s' (t :: ts) post s₂) :
    Stops s (t :: ts) post s₂ := by
  obtain ⟨before, rest, heq, hrest, hfaces, htaken, hlast, hpast'⟩ := h
  refine ⟨before, rest, heq, hrest, hfaces, ?_, ?_, ?_⟩
  · rw [htaken, hsame]
  · rw [hlast, hsame]
  · rw [hpast', hpast]

theorem of_settings {u : Settings} {c : Script} {ns : List Note}
    (h : Stops { s with settings := u, script := c, notes := ns } ts post s₂) : Stops s ts post s₂ := h

end Stops

/-- Comments at the end of a directive line are passed. -/
theorem endOfDirective_comment (h : s.Faces (t :: ts) post) (ht : t.kind = .comment) :
    endOfDirective env s = endOfDirective env (s.past [t]) := by
  have hround : commentRound () env s = .ok (.again ()) (s.past [t]) := by
    obtain ⟨s', hpeek, hs', -, hpast⟩ := h.peek env
    rw [commentRound, bind_apply, hpeek]
    dsimp only
    rw [if_pos ht, bind_apply, hs'.advance, hpast]
    rfl
  rw [endOfDirective, bind_apply, bind_apply, rounds_past h hround]

/-- Another token is either the end of the line or refused. -/
theorem stops_of_endOfDirective_other (h : s.Faces (t :: ts) post) (ht : t.kind ≠ .comment)
    (hrefused : endOfDirective env s = .error (.refused e) s₂) : Stops s (t :: ts) post s₂ := by
  obtain ⟨s', hpeek, hs', hsame, hpast⟩ := h.peek env
  have hcomments : rounds commentRound () env s = .ok () s' := by
    have hround : commentRound () env s = .ok (.done ()) s' := by
      rw [commentRound, bind_apply, hpeek]
      dsimp only
      rw [if_neg ht]
      rfl
    rw [rounds, hround]
  rw [endOfDirective, bind_apply, hcomments] at hrefused
  dsimp only at hrefused
  rw [bind_apply, peek_peek hpeek] at hrefused
  dsimp only at hrefused
  split at hrefused
  · rw [bind_apply, hs'.advance] at hrefused
    cases hrefused
  · rw [if_pos h.ne_eof] at hrefused
    cases hrefused
    exact .of_peek hsame hpast (.here hs' (List.cons_ne_nil _ _))

theorem stops_of_endOfDirective (h : s.Faces (body ++ [newline]) post) (hnewline : newline.kind = .newline)
    (hrefused : endOfDirective env s = .error (.refused e) s₂) : Stops s (body ++ [newline]) post s₂ := by
  induction body generalizing s with
  | nil => exact stops_of_endOfDirective_other h (by simp [hnewline]) hrefused
  | cons t body ih =>
    by_cases ht : t.kind = .comment
    · rw [endOfDirective_comment h ht] at hrefused
      exact .cons (ih h.past_cons hrefused)
    · exact stops_of_endOfDirective_other h ht hrefused

/-- A setting that is applied changes no more than the settings or the script. -/
theorem applySetting_cases (name value : String) (env : Env) (s : State) :
    (∃ u c, applySetting name value env s = .ok () { s with settings := u, script := c }) ∨
      ∃ e, applySetting name value env s = .error e s := by
  rw [applySetting_eq, get_bind_apply]
  split
  · exact .inl ⟨s.settings, _, rfl⟩
  · cases s.settings.apply name value s.declared with
    | ok u => exact .inl ⟨u, s.script, rfl⟩
    | error r => exact .inr ⟨_, rfl⟩

/-- A token that is looked at and refused stops the reading there. -/
theorem stops_of_peek (h : s.Faces (t :: ts) post) (hpeek : peek env s = .ok t s') :
    Stops s (t :: ts) post s' := by
  obtain ⟨s₁, hpeek', hs₁, hsame, hpast⟩ := h.peek env
  rw [hpeek] at hpeek'
  cases hpeek'
  exact .of_peek hsame hpast (.here hs₁ (List.cons_ne_nil _ _))

/-- The value of a pragma, through the end of its line. -/
theorem stops_of_value {name : Token} (h : s.Faces (body ++ [newline]) post)
    (hnewline : newline.kind = .newline)
    (hrefused : (do
      let value ← peek
      if value.kind = .other ∧ value.text.toList.head? = some '(' then
        let _ ← advance
        refuse value.location (.malformed (.pragmaUnclosed name.text))
      settingValue mark name value : Reader Unit) env s = .error (.refused e) s₂) :
    Stops s (body ++ [newline]) post s₂ := by
  cases body with
  | nil =>
    obtain ⟨s', hpeek, -⟩ := h.peek env
    rw [bind_apply, hpeek] at hrefused
    simp only [settingValue, hnewline, reduceCtorEq, false_and, if_false, ne_eq, not_false_eq_true,
      if_true] at hrefused
    cases hrefused
    exact stops_of_peek h hpeek
  | cons value body =>
    obtain ⟨s', hpeek, hs', -, hpast⟩ := h.peek env
    have hrest : (s.past [value]).Faces (body ++ [newline]) post := h.past_cons
    rw [bind_apply, hpeek] at hrefused
    dsimp only at hrefused
    split at hrefused
    · rw [bind_apply, hs'.advance, hpast] at hrefused
      cases hrefused
      exact .cons (.here hrest (by simp))
    unfold settingValue at hrefused
    dsimp only at hrefused
    split at hrefused
    · cases hrefused
      exact stops_of_peek h hpeek
    rw [bind_apply, hs'.advance, hpast] at hrefused
    dsimp only at hrefused
    rw [bind_apply] at hrefused
    refine .cons ?_
    rcases applySetting_cases name.text value.text env (s.past [value]) with ⟨u, c, happly⟩ | ⟨x, happly⟩
    · rw [happly] at hrefused
      dsimp only at hrefused
      rw [bind_apply, log] at hrefused
      by_cases hwritable : (Note.setting mark.line name.text value.text).writable = true
      · let q : State := { s.past [value] with
          settings := u, script := c
          notes := (s.past [value]).notes ++ [.setting mark.line name.text value.text] }
        have hq : q.Faces (body ++ [newline]) post := ⟨hrest.plain, hrest.stream, hrest.live⟩
        rw [if_pos hwritable] at hrefused
        have hend : endOfDirective env q = .error (.refused e) s₂ := hrefused
        exact (stops_of_endOfDirective hq hnewline hend).of_settings
      · rw [if_neg hwritable] at hrefused
        cases hrefused
    · rw [happly] at hrefused
      cases hrefused
      exact .here hrest (by simp)

/-- A directive that is refused has taken its mark, and has not taken the end of its line. -/
theorem stops_of_directive (hahead : s.ahead = mark :: ts) (hmark : mark.kind ≠ .eof)
    (hbody : (s.past [mark]).Faces (body ++ [newline]) post) (hnewline : newline.kind = .newline)
    (hrefused : directive env s = .error (.refused e) s₂) :
    Stops (s.past [mark]) (body ++ [newline]) post s₂ := by
  have hadvance : advance env s = .ok mark (s.past [mark]) := by
    rw [advance_apply, peek_of_ahead hahead]
    dsimp only
    rw [if_neg hmark, State.Faces.take_eq hahead]
  rw [directive, bind_apply, hadvance] at hrefused
  dsimp only at hrefused
  generalize s.past [mark] = a at hbody hrefused ⊢
  split at hrefused
  · cases hrefused
    exact .here hbody (by simp)
  cases body with
  | nil =>
    obtain ⟨a', hpeek, -⟩ := hbody.peek env
    rw [bind_apply, hpeek] at hrefused
    dsimp only at hrefused
    rw [if_pos (by simp [hnewline])] at hrefused
    cases hrefused
    exact stops_of_peek hbody hpeek
  | cons name body =>
    obtain ⟨a', hpeek, ha', -, hpast⟩ := hbody.peek env
    rw [bind_apply, hpeek] at hrefused
    dsimp only at hrefused
    split at hrefused
    · cases hrefused
      exact stops_of_peek hbody hpeek
    rw [bind_apply, ha'.advance, hpast] at hrefused
    exact .cons (stops_of_value hbody.past_cons hnewline hrefused)

/-! ## Going on behind the line -/

/-- A token that recovery passes: it stands on the line of the refused statement, and neither ends a
statement nor starts a directive. -/
def Passable (line : Nat) (commaEnds : Bool) (t : Token) : Prop :=
  t.kind ≠ .directive ∧ t.line ≤ line ∧ endsStatement commaEnds t = false

theorem skipStatement_past (hts : ∀ t ∈ ts, Passable line commaEnds t) (h : s.Faces ts post) :
    skipStatement line commaEnds env s = skipStatement line commaEnds env (s.past ts) := by
  induction ts generalizing s with
  | nil => rw [past_nil]
  | cons t ts ih =>
    obtain ⟨hkind, hline, hends⟩ := hts t List.mem_cons_self
    simp only [endsStatement, Bool.or_eq_false_iff] at hends
    have hround : skipRound line commaEnds () env s = .ok (.again ()) (s.past [t]) := by
      obtain ⟨s', hpeek, hs', -, hpast⟩ := h.peek env
      rw [skipRound, bind_apply, hpeek]
      dsimp only
      rw [if_neg (by simp [h.ne_eof, hkind, hline]), if_neg (by simp [hends.1.1, hends.2]),
        if_neg (by simp [hends.1.2]), bind_apply, hs'.advance, hpast]
      rfl
    rw [past_cons, ← ih (fun v hv => hts v (List.mem_cons_of_mem t hv)) h.past_cons]
    exact rounds_past h hround

/-- Recovery ends where the next token stands further down. -/
theorem skipStatement_ends (h : ∀ v s', peek env s = .ok v s' → v.kind = .eof ∨ line < v.line) :
    skipStatement line commaEnds env s = (peek >>= fun _ => pure ()) env s := by
  rw [skipStatement, rounds, skipRound, bind_apply, bind_apply]
  cases hpeek : peek env s with
  | error e s' => rfl
  | ok v s' =>
    dsimp only
    rw [if_pos (by rcases h v s' hpeek with hv | hv <;> simp [hv])]
    rfl

/-- What is looked at comes next, or the input ends. -/
theorem mem_of_peek (h : s.Faces [] post) (hpeek : peek env s = .ok t s') : t.kind = .eof ∨ t ∈ post := by
  have hstream : s.ahead ++ s.unread = post := h.stream
  by_cases ht : t.kind = .eof
  · exact .inl ht
  right
  cases hahead : s.ahead with
  | cons v vs =>
    rw [peek_of_ahead hahead] at hpeek
    cases hpeek
    rw [← hstream, hahead]
    exact List.mem_cons_self
  | nil =>
    obtain ⟨-, hfound, -⟩ := drawn_of_peek h.live hahead hpeek ht
    obtain ⟨-, before, hunread, -⟩ := (Frames.draws _ _ _ _).seen_append hfound ht
    rw [hahead, List.nil_append] at hstream
    rw [← hstream, hunread]
    simp

def State.behindLine (s : State) (line : List Token) (s₂ : State) (e : Diagnostic) : State :=
  { (s.past line).adopt s₂ with report := s.report.add e }

/-- A refused directive is recorded, and the reading goes on behind its line if all tokens of the line
are passed and what follows stands further down. -/
theorem attempt_refused {m : Reader α} {fallback : α}
    (hstops : Stops (s.past [mark]) (body ++ [newline]) post s₂) (hrefused : m env s = .error (.refused e) s₂)
    (hmark : endsStatement commaEnds mark = false)
    (hbody : ∀ t ∈ body ++ [newline], Passable mark.line commaEnds t)
    (hpost : ∀ t ∈ post, t.kind = .eof ∨ mark.line < t.line) :
    attempt mark s.taken commaEnds fallback m env s =
      (peek >>= fun _ => pure fallback) env
        (s.behindLine (mark :: (body ++ [newline])) s₂ (located env e mark)) := by
  obtain ⟨before, rest, hline, hrest, hfaces, htaken, hlast, hpast⟩ := hstops
  have hlast' : s₂.last.any (endsStatement commaEnds) = false := by
    rw [hlast]
    cases hbefore : before.getLast? with
    | none => exact hmark
    | some t =>
      have ht : t ∈ body ++ [newline] := hline ▸ List.mem_append_left _ (List.mem_of_getLast? hbefore)
      exact (hbody t ht).2.2
  have htaken' : s₂.taken ≠ s.taken := by
    rw [htaken]
    simp only [State.past, List.length_singleton]
    omega
  have hreport : (s₂.past rest).report = (((s.past [mark]).past (body ++ [newline])).adopt s₂).report :=
    congrArg State.report hpast
  -- recovery passes what is left of the line
  let q : State := { s₂ with report := s₂.report.add (located env e mark) }
  have hq : q.Faces rest post := ⟨hfaces.plain, hfaces.stream, hfaces.live⟩
  have hbehind : q.past rest = s.behindLine (mark :: (body ++ [newline])) s₂ (located env e mark) := by
    have hq : q.past rest = { s₂.past rest with
      report := (s₂.past rest).report.add (located env e mark) } := rfl
    rw [hq, hreport, hpast, ← past_cons]
    rfl
  have hpassed : ∀ t ∈ rest, Passable mark.line commaEnds t := fun t ht =>
    hbody t (hline ▸ List.mem_append_right _ ht)
  have hafter : (q.past rest).Faces [] post := State.Faces.past (by rwa [List.append_nil])
  have hskip : skipStatement mark.line commaEnds env q =
      (peek >>= fun _ => pure ()) env (q.past rest) := by
    rw [skipStatement_past hpassed hq, skipStatement_ends fun v s' hpeek => ?_]
    rcases mem_of_peek hafter hpeek with hv | hv
    · exact .inl hv
    · exact hpost v hv
  have hsync : synchronize mark.line s.taken commaEnds env q =
      (peek >>= fun _ => pure ()) env (q.past rest) := by
    rw [synchronize, get_bind_apply, if_neg htaken', hlast', if_neg Bool.false_ne_true, hskip]
  rw [attempt, tryCatch_apply, hrefused]
  dsimp only
  rw [recover_refused, bind_apply, hsync, hbehind, bind_apply, bind_apply]
  cases peek env _ <;> rfl

/-! ## Statements, members and enumerators -/

theorem statement_eq_directive (hpeek : peek env s = .ok t s) (ht : t.kind = .directive) :
    statement env s = directive env s := by
  rw [statement, bind_apply, hpeek]
  simp [ht]

theorem enumMember_eq_directive {d : EnumDraft} (hpeek : peek env s = .ok t s) (ht : t.kind = .directive) :
    enumMember d env s = (directive >>= fun _ => pure d) env s := by
  rw [enumMember, bind_apply, hpeek]
  simp [ht]

theorem endsStatement_of_text (hsemicolon : t.text ≠ ";") (hbrace : t.text ≠ "\x7d") (hcomma : t.text ≠ ",") :
    endsStatement commaEnds t = false := by
  simp [endsStatement, Token.isSymbol, hsemicolon, hbrace, hcomma]

/-- The rest of a directive line comes next behind its mark. -/
theorem faces_of_line (hlive : s.Live) (hahead : s.ahead = mark :: ts)
    (hline : ts ++ s.unread = body ++ newline :: post) (hends : Token.EndsLine body newline post) :
    (s.past [mark]).Faces (body ++ [newline]) post := by
  have hplain : ∀ t ∈ body ++ [newline], Plain t := by
    intro t ht
    rcases List.mem_append.mp ht with ht | ht
    · have hinner := hends.body t ht
      simp only [Token.Kind.inner, Bool.and_eq_true, bne_iff_ne] at hinner
      exact plain_of_kind hinner.2 hinner.1.1
    · rw [List.mem_singleton.mp ht]
      exact plain_of_kind (by simp [hends.kind]) (by simp [hends.kind])
  refine ⟨hplain, ?_, live_past hlive _⟩
  simp [State.past, hahead, hline]

/-- Where nothing in a directive line ends a statement, recovery passes the whole line. -/
theorem passable_of_line (hends : Token.EndsLine body newline post)
    (hline : ∀ t ∈ body ++ [newline], t.line = line) (hbody : ∀ t ∈ body, endsStatement commaEnds t = false) :
    ∀ t ∈ body ++ [newline], Passable line commaEnds t := by
  intro t ht
  have hle : t.line ≤ line := Nat.le_of_eq (hline t ht)
  rcases List.mem_append.mp ht with ht | ht
  · have hinner := hends.body t ht
    simp only [Token.Kind.inner, Bool.and_eq_true, bne_iff_ne] at hinner
    exact ⟨hinner.1.1, hle, hbody t ht⟩
  · rw [List.mem_singleton.mp ht] at hle ⊢
    refine ⟨by simp [hends.kind], hle, endsStatement_of_text ?_ ?_ ?_⟩ <;> simp [hends.text]

/-- The tokens of a stream up to the first end of a line are determined by it. -/
theorem cut_unique {body' post' : List Token} {newline' : Token} (hbody : ∀ t ∈ body, t.kind ≠ .newline)
    (hbody' : ∀ t ∈ body', t.kind ≠ .newline) (hkind : newline.kind = .newline)
    (hkind' : newline'.kind = .newline) (h : body ++ newline :: post = body' ++ newline' :: post') :
    body = body' ∧ newline = newline' ∧ post = post' := by
  induction body generalizing body' with
  | nil =>
    cases body' with
    | nil => simpa using h
    | cons t body' =>
      cases h
      exact absurd hkind (hbody' _ List.mem_cons_self)
  | cons t body ih =>
    cases body' with
    | nil =>
      cases h
      exact absurd hkind' (hbody _ List.mem_cons_self)
    | cons t' body' =>
      simp only [List.cons_append, List.cons.injEq] at h
      obtain ⟨rfl, hrest⟩ := h
      have hcut := ih (fun u hu => hbody u (List.mem_cons_of_mem _ hu))
        (fun u hu => hbody' u (List.mem_cons_of_mem _ hu)) hrest
      simpa using hcut

/-- A directive of a text that is refused costs one error. Its line goes up to the first end of a line
behind it. If that is one line of the text, and nothing in it ends a statement, the reading goes on with
what comes after the line, wherever the directive stands: between statements, between members or in an
enum. -/
theorem refused_directive_costs_one_error {file source : String} {tokens : List Token}
    (hscan : Token.scan file source = .ok tokens) (hlive : s.Live) (hgoing : s.report.full = false)
    (hpeek : peek env s = .ok mark s₁) (hmark : mark.kind = .directive)
    (hplace : s₁.ahead ++ s₁.unread <:+ tokens)
    (hrefused : directive env s₁ = .error (.refused e) s₂) :
    (∃ body newline post, s₁.ahead ++ s₁.unread = mark :: (body ++ newline :: post) ∧
      newline.kind = .newline ∧ ∀ t ∈ body, t.kind ≠ .newline) ∧
    ∀ body newline post, s₁.ahead ++ s₁.unread = mark :: (body ++ newline :: post) →
      newline.kind = .newline → (∀ t ∈ body, t.kind ≠ .newline) →
      (∀ t ∈ body ++ [newline], t.line = mark.line) →
      let next := s₁.behindLine (mark :: (body ++ [newline])) s₂ (located env e mark)
      ((∀ t ∈ body, endsStatement false t = false) →
        statementRound () env s = (peek >>= fun _ => pure (.again ())) env next ∧
        ∀ d, memberRound d env s = (peek >>= fun _ => pure (.again d)) env next) ∧
      ((∀ t ∈ body, endsStatement true t = false) →
        ∀ keyword d, enumRound keyword d env s = (peek >>= fun _ => pure (.again d)) env next) := by
  have hne : mark.kind ≠ .eof := by rw [hmark]; decide
  have hlive₁ : s₁.Live := ((Advancing.peek.of_ok hpeek).live hlive).1
  obtain ⟨us, hahead⟩ := exists_ahead hpeek hne hlive₁
  have hsuffix : mark :: (us ++ s₁.unread) <:+ tokens := by
    rwa [hahead] at hplace
  obtain ⟨hsign, body, newline, post, hline, hends, hbelow⟩ :=
    (Token.scanned_of_scan hscan).lined mark _ hsuffix hmark
  have hstream : s₁.ahead ++ s₁.unread = mark :: (body ++ newline :: post) := by
    rw [hahead, List.cons_append, hline]
  have hinside : ∀ t ∈ body, t.kind ≠ .newline := by
    intro t ht
    have hinner := hends.body t ht
    simp only [Token.Kind.inner, Bool.and_eq_true, bne_iff_ne] at hinner
    exact hinner.1.2
  refine ⟨⟨body, newline, post, hstream, hends.kind, hinside⟩,
    fun body' newline' post' hstream' hkind' hinside' hlines => ?_⟩
  -- there is only one way to cut the line
  have hcut : body = body' ∧ newline = newline' ∧ post = post' := by
    have heq : body ++ newline :: post = body' ++ newline' :: post' :=
      (List.cons.inj (hstream.symm.trans hstream')).2
    exact cut_unique hinside hinside' hends.kind hkind' heq
  obtain ⟨rfl, rfl, rfl⟩ := hcut
  have hstops := stops_of_directive hahead hne (faces_of_line hlive₁ hahead hline hends) hends.kind hrefused
  have hstart (commaEnds : Bool) : endsStatement commaEnds mark = false := by
    have hne (text : String) (htext : text.toList.head? ≠ some '#') : mark.text ≠ text := by
      rintro rfl
      exact htext hsign
    exact endsStatement_of_text (hne _ (by decide)) (hne _ (by decide)) (hne _ (by decide))
  have hpeek₁ := peek_peek hpeek
  have hpost : ∀ t ∈ post, t.kind = .eof ∨ mark.line < t.line := by
    intro t ht
    rw [← hlines newline (by simp)]
    exact hends.post t ht
  have hbrace : mark.isSymbol "\x7d" = false := by
    have hends := hstart false
    simp only [endsStatement, Bool.or_eq_false_iff] at hends
    exact hends.1.2
  refine ⟨fun hbody => ⟨?_, fun d => ?_⟩, fun hbody keyword d => ?_⟩
  · have hstatement : statement env s₁ = .error (.refused e) s₂ := by
      rw [statement_eq_directive hpeek₁ hmark, hrefused]
    rw [statementRound_attempt hgoing hpeek hne, bind_apply,
      attempt_refused hstops hstatement (hstart false) (passable_of_line hends hlines hbody) hpost,
      bind_apply, bind_apply]
    cases peek env _ <;> rfl
  · have hmember : member d env s₁ = .error (.refused e) s₂ := by
      rw [member_eq_directive hpeek₁ hmark, bind_apply, hrefused]
    rw [memberRound_attempt hgoing hpeek hne hbrace, bind_apply,
      attempt_refused hstops hmember (hstart false) (passable_of_line hends hlines hbody) hpost,
      bind_apply, bind_apply]
    cases peek env _ <;> rfl
  · have hmember : enumMember d env s₁ = .error (.refused e) s₂ := by
      rw [enumMember_eq_directive hpeek₁ hmark, bind_apply, hrefused]
    rw [enumRound_attempt hgoing hpeek hne hbrace, bind_apply,
      attempt_refused hstops hmember (hstart true) (passable_of_line hends hlines hbody) hpost,
      bind_apply, bind_apply]
    cases peek env _ <;> rfl

def refusedDirective? (env : Env) (s : State) : Option (Token × State × Diagnostic × State) :=
  match peek env s with
  | .error _ _ => none
  | .ok mark s₁ =>
    match directive env s₁ with
    | .error (.refused e) s₂ => some (mark, s₁, e, s₂)
    | _ => none

theorem eq_of_refusedDirective? {x : Token × State × Diagnostic × State}
    (h : refusedDirective? env s = some x) :
    peek env s = .ok x.1 x.2.1 ∧ directive env x.2.1 = .error (.refused x.2.2.1) x.2.2.2 := by
  unfold refusedDirective? at h
  split at h
  · cases h
  rename_i hpeek
  split at h
  · rename_i hdirective
    cases h
    exact ⟨hpeek, hdirective⟩
  · cases h

def refusedSource : String := "#pragma pack(2) x\nstruct A \x7b uint8_t a; \x7d;\n"

def refusedLine : List Token :=
  [⟨.identifier, "pack", "", 1, 9⟩, ⟨.blob, "2", "", 1, 13⟩, ⟨.identifier, "x", "", 1, 17⟩]

/-- The word costs one error, and the struct behind the line is declared. -/
theorem refused_directive_costs_one_error_word :
    let env : Env := ⟨"__", fun _ => ""⟩
    let s : State := { unread := (Token.scan "" refusedSource).toOption.getD [] }
    (read env s).1.report.errors.length = 1 ∧ (read env s).1.registry.types.map (·.name) = ["A"] ∧
      ∃ mark s₁ e s₂, peek env s = .ok mark s₁ ∧ directive env s₁ = .error (.refused e) s₂ ∧
        statementRound () env s = (peek >>= fun _ => pure (.again ())) env
          (s₁.behindLine (mark :: (refusedLine ++ [⟨.newline, "\n", "", 1, 18⟩])) s₂
            (located env e mark)) := by
  let env : Env := ⟨"__", fun _ => ""⟩
  let s : State := { unread := (Token.scan "" refusedSource).toOption.getD [] }
  have hlive : s.Live := ⟨nofun, fun _ => rfl⟩
  have h : (Token.scan "" refusedSource).toOption.isSome = true ∧
      ∃ x ∈ refusedDirective? env s, x.1.kind = .directive ∧ x.1.line = 1 ∧
        x.2.1.ahead ++ x.2.1.unread = s.unread ∧ ∃ post ∈ some (s.unread.drop 5),
          x.2.1.ahead ++ x.2.1.unread = x.1 :: (refusedLine ++ ⟨.newline, "\n", "", 1, 18⟩ :: post) := by
    decide +kernel
  obtain ⟨hscan, x, hx, hkind, hline, hplace, post, -, hstream⟩ := h
  obtain ⟨hpeek, hrefused⟩ := eq_of_refusedDirective? hx
  have hscan' : Token.scan "" refusedSource = .ok s.unread := by
    show _ = Except.ok ((Token.scan "" refusedSource).toOption.getD [])
    cases htokens : Token.scan "" refusedSource with
    | ok ts => rfl
    | error e =>
      rw [htokens] at hscan
      cases hscan
  refine ⟨by decide +kernel, by decide +kernel, x.1, x.2.1, x.2.2.1, x.2.2.2, hpeek, hrefused, ?_⟩
  refine ((refused_directive_costs_one_error hscan' hlive rfl hpeek hkind (hplace ▸ List.suffix_rfl)
    hrefused).2 refusedLine _ post hstream rfl (by decide) ?_).1 (by decide) |>.1
  rw [hline]
  decide

/-- A semicolon in a directive line ends the statement before the line ends, and the end of the line is
an error of its own. -/
theorem semicolon_in_directive_costs_two_errors :
    ((Token.scan "" "#pragma pack(1);\nstruct A \x7b uint8_t a; \x7d;\n").toOption.map fun ts =>
        (read ⟨"__", fun _ => ""⟩ { unread := ts }).1.report.errors.map (·.problem)) =
      some [.malformed (.expected .endOfLine (.text ";")), .malformed (.strayToken "\n")] := by
  decide +kernel

end RecordView.Declaration
