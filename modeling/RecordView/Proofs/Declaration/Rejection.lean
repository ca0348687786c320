import RecordView.Proofs.Declaration.Resumption

/-! A field statement that is read as a whole and then refused leaves nothing but its error. -/
namespace RecordView.Declaration
open Reader

variable {α β : Type} {env : Env} {s s' s₀ s₁ u : State} {t : Token} {d : Draft}

/-! ## Refused fields -/

def Ends (m : Reader α) : Prop :=
  ∀ env s a s', m env s = .ok a s' → s'.ahead = [] → s'.eof = none →
    s'.last.any (endsStatement false) = true

theorem ends_bind {m : Reader α} {f : α → Reader β} (hf : ∀ a, Ends (f a)) : Ends (m >>= f) := by
  intro env s b s' h
  obtain ⟨a, s₁, -, h₂⟩ := bind_ok.mp h
  exact hf a env s₁ b s' h₂

theorem ends_ite {c : Prop} [Decidable c] {m₁ m₂ : Reader α} (h₁ : Ends m₁) (h₂ : Ends m₂) :
    Ends (if c then m₁ else m₂) := by
  split
  · exact h₁
  · exact h₂

theorem ends_semicolon (wanted : Wanted) (a : α) : Ends (expectAs ";" wanted >>= fun _ => pure a) := by
  intro env s b s' h hahead heof
  obtain ⟨v, s₁, h₁, h₂⟩ := bind_ok.mp h
  cases h₂
  obtain ⟨c, s₂, hcheck, h₃⟩ := bind_ok.mp h₁
  obtain ⟨t, s₃, hpeek, h₄⟩ := bind_ok.mp hcheck
  cases h₄
  cases hsymbol : t.isSymbol ";" with
  | false =>
    rw [hsymbol] at h₃
    obtain ⟨_, _, _, h₅⟩ := bind_ok.mp h₃
    cases h₅
  | true =>
    rw [hsymbol, if_pos rfl, advance_apply, peek_peek hpeek] at h₃
    dsimp only at h₃
    split at h₃
    · -- an end that reads as a semicolon would have been drawn
      cases h₃
      have heq := next_of_peek hpeek
      rw [hahead, heof] at heq
      cases heq
    · cases h₃
      simp [State.take, endsStatement, hsymbol]

theorem ends_fieldStatement : Ends fieldStatement := by
  refine ends_bind fun type => ends_bind fun width => ends_bind fun name => ends_bind fun array => ?_
  refine ends_bind fun bits => ends_ite ?_ (ends_ite ?_ (ends_semicolon _ _))
  · exact ends_bind fun _ => ends_bind fun _ => ends_semicolon _ _
  · have hrest : Ends (fieldBits type name) := ends_bind fun _ => ends_bind fun _ => ends_semicolon _ _
    exact ends_ite (ends_bind fun _ => ends_bind fun _ => hrest) hrest

/-- In a body with the draft `d`, a field statement is read that starts with `t` and consists of `ts`;
after it `post` is left. Its field is refused with the error `e`. -/
def RefusesField (env : Env) (d : Draft) (s : State) (ts post : List Token) (t : Token)
    (e : Diagnostic) : Prop :=
  t.kind = .identifier ∧ t.text ∉ keywords ∧
    ∃ s₁ f taken last notes, peek env s = .ok t s₁ ∧ t :: s₁.unread = ts ++ post ∧
      fieldStatement env s₁ = .ok f (s₁.skipTo post taken last notes) ∧
      f.declare (s₁.surroundings env) d = .error (.refused e)

def refusedField? (env : Env) (d : Draft) (s : State) (ts post : List Token) :
    Option (Token × Diagnostic) :=
  match peek env s with
  | .error _ _ => none
  | .ok t s₁ =>
    match fieldStatement env s₁ with
    | .error _ _ => none
    | .ok f s₂ =>
      match f.declare (s₁.surroundings env) d with
      | .error (.refused e) =>
        if t.kind = .identifier ∧ t.text ∉ keywords ∧ t :: s₁.unread = ts ++ post ∧ s₂.unread = post ∧
            s₂.ahead = [] ∧ s₂.frames = s₁.frames ∧ s₂.eof = s₁.eof ∧ s₂.report = s₁.report then
          some (t, e)
        else none
      | _ => none

theorem refusesField_of_eq_some {ts post : List Token} {x : Token × Diagnostic}
    (h : refusedField? env d s ts post = some x) : RefusesField env d s ts post x.1 x.2 := by
  unfold refusedField? at h
  split at h
  · cases h
  rename_i t s₁ hpeek
  split at h
  · cases h
  rename_i f s₂ hreads
  split at h
  · rename_i e hrefused
    split at h
    · rename_i hall
      obtain ⟨hkind, hword, hstream, hunread, hahead, hframes, heof, hreport⟩ := hall
      cases h
      have hheld : s₂.held = s₁.held := held_fieldStatement.of_ok hreads
      have hs₂ : s₂ = s₁.skipTo post s₂.taken s₂.last s₂.notes := by
        simp only [State.held, State.mk.injEq, true_and, and_true] at hheld
        obtain ⟨hdeclared, hcomment, hconstants, hsettings, hregistry, hscript⟩ := hheld
        unfold State.skipTo
        rw [← hframes, ← heof, ← hreport, ← hdeclared, ← hcomment, ← hconstants, ← hsettings,
          ← hregistry, ← hscript, ← hunread, ← hahead]
      exact ⟨hkind, hword, s₁, f, _, _, _, hpeek, hstream, hs₂ ▸ hreads, hrefused⟩
    · cases h
  · cases h

section RefusesField

variable {ts post : List Token} {e : Diagnostic}

/-- The first token of the statement is drawn after the lines in front of it. -/
theorem RefusesField.drawn (h : RefusesField env d s ts post t e) (hlive : s.Live)
    (hahead : s.ahead = []) :
    s.eof = none ∧ t.kind ≠ .eof ∧ (s.draw env).found = .ok (some t) ∧
      t :: (s.draw env).rest = ts ++ post ∧ ts ≠ [] := by
  obtain ⟨hkind, hword, s₁, f, taken, last, notes, hpeek, hstream, hreads, -⟩ := h
  have hne : t.kind ≠ .eof := by rw [hkind]; decide
  obtain ⟨heof, hfound, hs₁⟩ := drawn_of_peek hlive hahead hpeek hne
  refine ⟨heof, hne, hfound, by rw [← hstream, hs₁]; rfl, fun hts => ?_⟩
  have hle : post.length ≤ s₁.unread.length := (Takes.fieldStatement.adv.of_ok hreads).unread.length_le
  rw [hts, List.nil_append] at hstream
  rw [← hstream, List.length_cons] at hle
  omega

/-- The round of a body that refuses a field takes its statement and records the error. -/
theorem RefusesField.round (h : RefusesField env d s ts post t e) (hlive : s.Live)
    (hahead : s.ahead = []) (hfull : s.report.full = false) :
    ∃ taken last notes, s.taken < taken ∧
      memberRound d env s = .ok (.again d)
        { (s.drawn (s.draw env)).skipTo post taken last notes with
          report := (s.report.addAll (s.draw env).errors).add (located env e t) } := by
  obtain ⟨hkind, hword, s₁, f, taken, last, notes, hpeek, hstream, hreads, hrefused⟩ := h
  have hne : t.kind ≠ .eof := by rw [hkind]; decide
  obtain ⟨heof, hfound, hs₁⟩ := drawn_of_peek hlive hahead hpeek hne
  have hlt := Takes.fieldStatement.lt (by rw [hs₁]) hne hreads
  have hends := ends_fieldStatement env s₁ f _ hreads rfl (by rw [hs₁]; exact heof)
  have hfield : field d env s₁ = .error (.refused e) (s₁.skipTo post taken last notes) := by
    rw [field, bind_apply, hreads]
    show (orThrow (f.declare (s₁.surroundings env) d) >>= _) env _ = _
    rw [hrefused]
    rfl
  have hsync (r : Report) : synchronize t.line s₁.taken false env
      { s₁.skipTo post taken last notes with report := r } =
        .ok () { s₁.skipTo post taken last notes with report := r } := by
    rw [synchronize, get_bind_apply, if_neg (Nat.ne_of_gt hlt), if_pos hends]
    rfl
  refine ⟨taken, last, notes, by rw [hs₁] at hlt; exact hlt, ?_⟩
  rw [memberRound_attempt hfull hpeek hne (not_isSymbol_of_name hkind _), bind_apply, attempt,
    tryCatch_apply, member_eq_field (peek_peek hpeek) hkind hword, hfield]
  dsimp only
  rw [recover_refused, bind_apply, hsync, hs₁]
  rfl

end RefusesField

/-- A field statement that is refused leaves no trace but its error: without its tokens the same types
and constants are declared, with the same settings, and the same script is written. -/
theorem refused_field_leaves_error {d₀ : Draft} {s₂ : State} {pre ts post : List Token}
    {e : Diagnostic} (hlive : s₀.Live) (hopens : Opens env s₀ d₀ s₂)
    (hrun : Runs memberRound env d₀ s₂ d s) (hstream : s₀.unread = pre ++ (ts ++ post))
    (hahead : s.ahead = []) (hfield : RefusesField env d s ts post t e)
    (hfull : (read env s₀).1.report.full = false) :
    let r := read env s₀
    let r' := read env { s₀ with unread := pre ++ post }
    r.2 = r'.2 ∧ r.1.registry = r'.1.registry ∧ r.1.constants = r'.1.constants ∧
      r.1.settings = r'.1.settings ∧ r.1.script = r'.1.script ∧
      ∃ before after, r.1.report.errors = before ++ located env e t :: after ∧
        r'.1.report.errors = before ++ after := by
  obtain ⟨v, start, typedef, hbetween⟩ := hopens.between hrun
  have hs : s.Live := (hbetween.advances.live hlive).1
  obtain ⟨heof, ht, hfound, hnext, hts⟩ := hfield.drawn hs hahead
  obtain ⟨taken, last, notes, hlt, hround⟩ := hfield.round hs hahead (hbetween.not_full hlive hfull)
  generalize hs' : { (s.drawn (s.draw env)).skipTo post taken last notes with
    report := (s.report.addAll (s.draw env).errors).add (located env e t) } = s' at hround
  have htaken : s'.taken = taken := by rw [← hs']; rfl
  have herrors : s'.report.errors = s.report.errors ++ (s.draw env).errors ++ [located env e t] := by
    rw [← hs']
    rfl
  have hlimit : s'.report.limit = s.report.limit := by rw [← hs']; rfl
  have hshorter := (((Between.advancing_memberRound d).of_ok hround).live hs).2
  have hfull' := (hbetween.next hround (by omega)).not_full hlive hfull
  have hbefore : (s.report.addAll (s.draw env).errors).full = false := by
    simp only [Report.full, Report.addAll, List.length_append, List.length_singleton,
      decide_eq_false_iff_not, hlimit, herrors] at hfull' ⊢
    omega
  obtain ⟨start', w₀, w, hwerrors, -, -, hle, hmeets, -⟩ :=
    hbetween.without true hlive hahead heof hfound ht hstream hts hnext hbefore hround (by omega)
      (by rw [← hs']; rfl) (by rw [← hs']; rfl) (fun _ => by rw [← hs']; exact ⟨rfl, rfl⟩) herrors
  obtain ⟨hend, hrel⟩ := Twin.rel_of_exact (T := .resuming env true hle) rfl rfl hmeets hfull
  obtain ⟨after, herrors₁, herrors₂⟩ := hrel.errors
  refine ⟨hend, Twin.registry_resuming hrel, hrel.constants, Twin.eq_of_view rfl hrel.settings,
    hrel.script rfl, w.report.errors, after, ?_, herrors₂⟩
  have happend : s'.report.errors ++ after = w.report.errors ++ located env e t :: after := by
    rw [herrors, hwerrors, List.append_assoc, List.singleton_append]
  exact herrors₁.trans happend

def conditionalHead : List Token :=
  [⟨.identifier, "struct", "", 1, 1⟩, ⟨.identifier, "A", "", 1, 8⟩, ⟨.leftBrace, "\x7b", "", 1, 10⟩,
   ⟨.identifier, "Uint8", "", 2, 1⟩, ⟨.identifier, "a", "", 2, 7⟩, ⟨.semicolon, ";", "", 2, 8⟩,
   ⟨.directive, "#if", "", 3, 1⟩, ⟨.number, "1", "", 3, 5⟩, ⟨.newline, "", "", 3, 6⟩]

def repeatedField : List Token :=
  [⟨.identifier, "Uint16", "", 4, 1⟩, ⟨.identifier, "a", "", 4, 8⟩, ⟨.semicolon, ";", "", 4, 9⟩]

def conditionalTail : List Token :=
  [⟨.directive, "#endif", "", 5, 1⟩, ⟨.newline, "", "", 5, 7⟩,
   ⟨.identifier, "Uint16", "", 6, 1⟩, ⟨.identifier, "b", "", 6, 8⟩, ⟨.semicolon, ";", "", 6, 9⟩,
   ⟨.rightBrace, "\x7d", "", 7, 1⟩, ⟨.semicolon, ";", "", 7, 2⟩, ⟨.eof, "", "", 8, 1⟩]

/-- The second field of this name is refused; without it there is no error, and the same struct. -/
theorem refused_field_leaves_error_repeated :
    let env : Env := ⟨"__", fun _ => ""⟩
    let r := read env { unread := conditionalHead ++ (repeatedField ++ conditionalTail) }
    let r' := read env { unread := conditionalHead ++ conditionalTail }
    r.1.registry.types.map (fun t => t.fields.map (·.name)) = [["a", "b"]] ∧
      r.2 = r'.2 ∧ r.1.registry = r'.1.registry ∧ r.1.constants = r'.1.constants ∧
      r.1.settings = r'.1.settings ∧ r.1.script = r'.1.script ∧
      ∃ before after, r.1.report.errors = before ++
          ⟨.duplicate "field" "a", some ⟨"", 4, 8⟩, some ""⟩ :: after ∧
        r'.1.report.errors = before ++ after := by
  let env : Env := ⟨"__", fun _ => ""⟩
  let s₀ : State := { unread := conditionalHead ++ (repeatedField ++ conditionalTail) }
  have hlive : s₀.Live := ⟨nofun, fun _ => rfl⟩
  have h : ∃ x ∈ firstBody? env .struct s₀, ∃ v ∈ runs? memberRound env 1 x.1 x.2,
      v.2.ahead = [] ∧ ∃ w ∈ refusedField? env v.1 v.2 repeatedField conditionalTail,
        located env w.2 w.1 = ⟨.duplicate "field" "a", some ⟨"", 4, 8⟩, some ""⟩ := by
    decide +kernel
  obtain ⟨x, hx, v, hv, hahead, w, hw, herror⟩ := h
  refine ⟨by decide +kernel, ?_⟩
  rw [← herror]
  exact refused_field_leaves_error hlive (opens_of_firstBody? hx) (runs_of_runs? hv) rfl hahead
    (refusesField_of_eq_some hw) (by decide +kernel)

/-- A field without its semicolon, in a struct that is just opened. -/
def unfinishedHead : List Token :=
  [⟨.identifier, "struct", "", 1, 1⟩, ⟨.identifier, "A", "", 1, 8⟩, ⟨.leftBrace, "\x7b", "", 1, 10⟩,
   ⟨.identifier, "uint8_t", "", 2, 4⟩, ⟨.identifier, "a", "", 2, 12⟩]

def untypedField : List Token :=
  [⟨.identifier, "foo", "", 3, 4⟩, ⟨.identifier, "x", "", 3, 8⟩, ⟨.semicolon, ";", "", 3, 9⟩]

def unfinishedTail : List Token :=
  [⟨.identifier, "uint8_t", "", 4, 4⟩, ⟨.identifier, "b", "", 4, 12⟩, ⟨.semicolon, ";", "", 4, 13⟩,
   ⟨.rightBrace, "\x7d", "", 5, 1⟩, ⟨.semicolon, ";", "", 5, 2⟩, ⟨.eof, "", "", 6, 1⟩]

/-- A refused field that was looked at before leaves more than its error: the error of the statement
in front of it quotes it. -/
theorem refused_field_is_quoted :
    let env : Env := ⟨"__", fun _ => ""⟩
    let s₀ : State := { unread := unfinishedHead ++ (untypedField ++ unfinishedTail) }
    let r := (read env s₀).1
    let r' := (read env { s₀ with unread := unfinishedHead ++ unfinishedTail }).1
    (∃ d₀ s₂ d s t e, Opens env s₀ d₀ s₂ ∧ Runs memberRound env d₀ s₂ d s ∧
        RefusesField env d s untypedField unfinishedTail t e) ∧
      r.report.full = false ∧ ∀ i, r.report.errors.eraseIdx i ≠ r'.report.errors := by
  let env : Env := ⟨"__", fun _ => ""⟩
  let s₀ : State := { unread := unfinishedHead ++ (untypedField ++ unfinishedTail) }
  have h : ∃ x ∈ firstBody? env .struct s₀, ∃ v ∈ runs? memberRound env 1 x.1 x.2,
      ∃ w ∈ refusedField? env v.1 v.2 untypedField unfinishedTail, w.1.text = "foo" := by
    decide +kernel
  obtain ⟨x, hx, v, hv, w, hw, -⟩ := h
  refine ⟨⟨_, _, _, _, _, _, opens_of_firstBody? hx, runs_of_runs? hv, refusesField_of_eq_some hw⟩,
    by decide +kernel, fun i => ?_⟩
  match i with
  | 0 => decide +kernel
  | 1 => decide +kernel
  | i + 2 =>
    have hlength : (read env s₀).1.report.errors.length ≤ i + 2 :=
      Nat.le_trans (by decide +kernel : _ ≤ 2) (Nat.le_add_left 2 i)
    rw [List.eraseIdx_of_length_le hlength]
    decide +kernel

end RecordView.Declaration
