import RecordView.Proofs.Declaration.Pragma
import RecordView.Proofs.Declaration.Resumption
import RecordView.Proofs.Script.Listing

/-! A setting of the accessors that is given between two members: the accessors that are written by
then stay as they are. -/
namespace RecordView.Declaration
open Reader Script

variable {env : Env} {s s' s₀ s₁ : State} {t : Token} {ts : List Token} {u : Settings}

/-! ## Reading the line -/

/-- A line that gives a setting of the accessors a value that it can have. -/
structure SettingLine (s : State) (u : Settings) (mark name value ending : Token) : Prop where
  pragma : mark.directive? = some "pragma"
  named : name.kind = .identifier
  setting : name.text ∈ ["endian", "get", "set"]
  blob : value.kind = .blob
  newline : ending.kind = .newline
  accepted : s.settings.apply name.text value.text s.declared = .ok u

variable {mark name value ending : Token} {post : List Token}

theorem SettingLine.toPragmaLine (h : SettingLine s u mark name value ending) :
    PragmaLine mark name value ending := ⟨h.pragma, h.named, h.blob, h.newline⟩

theorem SettingLine.kind (h : SettingLine s u mark name value ending) : mark.kind = .directive :=
  h.toPragmaLine.kind

theorem SettingLine.not_brace (h : SettingLine s u mark name value ending) :
    mark.isSymbol "\x7d" = false := by
  have hpragma := h.pragma
  rw [Token.directive?, if_pos h.kind] at hpragma
  rw [Token.isSymbol, Bool.and_eq_false_imp]
  intro _
  rw [beq_eq_false_iff_ne]
  intro htext
  rw [htext] at hpragma
  revert hpragma
  decide

/-- The layout does not depend on a setting of the accessors. -/
theorem SettingLine.plain_eq (h : SettingLine s u mark name value ending) :
    s.settings.plain = u.plain := by
  obtain ⟨setting, f, hlookup, -, hupdate, rfl, -⟩ := Settings.apply_eq_ok h.accepted
  have hframe := congrArg Settings.plain (hupdate.frame s.settings)
  have hsetting := h.setting
  simp only [List.mem_cons, List.not_mem_nil, or_false] at hsetting
  rcases hsetting with hname | hname | hname
  · have hgiven : Setting.names.lookup "endian" = some .endian := by decide
    rw [hname, hgiven] at hlookup
    cases hlookup
    exact hframe.symm
  · have hgiven : Setting.names.lookup "get" = some (.switch .getters) := by decide
    rw [hname, hgiven] at hlookup
    cases hlookup
    exact hframe.symm
  · have hgiven : Setting.names.lookup "set" = some (.switch .setters) := by decide
    rw [hname, hgiven] at hlookup
    cases hlookup
    exact hframe.symm

/-- The directive gives the setting its value and does no more. -/
theorem SettingLine.directive_eq (h : SettingLine s u mark name value ending) {s₁ : State}
    (hs : s₁.Clear) (hheld : s₁.held = s.held) (hunread : s₁.unread = name :: value :: ending :: post) :
    ∃ notes, directive env (s₁.look mark s₁.unread) = .ok ()
      { s₁.skipTo post (s₁.taken + 4) (some ending) notes with settings := u } := by
  have hinject : name.text ≠ "inject" := by
    intro hinject
    have hsetting := h.setting
    rw [hinject] at hsetting
    revert hsetting
    decide
  have haccepted : s₁.settings.apply name.text value.text s₁.declared = .ok u := by
    have hsettings : s₁.settings = s.settings := (congrArg State.settings hheld :)
    have hdeclared : s₁.declared = s.declared := (congrArg State.declared hheld :)
    rw [hsettings, hdeclared, h.accepted]
  rw [hunread]
  exact ⟨_, h.toPragmaLine.directive_eq hs (.setting hinject haccepted)⟩

/-! ## Going on behind the line -/

variable {d d₀ : Draft} {v : Token} {start : Nat} {typedef : Bool}

/-- The round of a body that reads the line changes no more than the setting. -/
theorem SettingLine.round (h : SettingLine s u mark name value ending) (hlive : s.Live)
    (hahead : s.ahead = []) (hnext : peek env s = .ok mark s')
    (hplace : s'.unread = name :: value :: ending :: post) (hfull : s.report.full = false) :
    ∃ taken last notes, s.taken < taken ∧
      memberRound d env s = .ok (.again d)
        { (s.drawn (s.draw env)).skipTo post taken last notes with settings := u } := by
  have hne : mark.kind ≠ .eof := by rw [h.kind]; decide
  obtain ⟨heof, hfound, hs'⟩ := drawn_of_peek hlive hahead hnext hne
  have hclear : (s.drawn (s.draw env)).Clear :=
    ⟨hahead, heof, (Frames.draws _ _ _ _).stops.seen mark hfound hne⟩
  have hunread : (s.drawn (s.draw env)).unread = name :: value :: ending :: post := by
    rw [← hplace, hs']
  obtain ⟨notes, hdirective⟩ := h.directive_eq hclear rfl hunread
  have hlook : s' = (s.drawn (s.draw env)).look mark (s.drawn (s.draw env)).unread := hs'
  refine ⟨s.taken + 4, some ending, notes, by omega, ?_⟩
  rw [memberRound_attempt hfull hnext hne h.not_brace, bind_apply, attempt, tryCatch_apply,
    member_eq_directive (peek_peek hnext) h.kind, bind_apply, hlook, hdirective]
  rfl

/-- With the line and without it, the rest of the statement and of the description are read alike, up to
the accessors. -/
theorem SettingLine.meets (h : SettingLine s u mark name value ending)
    (hbetween : Between env s₀ v start typedef d s) (hlive : s₀.Live) (hahead : s.ahead = [])
    {pre : List Token} (hstream : s₀.unread = pre ++ ([mark, name, value, ending] ++ post))
    (hnext : peek env s = .ok mark s') (hplace : s'.unread = name :: value :: ending :: post)
    (hfull : s'.report.full = false) :
    ∃ (start' : Nat) (w₀ q w : State) (hle : w.report.errors.length ≤ q.report.errors.length),
      w₀.held = s.held ∧ Between env { s₀ with unread := pre ++ post } v start' typedef d w₀ ∧
      q.report.errors = w.report.errors ∧
      (Twin.resuming env false hle).Meets id (description env s₀)
        (description env { s₀ with unread := pre ++ post }) ∧
      (Twin.resuming env false hle).Meets id (restOfStatement v start typedef d env s)
        (restOfStatement v start' typedef d env w₀) := by
  have hs : s.Live := (hbetween.advances.live hlive).1
  have hmark : mark.kind ≠ .eof := by rw [h.kind]; decide
  obtain ⟨heof, hfound, hs'⟩ := drawn_of_peek hs hahead hnext hmark
  have hbefore : (s.report.addAll (s.draw env).errors).full = false := by
    rw [hs'] at hfull
    exact hfull
  have hgoing : s.report.full = false := by
    cases hs : s.report.full with
    | false => rfl
    | true => exact absurd ((Advancing.peek.of_ok hnext).full hs) (by simp [hfull])
  have hrest : mark :: (s.draw env).rest = [mark, name, value, ending] ++ post := by
    have hunread : s'.unread = (s.draw env).rest := by
      rw [hs']
      rfl
    rw [← hunread, hplace]
    rfl
  obtain ⟨taken, last, notes, hlt, hround⟩ := h.round (d := d) hs hahead hnext hplace hgoing
  generalize hq : { (s.drawn (s.draw env)).skipTo post taken last notes with settings := u } = q at hround
  have htaken : q.taken = taken := by rw [← hq]; rfl
  have herrors : q.report.errors = s.report.errors ++ (s.draw env).errors ++ [] := by
    rw [← hq, List.append_nil]
    rfl
  have hsettings : q.settings.plain = s.settings.plain := by
    rw [← hq]
    exact h.plain_eq.symm
  obtain ⟨start', w₀, w, hwerrors, hheld, hbetween', hle, hdescription, hstatement⟩ :=
    hbetween.without false hlive hahead heof hfound hmark hstream (by simp) hrest hbefore hround
      (by omega) (by rw [← hq]; rfl) hsettings (fun h => absurd h Bool.false_ne_true) herrors
  rw [List.append_nil, ← hwerrors] at herrors
  exact ⟨start', w₀, q, w, hle, hheld, hbetween', herrors, hdescription, hstatement⟩

namespace Twin

variable {w : State}

theorem rel_of_ok {T : Twin} {α γ : Type} {f : α → γ} {r₁ r₂ : EStateM.Result (Halt Diagnostic) State α}
    (h : T.Meets f r₁ r₂) {a b : α} (h₁ : r₁ = .ok a s) (h₂ : r₂ = .ok b w) (hlost : ¬ T.Lost s) :
    T.Rel s w := by
  subst h₁ h₂
  cases h with
  | ok _ rel => exact rel
  | lost lost => exact absurd lost hlost

end Twin

section Statements

variable {form : Form} {s₂ s₃ s₄ : State}

/-- In a reading that does not fail, the rest of a statement is read to its end. -/
theorem exists_restOfStatement (hrun : Runs statementRound env () s₀ () s₁)
    (henters : Enters env s₁ form typedef s₂) (hnext : peek env s₁ = .ok v s₄)
    (hopen : opening form typedef env s₂ = .ok d₀ s₃) (hbody : Runs memberRound env d₀ s₃ d s)
    (hnone : (read env s₀).2 = none) :
    ∃ r e, statementRound () env s₁ = .ok r e ∧
      restOfStatement v s₄.taken typedef d env s = .ok () e := by
  obtain ⟨r, e, hround, -⟩ := exists_statementRound hrun hnone
  refine ⟨r, e, hround, ?_⟩
  rw [Between.round_eq henters hnext hopen hbody] at hround
  obtain ⟨_, e', hrest, hpure⟩ := bind_ok.mp hround
  cases hpure
  exact hrest

/-- The members of a body so far are those of the statements that were accepted. -/
theorem Enters.exists_entries (henters : Enters env s₁ form typedef s₂)
    (hopen : opening form typedef env s₂ = .ok d₀ s₃) (hbody : Runs memberRound env d₀ s₃ d s)
    (hr : s₁.registry.Sound) : ∃ fs, Accepts env d₀ s₃ fs d s ∧ fs.map (entryOf env) = d.entries := by
  obtain ⟨fs, hfs⟩ := exists_accepts hbody
  obtain ⟨hfresh, hregistry⟩ := henters.fresh hopen
  rw [← hregistry] at hfresh hr
  exact ⟨fs, hfs, (hfs.entries hfresh hr.sized).2.symm⟩

end Statements

/-- A setting of the accessors that is given between two members changes neither the layout nor the
accessors that are written by then. These are the accessors of the fields that have their place, which
are the first ones of all that were declared; the others wait in a run of bit fields or in an anonymous
union that is not closed. -/
theorem setting_spares_written {form : Form} {s₂ s₃ : State} {pre : List Token}
    (h₀ : s₀.registry = {}) (hlive : s₀.Live)
    (hrun : Runs statementRound env () s₀ () s₁) (henters : Enters env s₁ form typedef s₂)
    (hopen : opening form typedef env s₂ = .ok d₀ s₃) (hbody : Runs memberRound env d₀ s₃ d s)
    (hahead : s.ahead = []) (hstream : s₀.unread = pre ++ ([mark, name, value, ending] ++ post))
    (hnext : peek env s = .ok mark s') (hplace : s'.unread = name :: value :: ending :: post)
    (hfull : s'.report.full = false) (hline : SettingLine s u mark name value ending)
    (h₁ : (read env s₀).2 = none) (h₂ : (read env { s₀ with unread := pre ++ post }).2 = none) :
    let r := (read env s₀).1
    let r' := (read env { s₀ with unread := pre ++ post }).1
    r.registry = r'.registry ∧ r.constants = r'.constants ∧ r.report.errors = r'.report.errors ∧
      ∃ fs o, Accepts env d₀ s₃ fs d s ∧ fs.map (entryOf env) = d.entries ∧
        s.script.current = some o ∧
        List.Forall₂ (Serves (InForce env d₀ s₃)) (accessorsOf o.members) (visible d.fields) ∧
        ∀ t e, Completes env s₁ t e → d.fields <+: t.fields ∧
          ∃ c c', .classDecl c ∈ r.script.items ∧ .classDecl c' ∈ r'.script.items ∧
            c.name = t.name ∧ c'.name = t.name ∧ o.members <+: c.members ∧ o.members <+: c'.members := by
  obtain ⟨v, s₄, next⟩ := henters.exists_next
  have hbetween : Between env s₀ v s₄.taken typedef d s :=
    ⟨s₁, s₄, s₂, form, d₀, s₃, hrun, next, rfl, henters, hopen, hbody⟩
  obtain ⟨start', w₀, q, w, hle, hheld, hbetween', herrors, hdescription, hstatement⟩ :=
    hline.meets hbetween hlive hahead hstream hnext hplace hfull
  have hlost (x : State) : ¬ (Twin.resuming env false hle).Lost x :=
    Twin.not_lost_of_errors hle herrors x
  have hend := Twin.rel_read (T := .resuming env false hle) hdescription h₁ h₂ (hlost _)
  obtain ⟨as, has, hserves⟩ := runs_serving hbody (opening_serving hopen)
  obtain ⟨o, ho, hmembers⟩ := Option.map_eq_some_iff.mp has
  rw [List.nil_append] at hmembers
  obtain ⟨fs, hfs, hentries⟩ := henters.exists_entries hopen hbody ((read_sound env h₀).1 s₁ hrun)
  refine ⟨Twin.registry_resuming hend, hend.constants, Twin.errors_resuming hend herrors, fs, o, hfs,
    hentries, ho, hmembers ▸ hserves, ?_⟩
  intro t e hcompletes
  refine ⟨hcompletes.fields_prefix henters hopen hbody, ?_⟩
  obtain ⟨c, hc, hname, hprefix⟩ := hcompletes.class_extends henters hopen hbody ho hrun h₁
  obtain ⟨u₁, u₄, u₂, form', d₀', u₃, hrun', next', rfl, henters', hopen', hbody'⟩ := hbetween'
  have hbefore : s₁.registry = u₁.registry := by
    rw [← registry_of_body henters hopen hbody, ← registry_of_body henters' hopen' hbody']
    exact (congrArg State.registry hheld.symm :)
  -- the same type is declared without the line
  obtain ⟨r₁, e₁, hround₁, hrest₁⟩ := exists_restOfStatement hrun henters next hopen hbody h₁
  obtain ⟨r₂, e₂, hround₂, hrest₂⟩ := exists_restOfStatement hrun' henters' next' hopen' hbody' h₂
  have hrel := Twin.rel_of_ok hstatement hrest₁ hrest₂ (hlost _)
  have ht : t.backing = none := (hcompletes.of_body henters hopen hbody).1
  obtain ⟨e', hcompletes'⟩ :=
    hcompletes.of_registry ht hround₁ hround₂ hbefore (Twin.registry_resuming hrel)
  have ho' : w₀.script.current = some o := by
    rw [← ho]
    exact (congrArg (fun s => s.script.current) hheld :)
  obtain ⟨c', hc', hname', hprefix'⟩ := hcompletes'.class_extends henters' hopen' hbody' ho' hrun' h₂
  exact ⟨c, c', hc, hc', hname, hname', hprefix, hprefix'⟩

def runHead : List Token :=
  [⟨.identifier, "struct", "", 1, 1⟩, ⟨.identifier, "A", "", 1, 8⟩, ⟨.leftBrace, "\x7b", "", 1, 10⟩,
   ⟨.identifier, "uint16_t", "", 2, 1⟩, ⟨.identifier, "f", "", 2, 10⟩, ⟨.colon, ":", "", 2, 12⟩,
   ⟨.number, "3", "", 2, 14⟩, ⟨.semicolon, ";", "", 2, 15⟩]

def closingField : List Token :=
  [⟨.identifier, "uint16_t", "", 3, 1⟩, ⟨.identifier, "a", "", 3, 10⟩, ⟨.semicolon, ";", "", 3, 11⟩]

def bigEndian : List Token :=
  [⟨.directive, "#pragma", "", 4, 1⟩, ⟨.identifier, "endian", "", 4, 9⟩, ⟨.blob, "big", "", 4, 15⟩,
   ⟨.newline, "\n", "", 4, 20⟩]

def runTail : List Token :=
  [⟨.identifier, "uint16_t", "", 5, 1⟩, ⟨.identifier, "b", "", 5, 10⟩, ⟨.semicolon, ";", "", 5, 11⟩,
   ⟨.rightBrace, "\x7d", "", 6, 1⟩, ⟨.semicolon, ";", "", 6, 2⟩, ⟨.eof, "", "", 7, 1⟩]

def AtLine (names written : List String) (x : Draft × State) : Prop :=
  x.1.names = names ∧ x.2.accessors.map (·.map (·.name)) = some written ∧ x.2.ahead = [] ∧
    x.2.eof = none ∧ x.2.frames.active = true ∧ x.2.unread = bigEndian ++ runTail ∧
    x.2.settings = {} ∧ x.2.report.full = false

instance (names written : List String) (x : Draft × State) : Decidable (AtLine names written x) :=
  inferInstanceAs (Decidable (_ ∧ _))

theorem settingLine_bigEndian (hs : s.settings = {}) :
    SettingLine s { endian := .big } ⟨.directive, "#pragma", "", 4, 1⟩ ⟨.identifier, "endian", "", 4, 9⟩
      ⟨.blob, "big", "", 4, 15⟩ ⟨.newline, "\n", "", 4, 20⟩ where
  pragma := by decide
  named := rfl
  setting := by decide
  blob := rfl
  newline := rfl
  accepted := by
    rw [hs]
    cases s.declared <;> decide

/-- After the field that closes the run, the bit field and that field keep their accessors. -/
theorem setting_spares_written_closed :
    let env : Env := ⟨"__", fun _ => ""⟩
    let s₀ : State := { unread := runHead ++ closingField ++ (bigEndian ++ runTail) }
    let r := (read env s₀).1
    let r' := (read env { s₀ with unread := runHead ++ closingField ++ runTail }).1
    r.registry = r'.registry ∧ ∃ ms c c', (accessorsOf ms).map (·.name) = ["f", "a"] ∧
      .classDecl c ∈ r.script.items ∧ .classDecl c' ∈ r'.script.items ∧ c.name = "A" ∧ c'.name = "A" ∧
      ms <+: c.members ∧ ms <+: c'.members := by
  let env : Env := ⟨"__", fun _ => ""⟩
  let s₀ : State := { unread := runHead ++ closingField ++ (bigEndian ++ runTail) }
  have hlive : s₀.Live := ⟨nofun, fun _ => rfl⟩
  have h : ∃ x ∈ firstBody? env .struct s₀, ∃ y ∈ runs? memberRound env 2 x.1 x.2,
      AtLine ["f", "a"] ["f", "a"] y := by decide +kernel
  obtain ⟨x, hx, y, hy, -, hwritten, hahead, heof, hactive, hunread, hsettings, hfull⟩ := h
  obtain ⟨s₂, henters, hopen⟩ := enters_of_firstBody? hx
  have hnext : peek env y.2 = _ := peek_plain ⟨hahead, heof, hactive⟩ ⟨by decide, by decide⟩ hunread
  obtain ⟨hregistry, -, -, fs, o, -, -, ho, -, hclasses⟩ :=
    setting_spares_written rfl hlive .start henters hopen (runs_of_runs? hy) hahead rfl hnext rfl hfull
      (settingLine_bigEndian hsettings) (by decide +kernel) (by decide +kernel)
  have hnames : (after (statementRound ()) env s₀).registry.types.map (·.name) = ["A"] := by
    decide +kernel
  rcases registers_statementRound env s₀ with hsame | ⟨t, items, ⟨e, hcompletes, -⟩, houtput⟩
  · rw [show (after _ env s₀).registry = s₀.registry from congrArg Prod.fst hsame] at hnames
    cases hnames
  · rw [show (after _ env s₀).registry = _ from congrArg Prod.fst houtput] at hnames
    have hname : t.name = "A" := List.singleton_inj.mp hnames
    obtain ⟨-, c, c', hc, hc', hcname, hcname', hprefix, hprefix'⟩ := hclasses t e hcompletes
    refine ⟨hregistry, o.members, c, c', ?_, hc, hc', hcname.trans hname, hcname'.trans hname, hprefix,
      hprefix'⟩
    rw [State.accessors, accessors?, ho] at hwritten
    exact Option.some.inj hwritten

def classAccessors (s : Script) : List Accessor :=
  s.items.flatMap fun
    | .classDecl c => accessorsOf c.members
    | _ => []

/-- Before that field the run is open: the accessor of the bit field is written under the setting that
follows it. -/
theorem setting_reaches_open_run :
    let env : Env := ⟨"__", fun _ => ""⟩
    let s₀ : State := { unread := runHead ++ (bigEndian ++ runTail) }
    let r := (read env s₀).1
    let r' := (read env { s₀ with unread := runHead ++ runTail }).1
    (∃ d₀ s₂ x u mark name value ending, Opens env s₀ d₀ s₂ ∧ Runs memberRound env d₀ s₂ x.1 x.2 ∧
        AtLine ["f"] [] x ∧ bigEndian = [mark, name, value, ending] ∧
        SettingLine x.2 u mark name value ending) ∧
      r.registry = r'.registry ∧
      ∃ a ∈ (classAccessors r.script).head?, ∃ a' ∈ (classAccessors r'.script).head?,
        a.name = "f" ∧ a'.name = "f" ∧ a.order = .big ∧ a'.order = .little ∧ a.lines ≠ a'.lines := by
  let env : Env := ⟨"__", fun _ => ""⟩
  let s₀ : State := { unread := runHead ++ (bigEndian ++ runTail) }
  have h : ∃ x ∈ firstBody? env .struct s₀, ∃ y ∈ runs? memberRound env 1 x.1 x.2,
      AtLine ["f"] [] y := by decide +kernel
  obtain ⟨x, hx, y, hy, hline⟩ := h
  have hsettings : y.2.settings = {} := hline.2.2.2.2.2.2.1
  exact ⟨⟨_, _, y, _, _, _, _, _, opens_of_firstBody? hx, runs_of_runs? hy, hline, rfl,
    settingLine_bigEndian hsettings⟩, by decide +kernel, by decide +kernel⟩

end RecordView.Declaration
