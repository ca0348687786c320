import RecordView.Proofs.Compiler
import RecordView.Proofs.Declaration.Pragma
import RecordView.Proofs.Declaration.Relocation
import RecordView.Proofs.Declaration.Resumption
import RecordView.Proofs.Token.Coverage

/-! Settings from outside act like pragma lines at the top of the description. -/
namespace RecordView
open Declaration Reader

def Options.bare (o : Options) : Options := { o with overrides := {} }

def Options.prepend (o : Options) (source : String) : String :=
  Token.pragmaLines o.overrides.entries ++ source

namespace Compiler

variable {o : Options} {file source : String} {es : List (String × String)} {a s : State}
  {ts post : List Token}

/-! ## Accepted settings -/

/-- A setting from outside is refused, or it sets what a pragma line sets. -/
theorem override_cases (a : State) (name value : String) :
    a.report.errors.length < (override a name value).report.errors.length ∨
      ∃ u c, override a name value = { a with settings := u, script := c } ∧
        ∀ s : State, s.settings = a.settings → s.script = a.script → s.declared = false →
          Sets s name value u c := by
  refine override_elim a name value (fun hname => ?_) (fun u hname happly => ?_) fun r _ => ?_
  · refine .inr ⟨_, _, rfl, fun s hsettings hscript _ => ?_⟩
    rw [← hsettings, ← hscript]
    exact .verbatim hname
  · refine .inr ⟨u, _, rfl, fun s hsettings hscript hdeclared => ?_⟩
    rw [← hscript]
    refine .setting hname ?_
    rw [hsettings, hdeclared, happly]
  · exact .inl (by simp [Report.add])

def overrideAll (a : State) (es : List (String × String)) : State :=
  es.foldl (fun s e => override s e.1 e.2) a

theorem errors_le_overrideAll (es : List (String × String)) (a : State) :
    a.report.errors.length ≤ (overrideAll a es).report.errors.length := by
  induction es generalizing a with
  | nil => exact Nat.le_refl _
  | cons e es ih =>
    refine Nat.le_trans ?_ (ih (override a e.1 e.2))
    rcases override_cases a e.1 e.2 with h | ⟨u, c, heq, -⟩
    · exact Nat.le_of_lt h
    · rw [heq]

/-- The tokens of a pragma line are read in one round. -/
theorem exists_runs_line (env : Env) {u : Settings} {c : Script} {name value : String} {n : Nat}
    (hs : s.Clear) (hfull : s.report.full = false) (hsets : Sets s name value u c)
    (hunread : s.unread = Token.lineTokens file n name value ++ post) :
    ∃ taken last notes, Runs statementRound env () s ()
      { s with unread := post, taken, last, notes, settings := u, script := c } := by
  have hpragma : String.ofList ("#pragma".toList.drop 1) = "pragma" := by decide
  have hline : PragmaLine ⟨.directive, "#pragma", file, n, 1⟩ ⟨.identifier, name, file, n, 9⟩
      ⟨.blob, value, file, n, 9 + name.length⟩
      ⟨.newline, "\n", file, n, 11 + name.length + value.length⟩ := ⟨congrArg some hpragma, rfl, rfl, rfl⟩
  have hround : statementRound () env s = .ok (.again ()) (s.behind _ _ _ _ post u c) :=
    hline.statementRound_eq hs hunread hfull hsets
  rw [State.behind, ← hs.ahead] at hround
  refine ⟨_, _, _, Runs.start.next hround ?_⟩
  simp [State.left, hunread, Token.lineTokens]
  omega

/-- Where the settings of the lines are accepted from outside, the lines set the same. -/
theorem exists_runs_lines (env : Env) (hs : s.Clear) (hdeclared : s.declared = false)
    (hfull : s.report.full = false) (hsettings : s.settings = a.settings) (hscript : s.script = a.script)
    (haccepted : (overrideAll a es).report.errors.length = a.report.errors.length) {n : Nat}
    (hunread : s.unread = Token.linesTokens file n es ++ post) :
    ∃ u c taken last notes, overrideAll a es = { a with settings := u, script := c } ∧
      Runs statementRound env () s ()
        { s with unread := post, taken, last, notes, settings := u, script := c } := by
  induction es generalizing a s n with
  | nil =>
    have hpost : s.unread = post := hunread
    refine ⟨a.settings, a.script, s.taken, s.last, s.notes, rfl, ?_⟩
    rw [← hsettings, ← hscript, ← hpost]
    exact .start
  | cons e es ih =>
    -- The first setting adds no error, since no setting takes errors away.
    have hle := errors_le_overrideAll es (override a e.1 e.2)
    rcases override_cases a e.1 e.2 with h | ⟨u, c, heq, hsets⟩
    · exact absurd (Nat.lt_of_lt_of_le h hle) (Nat.not_lt.mpr (Nat.le_of_eq haccepted))
    · obtain ⟨taken, last, notes, hfirst⟩ := exists_runs_line env hs hfull
        (hsets s hsettings hscript hdeclared) (hunread.trans (List.append_assoc _ _ _))
      rw [overrideAll, List.foldl_cons, ← overrideAll, heq] at haccepted ⊢
      obtain ⟨u', c', taken', last', notes', hall, hrest⟩ :=
        ih (a := { a with settings := u, script := c })
          (s := { s with
            unread := Token.linesTokens file (n + 1) es ++ post, taken, last, notes
            settings := u, script := c })
          ⟨hs.ahead, hs.eof, hs.active⟩ hdeclared hfull rfl rfl haccepted rfl
      exact ⟨u', c', taken', last', notes', hall, hfirst.trans hrest⟩

/-! ## Reading on behind the lines -/

theorem script_relabel_start (R : Relabeling) (o : Options) (source : String) :
    (start o source).script.relabel R = (start o source).script := by
  refine start_script (P := fun c => c.relabel R = c) o source rfl fun script text h => ?_
  rw [Script.verbatim_relabel, h]

variable (hlimit : 0 < o.maxErrors) (hentries : ∀ e ∈ o.overrides.entries, Token.IsSetting e.1 e.2)
  (hscan : Token.scan o.file source = .ok ts) (haccepted : (start o source).report.errors = [])

include hlimit hentries hscan haccepted in
/-- Behind the lines, the reading has come to where it starts without them. -/
theorem exists_runs_prepend (env : Env) :
    ∃ u c taken last notes,
      start o source =
        { unread := ts, settings := u, script := c, report := { limit := o.maxErrors } } ∧
      Runs statementRound env () (start o.bare (o.prepend source)) ()
        { unread := ts.map (Token.down o.overrides.entries.length), taken, last, notes, settings := u
          script := c, report := { limit := o.maxErrors } } := by
  let fresh : State := { unread := [], report := { limit := o.maxErrors } }
  have hstart : start o source = { overrideAll fresh o.overrides.entries with unread := ts } := by
    rw [start, tokens, hscan]
    rfl
  let lines := Token.linesTokens o.file 1 o.overrides.entries
  let moved := ts.map (Token.down o.overrides.entries.length)
  have hstart' : start o.bare (o.prepend source) = { fresh with unread := lines ++ moved } := by
    rw [start, tokens, Options.bare, Options.prepend, Token.scan_pragmaLines hentries hscan]
    rfl
  have hfull : fresh.report.full = false := by
    simpa [fresh, Report.full] using hlimit
  have hnone : (overrideAll fresh o.overrides.entries).report.errors.length =
      fresh.report.errors.length := by
    rw [hstart] at haccepted
    rw [haccepted]
  rw [hstart']
  obtain ⟨u, c, taken, last, notes, hall, hruns⟩ := exists_runs_lines env (a := fresh)
    (s := { fresh with unread := lines ++ moved }) ⟨rfl, rfl, rfl⟩ rfl hfull rfl rfl hnone rfl
  exact ⟨u, c, taken, last, notes, by rw [hstart, hall], hruns⟩

include hlimit hentries hscan haccepted in
theorem read_prepend :
    let r := Declaration.read ⟨o.padding, lineOf source⟩ (start o source)
    let r' := Declaration.read ⟨o.padding, lineOf (o.prepend source)⟩ (start o.bare (o.prepend source))
    r'.2 = r.2 ∧ r.1.Below o.overrides.entries.length r'.1 := by
  obtain ⟨u, c, taken, last, notes, hstart, hruns⟩ := exists_runs_prepend hlimit hentries hscan haccepted
    ⟨o.padding, lineOf (o.prepend source)⟩
  have hscript (R : Relabeling) : c.relabel R = c := by
    simpa only [hstart] using script_relabel_start R o source
  obtain ⟨e, he, hkind⟩ := Token.eof_mem_scan hscan
  have htokens : (ts.map (Token.down o.overrides.entries.length)).map (Token.down 0) =
      ts.map (Token.down o.overrides.entries.length) := List.map_map.trans rfl
  rw [hstart, read_eq_of_runs hruns]
  refine read_below ?_ ?_ ?_ ?_ ?_
  · rfl
  · exact .inr ⟨e, he, hkind⟩
  · exact .inr ⟨e.down _, List.mem_map_of_mem he, hkind⟩
  · exact congrArg (fun ts => (ts, _)) htokens
  · exact ⟨rfl, (hscript _).trans (hscript _).symm, rfl⟩

def settingsAtEnd (o : Options) (source : String) : Settings :=
  (Declaration.read ⟨o.padding, lineOf source⟩ (start o source)).1.settings

end Compiler

/-! ## The results -/

/-- The same error so many lines further down, whatever line it quotes. -/
structure Diagnostic.Below (k : Nat) (d d' : Diagnostic) : Prop where
  kind : d'.problem.kind = d.problem.kind
  message : d'.problem.message = d.problem.message
  location : d'.location = d.location.map (Location.down k)

/-- The second compilation is that of the same description so many lines further down. -/
structure Compilation.Below (k : Nat) (c c' : Compilation) : Prop where
  language : c'.language = c.language
  platform : c'.platform = c.platform
  success : c'.success = c.success
  errors : List.Forall₂ (Diagnostic.Below k) c.report.errors c'.report.errors

theorem Diagnostic.below_of_relabel {k : Nat} {d d' : Diagnostic}
    (h : d'.relabel (.down 0) = d.relabel (.down k)) : d.Below k d' := by
  have hplace : Location.down 0 = id := by
    funext l
    simp [Location.down]
  refine ⟨?_, ?_, ?_⟩
  · simpa [relabel] using congrArg (·.problem.kind) h
  · simpa [relabel] using congrArg (·.problem.message) h
  · calc d'.location = d'.location.map (Location.down 0) := by rw [hplace, Option.map_id_fun, id]
      _ = d.location.map (Location.down k) := congrArg (·.location) h

theorem Diagnostic.forall₂_below {k : Nat} {ds ds' : List Diagnostic}
    (h : ds'.map (·.relabel (.down 0)) = ds.map (·.relabel (.down k))) :
    List.Forall₂ (Diagnostic.Below k) ds ds' := by
  rw [eq_comm, ← List.forall₂_eq_eq_eq, List.forall₂_map_left_iff, List.forall₂_map_right_iff] at h
  exact h.imp fun d d' hd => below_of_relabel hd.symm

namespace Compiler

variable {k : Nat} {s s' : State}

theorem outcome_below (h : s.Below k s') (source source' : String) :
    (outcome source s).Below k (outcome source' s') := by
  have herrors := Diagnostic.forall₂_below h.errors
  have hsuccess : s'.report.errors.isEmpty = s.report.errors.isEmpty := by
    generalize s.report.errors = ds at herrors ⊢
    generalize s'.report.errors = ds' at herrors ⊢
    cases herrors with
    | nil => rfl
    | cons _ _ => rfl
  exact ⟨congrArg Settings.language h.settings, congrArg Settings.platform h.settings, hsuccess, herrors⟩

theorem assemble_below (h : s.Below k s') (hsource : s.settings.source = false)
    (source source' : String) :
    s'.script.assemble s'.settings source' = s.script.assemble s.settings source := by
  have hlines (text : String) : Script.sourceLines s.settings text = [] := by
    rw [Script.sourceLines, hsource]
    rfl
  calc s'.script.assemble s'.settings source'
      = (s'.script.relabel (.down 0)).assemble s.settings source' := by
        rw [Script.assemble_relabel, h.settings]
    _ = (s.script.relabel (.down k)).assemble s.settings source' := by rw [h.script]
    _ = s.script.assemble s.settings source' := Script.assemble_relabel _ _ _
    _ = s.script.assemble s.settings source := by
        rw [Script.assemble, Script.assemble, hlines, hlines]

/-- Settings from outside that are accepted act like pragma lines at the top of the description. The
limit of errors is not reached before the first line, where nothing would be read. -/
theorem compile_prepend {o : Options} {source : String} {ts : List Token} (hlimit : 0 < o.maxErrors)
    (hentries : ∀ e ∈ o.overrides.entries, Token.IsSetting e.1 e.2)
    (hscan : Token.scan o.file source = .ok ts) (haccepted : (start o source).report.errors = []) :
    (∃ f, (compile o source).result = .error f ∧
      (compile o.bare (o.prepend source)).result = .error f) ∨
    ∃ c c', (compile o source).result = .ok c ∧ (compile o.bare (o.prepend source)).result = .ok c' ∧
      c.Below o.overrides.entries.length c' ∧
      settingsAtEnd o.bare (o.prepend source) = settingsAtEnd o source ∧
      ((settingsAtEnd o source).source = false → c'.code = c.code) := by
  obtain ⟨hfailure, hbelow⟩ := read_prepend hlimit hentries hscan haccepted
  have hresult := result_eq o source
  have hresult' := result_eq o.bare (o.prepend source)
  dsimp only at hresult hresult' hfailure hbelow
  rw [hresult, hresult', show o.bare.padding = o.padding from rfl, hfailure]
  cases (Declaration.read ⟨o.padding, lineOf source⟩ (start o source)).2 with
  | some f => exact .inl ⟨f, rfl, rfl⟩
  | none =>
    exact .inr ⟨_, _, rfl, rfl, outcome_below hbelow source _, hbelow.settings,
      fun hsource => assemble_below hbelow hsource _ _⟩

def mistaken : String := "struct A \x7b int32_t a; missing b; \x7d;"

def typedSettings : Keyed String :=
  ⟨[("language", "typescript"), ("outputSource", "false"), ("inject", "// first")]⟩

theorem compile_prepend_typed :
    let o : Options := { overrides := typedSettings }
    o.prepend mistaken = "#pragma language(typescript)\n#pragma outputSource(false)\n" ++
        "#pragma inject(// first)\nstruct A \x7b int32_t a; missing b; \x7d;" ∧
      ∃ c c', (compile o mistaken).result = .ok c ∧
        (compile o.bare (o.prepend mistaken)).result = .ok c' ∧ c.Below 3 c' ∧
        c'.code = c.code ∧ c.language = .typescript ∧
        c.report.errors.map (·.location) = [some ⟨"<input>", 1, 23⟩] := by
  intro o
  have hread : let r := Declaration.read ⟨o.padding, lineOf mistaken⟩ (start o mistaken)
      r.2 = none ∧ r.1.settings.source = false ∧ r.1.settings.language = .typescript ∧
        r.1.report.errors.map (·.location) = [some ⟨"<input>", 1, 23⟩] := by decide +kernel
  have hlimit : 0 < o.maxErrors := by decide
  have hentries : ∀ e ∈ o.overrides.entries, Token.IsSetting e.1 e.2 := by decide +kernel
  have htokens : (Token.scan o.file mistaken).toBool = true := by decide +kernel
  have haccepted : (start o mistaken).report.errors = [] := by decide +kernel
  have hcount : o.overrides.entries.length = 3 := rfl
  refine ⟨by decide +kernel, ?_⟩
  clear_value o
  obtain ⟨hnone, hsource, hlanguage, herrors⟩ := hread
  have hresult := result_of_none hnone
  cases hscan : Token.scan o.file mistaken with
  | error d =>
    rw [hscan] at htokens
    cases htokens
  | ok ts =>
    rcases compile_prepend hlimit hentries hscan haccepted with
      ⟨f, hf, -⟩ | ⟨c, c', hc, hc', hbelow, -, hcode⟩
    · exact absurd (hresult.symm.trans hf) (by simp)
    · obtain rfl := Except.ok.inj (hresult.symm.trans hc)
      rw [hcount] at hbelow
      exact ⟨_, c', hresult, hc', hbelow, hcode hsource, hlanguage, herrors⟩

end Compiler
end RecordView
