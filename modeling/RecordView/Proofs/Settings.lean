import RecordView.Failure
import RecordView.Settings

/-! What a named text does to the settings: it is refused and stores nothing, or it is a change of one
setting, whatever the settings are. So the dialect of a script (its language, its platform and what is known
of its host) stays as it is once a type is declared. -/
namespace RecordView.Settings

def dialect (u : Settings) : Language × Platform × HostEndian := (u.language, u.platform, u.hostEndian)

/-- The settings that the layout depends on; the others have their defaults. -/
def plain (u : Settings) : Settings :=
  { pack := u.pack, language := u.language, platform := u.platform, bitOrder := u.bitOrder }

variable {α : Type} {u u' w : Settings} {setting : Setting} {name value : String} {declared : Bool}
  {r : Refusal} {names : List (String × α)} {a : α}

theorem flags_congr (hlanguage : u.language = w.language) (hplatform : u.platform = w.platform) :
    u.flags = w.flags := by
  unfold flags
  rw [hlanguage, hplatform]

theorem mem_of_lookup (h : names.lookup name = some a) : (name, a) ∈ names := by
  obtain ⟨before, after, heq, -⟩ := List.lookup_eq_some_iff.mp h
  rw [heq]
  exact List.mem_append_right _ List.mem_cons_self

/-! ## What a setting governs -/

def isOn (u : Settings) : Switch → Bool
  | .getters => u.getters
  | .setters => u.setters
  | .exported => u.exported
  | .byteLength => u.byteLength
  | .checkLength => u.checkLength
  | .json => u.json
  | .source => u.source
  | .strictFrom => u.strictFrom

/-- The settings with what `setting` governs as it is in `old`. -/
def restore (setting : Setting) (old new : Settings) : Settings :=
  match setting with
  | .switch w => new.turn (old.isOn w) w
  | .base => { new with base := old.base }
  | .endian => { new with endian := old.endian }
  | .hostEndian => { new with hostEndian := old.hostEndian }
  | .pack => { new with pack := old.pack }
  | .language => { new with language := old.language, platform := old.platform }
  | .bitOrder => { new with bitOrder := old.bitOrder }
  | .comments => { new with comments := old.comments }
  | .interface => { new with interface := old.interface }
  | .imports => { new with imports := old.imports }

/-- What `setting` governs is in `new` what a trimmed text spells. A platform that is not named stays,
and so do the imports where the text is one of them. -/
def Spelled (setting : Setting) (value : String) (old new : Settings) : Prop :=
  match setting with
  | .switch w => value = if new.isOn w then "true" else "false"
  | .base => value ≠ "" ∧ new.base = value
  | .endian => value = new.endian.name
  | .hostEndian => value = new.hostEndian.name
  | .pack => Decimal.readInt? value = some (new.pack.bytes : Int)
  | .language =>
    Text.trim (atSlash value).1 = new.language.name ∧
      if Text.trim (atSlash value).2 = "" then new.platform = old.platform
      else Text.trim (atSlash value).2 = new.platform.name
  | .bitOrder => value = new.bitOrder.name
  | .comments => value = new.comments.name
  | .interface => value ≠ "" ∧ new.interface = if value = "none" then none else some value
  | .imports =>
    value ≠ "" ∧ new.imports = if value ∈ old.imports then old.imports else old.imports ++ [value]

structure Update (setting : Setting) (value : String) (f : Settings → Settings) : Prop where
  again : ∀ u, f (f u) = f u
  frame : ∀ u, restore setting u (f u) = u
  spelled : ∀ u, Spelled setting value u (f u)
  plain : ∀ u, (f u.plain).plain = (f u).plain

/-- Some of what a change of one setting keeps. -/
structure Kept (setting : Setting) (u u' : Settings) : Prop where
  base : setting ≠ .base → u'.base = u.base
  hostEndian : setting ≠ .hostEndian → u'.hostEndian = u.hostEndian
  language : setting ≠ .language → u'.language = u.language ∧ u'.platform = u.platform
  interface : setting ≠ .interface → u'.interface = u.interface
  imports : setting ≠ .imports → u'.imports = u.imports

theorem kept_of_restore (h : restore setting u u' = u) : Kept setting u u' := by
  rw [← h]
  cases setting with
  | switch w => cases w <;> exact ⟨fun _ => rfl, fun _ => rfl, fun _ => ⟨rfl, rfl⟩, fun _ => rfl, fun _ => rfl⟩
  | base => exact ⟨fun hne => absurd rfl hne, fun _ => rfl, fun _ => ⟨rfl, rfl⟩, fun _ => rfl, fun _ => rfl⟩
  | hostEndian => exact ⟨fun _ => rfl, fun hne => absurd rfl hne, fun _ => ⟨rfl, rfl⟩, fun _ => rfl, fun _ => rfl⟩
  | language => exact ⟨fun _ => rfl, fun _ => rfl, fun hne => absurd rfl hne, fun _ => rfl, fun _ => rfl⟩
  | interface => exact ⟨fun _ => rfl, fun _ => rfl, fun _ => ⟨rfl, rfl⟩, fun hne => absurd rfl hne, fun _ => rfl⟩
  | imports => exact ⟨fun _ => rfl, fun _ => rfl, fun _ => ⟨rfl, rfl⟩, fun _ => rfl, fun hne => absurd rfl hne⟩
  | _ => exact ⟨fun _ => rfl, fun _ => rfl, fun _ => ⟨rfl, rfl⟩, fun _ => rfl, fun _ => rfl⟩

/-! ## What is stored -/

/-- A change that is made as a whole or not at all, whatever the settings are. -/
inductive Decided (setting : Setting) (value : String) (m : EStateM Refusal Settings Unit) : Prop where
  | refused (r : Refusal) (stays : ∀ u, m u = .error r u)
  | stored (f : Settings → Settings) (update : Update setting value f) (stores : ∀ u, m u = .ok () (f u))

theorem decided_store {x : Except Refusal α} {put : Settings → α → Settings}
    (h : ∀ a, x = .ok a → Update setting value fun u => put u a) : Decided setting value (store x put) := by
  cases x with
  | error r => exact .refused r fun u => rfl
  | ok a => exact .stored (fun u => put u a) (h a rfl) fun u => rfl

theorem eq_some_of_orRefuse {x : Option α} (h : orRefuse r x = .ok a) : x = some a := by
  cases x with
  | none => cases h
  | some b =>
    cases h
    rfl

theorem required_eq_ok {v : String} (h : required r value = .ok v) : value ≠ "" ∧ v = value := by
  unfold required at h
  split at h
  · cases h
  · next hvalue =>
    cases h
    exact ⟨by simpa using hvalue, rfl⟩

/-- A value that is chosen by name is spelled by its name. -/
theorem choose_spelled {spell : α → String} (hnames : ∀ x ∈ names, x.1 = spell x.2)
    (h : choose names name value = .ok a) : value = spell a :=
  hnames (value, a) (mem_of_lookup (eq_some_of_orRefuse h))

theorem turn_turn (u : Settings) (on on' : Bool) (w : Switch) : (u.turn on w).turn on' w = u.turn on' w := by
  cases w <;> rfl

theorem turn_isOn (u : Settings) (w : Switch) : u.turn (u.isOn w) w = u := by
  cases w <;> rfl

theorem isOn_turn (u : Settings) (on : Bool) (w : Switch) : (u.turn on w).isOn w = on := by
  cases w <;> rfl

theorem plain_turn (u : Settings) (on : Bool) (w : Switch) : (u.turn on w).plain = u.plain := by
  cases w <;> rfl

theorem update_turn {on : Bool} (h : onOff name value = .ok on) (w : Switch) :
    Update (.switch w) value fun u => u.turn on w := by
  have hvalue : value = if on then "true" else "false" := by
    unfold onOff at h
    split at h
    · cases h
      assumption
    · split at h
      · cases h
        assumption
      · cases h
  refine ⟨fun u => u.turn_turn _ _ w, fun u => ?_, fun u => ?_, fun u => ?_⟩
  · rw [restore, turn_turn, turn_isOn]
  · rw [Spelled, isOn_turn]
    exact hvalue
  · rw [plain_turn, plain_turn]
    rfl

theorem update_imports (hvalue : value ≠ "") : Update .imports value fun u =>
    if u.imports.contains value then u else { u with imports := u.imports ++ [value] } := by
  constructor <;> intro u <;> by_cases hmem : value ∈ u.imports
  · simp [hmem]
  · simp [hmem]
  · simp [hmem, restore]
  · simp [hmem, restore]
  · simp [hmem, hvalue, Spelled]
  · simp [hmem, hvalue, Spelled]
  · simp [hmem, plain]
  · simp [hmem, plain]

/-- A platform that is refused is found before the language is stored. -/
theorem decided_storeLanguage (value : String) : Decided .language value (storeLanguage value) := by
  have hlanguages : ∀ x ∈ Language.names, x.1 = x.2.name := by decide
  have hplatforms : ∀ x ∈ Platform.names, x.1 = x.2.name := by decide
  unfold storeLanguage
  dsimp only
  generalize hbefore : Text.trim (atSlash value).1 = before
  generalize hafter : Text.trim (atSlash value).2 = after
  cases hl : Language.names.lookup before with
  | none => exact .refused (.language before) fun u => rfl
  | some l =>
    have hname : before = l.name := hlanguages (before, l) (mem_of_lookup hl)
    by_cases hempty : after = ""
    · subst hempty
      refine .stored (fun u => { u with language := l }) ⟨fun u => rfl, fun u => rfl, fun u => ?_, fun u => rfl⟩
        fun u => rfl
      rw [Spelled, hbefore, hafter, if_pos rfl]
      exact ⟨hname, rfl⟩
    · have hnot : after.isEmpty = false := by simp [hempty]
      rw [hnot]
      cases hp : Platform.names.lookup after with
      | none => exact .refused (.platform after) fun u => rfl
      | some p =>
        have hplatform : after = p.name := hplatforms (after, p) (mem_of_lookup hp)
        refine .stored (fun u => { u with language := l, platform := p })
          ⟨fun u => rfl, fun u => rfl, fun u => ?_, fun u => rfl⟩ fun u => rfl
        rw [Spelled, hbefore, hafter, if_neg hempty]
        exact ⟨hname, hplatform⟩

theorem decided_assign (setting : Setting) (name value : String) :
    Decided setting value (assign setting name value) := by
  cases setting with
  | switch w => exact decided_store fun on hon => update_turn hon w
  | language => exact decided_storeLanguage value
  | endian =>
    exact decided_store fun e he =>
      ⟨fun u => rfl, fun u => rfl, fun u => choose_spelled (by decide) he, fun u => rfl⟩
  | hostEndian =>
    exact decided_store fun e he =>
      ⟨fun u => rfl, fun u => rfl, fun u => choose_spelled (by decide) he, fun u => rfl⟩
  | bitOrder =>
    exact decided_store fun o ho =>
      ⟨fun u => rfl, fun u => rfl, fun u => choose_spelled (by decide) ho, fun u => rfl⟩
  | comments =>
    exact decided_store fun c hc =>
      ⟨fun u => rfl, fun u => rfl, fun u => choose_spelled (by decide) hc, fun u => rfl⟩
  | pack =>
    refine decided_store fun p hp => ⟨fun u => rfl, fun u => rfl, fun u => ?_, fun u => rfl⟩
    obtain ⟨n, hn, hpack⟩ := Option.bind_eq_some_iff.mp (eq_some_of_orRefuse hp)
    have hbytes : (p.bytes : Int) = n := by simpa using List.find?_some hpack
    rw [Spelled, hn, hbytes]
  | base =>
    refine decided_store fun v hv => ?_
    obtain ⟨hvalue, rfl⟩ := required_eq_ok hv
    exact ⟨fun u => rfl, fun u => rfl, fun u => ⟨hvalue, rfl⟩, fun u => rfl⟩
  | interface =>
    refine decided_store fun v hv => ?_
    obtain ⟨hvalue, rfl⟩ := required_eq_ok hv
    exact ⟨fun u => rfl, fun u => rfl, fun u => ⟨hvalue, rfl⟩, fun u => rfl⟩
  | imports =>
    refine decided_store fun v hv => ?_
    obtain ⟨hvalue, rfl⟩ := required_eq_ok hv
    exact update_imports hvalue

theorem change_cases (name value : String) (declared : Bool) :
    (∃ r, ∀ u, change name value declared u = .error r u) ∨
      ∃ setting f, Setting.names.lookup name = some setting ∧ (setting.isLeading && declared) = false ∧
        Update setting (Text.trim value) f ∧ ∀ u, change name value declared u = .ok () (f u) := by
  unfold change
  cases hlookup : Setting.names.lookup name with
  | none => exact .inl ⟨.unknown name, fun u => rfl⟩
  | some setting =>
    dsimp only
    cases hleading : setting.isLeading && declared with
    | true => exact .inl ⟨.tooLate name, fun u => rfl⟩
    | false =>
      cases decided_assign setting name (Text.trim value) with
      | refused r stays => exact .inl ⟨r, stays⟩
      | stored f update stores => exact .inr ⟨setting, f, rfl, hleading, update, stores⟩

/-! ## Settings after a change -/

/-- The settings that a named text leads to, or the reason why it is refused. -/
def apply (u : Settings) (name value : String) (declared : Bool := false) : Except Refusal Settings :=
  match change name value declared u with
  | .ok _ u' => .ok u'
  | .error r _ => .error r

/-- What is refused has stored nothing. -/
theorem change_eq (name value : String) (declared : Bool) (u : Settings) :
    change name value declared u =
      match u.apply name value declared with
      | .ok u' => .ok () u'
      | .error r => .error r u := by
  unfold apply
  rcases change_cases name value declared with ⟨r, h⟩ | ⟨_, f, -, -, -, h⟩
  · rw [h]
  · rw [h]

/-- An accepted text is a change of the setting that it names, and is accepted by all settings. -/
theorem apply_eq_ok (h : u.apply name value declared = .ok u') :
    ∃ setting f, Setting.names.lookup name = some setting ∧ (setting.isLeading && declared) = false ∧
      Update setting (Text.trim value) f ∧ u' = f u ∧ ∀ v : Settings, v.apply name value declared = .ok (f v) := by
  unfold apply at h ⊢
  rcases change_cases name value declared with ⟨r, hrefused⟩ | ⟨setting, f, hlookup, hearly, hupdate, hstored⟩
  · rw [hrefused] at h
    cases h
  · rw [hstored] at h
    cases h
    exact ⟨setting, f, hlookup, hearly, hupdate, rfl, fun v => by rw [hstored]⟩

theorem apply_eq_error (h : u.apply name value declared = .error r) (v : Settings) :
    v.apply name value declared = .error r := by
  unfold apply at h ⊢
  rcases change_cases name value declared with ⟨r', hrefused⟩ | ⟨_, f, -, -, -, hstored⟩
  · rw [hrefused] at h ⊢
    cases h
    rfl
  · rw [hstored] at h
    cases h

/-- Once a type is declared, no setting changes the dialect. -/
theorem apply_dialect (h : u.apply name value true = .ok u') : u'.dialect = u.dialect := by
  obtain ⟨setting, f, -, hearly, hupdate, rfl, -⟩ := apply_eq_ok h
  have hkept := kept_of_restore (hupdate.frame u)
  have hne (s : Setting) (hs : s.isLeading = true) : setting ≠ s := by
    rintro rfl
    simp [hs] at hearly
  obtain ⟨hlanguage, hplatform⟩ := hkept.language (hne .language rfl)
  rw [dialect, dialect, hlanguage, hplatform, hkept.hostEndian (hne .hostEndian rfl)]

/-- Only one setting changes the language and the platform. -/
theorem apply_language (h : u.apply name value declared = .ok u') (hname : name ≠ "language") :
    u'.language = u.language ∧ u'.platform = u.platform := by
  obtain ⟨setting, f, hlookup, -, hupdate, rfl, -⟩ := apply_eq_ok h
  refine (kept_of_restore (hupdate.frame u)).language ?_
  rintro rfl
  have hmem := mem_of_lookup hlookup
  simp [Setting.names, hname] at hmem

/-- A setting of the layout gets the same value, and is refused for the same reason, whatever the
others are. -/
theorem apply_plain (u : Settings) (name value : String) (declared : Bool) :
    (u.plain.apply name value declared).map plain = (u.apply name value declared).map plain := by
  unfold apply
  rcases change_cases name value declared with ⟨r, h⟩ | ⟨_, f, -, -, hupdate, h⟩
  · rw [h, h]
  · rw [h, h]
    exact congrArg Except.ok (hupdate.plain u)

/-- The settings after a language pragma; one that is not accepted changes nothing. -/
def speak (u : Settings) (value : String) : Settings := (u.apply "language" value).toOption.getD u

theorem speak_of_ok (h : u.apply "language" value = .ok u') (hplatform : u.platform = w.platform) :
    u'.language = (w.speak value).language ∧ u'.platform = (w.speak value).platform := by
  have hlanguages : ∀ l l' : Language, l.name = l'.name → l = l' := by
    intro l l'
    cases l <;> cases l' <;> decide
  have hplatforms : ∀ p p' : Platform, p.name = p'.name → p = p' := by
    intro p p'
    cases p <;> cases p' <;> decide
  obtain ⟨setting, f, hlookup, -, hupdate, rfl, hall⟩ := apply_eq_ok h
  have hname : Setting.names.lookup "language" = some .language := by decide
  obtain rfl := Option.some.inj (hname.symm.trans hlookup)
  rw [speak, hall]
  by_cases hempty : Text.trim (atSlash (Text.trim value)).2 = ""
  · have hspelled (v : Settings) : Text.trim (atSlash (Text.trim value)).1 = (f v).language.name ∧
        (f v).platform = v.platform := by
      simpa only [Spelled, if_pos hempty] using hupdate.spelled v
    exact ⟨hlanguages _ _ ((hspelled u).1.symm.trans (hspelled w).1),
      (hspelled u).2.trans (hplatform.trans (hspelled w).2.symm)⟩
  · have hspelled (v : Settings) : Text.trim (atSlash (Text.trim value)).1 = (f v).language.name ∧
        Text.trim (atSlash (Text.trim value)).2 = (f v).platform.name := by
      simpa only [Spelled, if_neg hempty] using hupdate.spelled v
    exact ⟨hlanguages _ _ ((hspelled u).1.symm.trans (hspelled w).1),
      hplatforms _ _ ((hspelled u).2.symm.trans (hspelled w).2)⟩

theorem speak_of_error (h : u.apply "language" value = .error r) : w.speak value = w := by
  rw [speak, apply_eq_error h]
  rfl

end RecordView.Settings
