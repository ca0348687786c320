import Mathlib.Data.List.DropRight
import RecordView.Compiler
import RecordView.Proofs.Reader.Steps
import RecordView.Proofs.Settings

/-! A named text is applied to the settings as a whole or not at all: where it is accepted, one setting
takes the value that it spells and all others keep theirs, and to apply it again changes nothing. -/
namespace RecordView

/-! ## Trimmed texts -/

namespace Text

theorem trimChars_trimChars (cs : List Char) : trimChars (trimChars cs) = trimChars cs := by
  -- What is left of the text after its leading blanks starts as the trimmed text does.
  have hfirst : (trimChars cs).dropWhile isBlank = trimChars cs := by
    rw [List.dropWhile_eq_self_iff]
    intro hlength
    obtain ⟨rest, hrest⟩ : trimChars cs <+: cs.dropWhile isBlank := List.rdropWhile_prefix _ _
    have hhead := List.head?_dropWhile_not isBlank cs
    rw [← hrest, List.head?_append_of_ne_nil _ (List.ne_nil_of_length_pos hlength),
      List.head?_eq_getElem?, List.getElem?_eq_getElem hlength] at hhead
    rw [Bool.not_eq_true]
    exact hhead
  rw [trimChars, hfirst]
  exact List.rdropWhile_idempotent _ _

@[simp] theorem trim_trim (s : String) : trim (trim s) = trim s := by
  simp only [trim, String.toList_ofList, trimChars_trimChars]

end Text

namespace Settings

/-! ## Settings that are reached -/

/-- The settings that changes lead to from the default ones. A change that is refused leads to what it has
left. -/
inductive Reached : Settings → Prop where
  | start : Reached {}
  | accepted {u u' : Settings} (reached : Reached u) (name value : String) (declared : Bool)
      (stored : change name value declared u = .ok () u') : Reached u'
  | refused {u u' : Settings} (reached : Reached u) (name value : String) (declared : Bool) (r : Refusal)
      (left : change name value declared u = .error r u') : Reached u'

/-- A text that is taken over as it was given, without the blanks around it. -/
def FreeText (s : String) : Prop := s ≠ "" ∧ Text.trim s = s

structure Valid (u : Settings) : Prop where
  base : FreeText u.base
  endian : u.endian.name ∈ ["little", "big", "host"]
  hostEndian : u.hostEndian.name ∈ ["little", "big", "unknown"]
  pack : u.pack.bytes ∈ [1, 2, 4, 8, 16]
  language : u.language.name ∈ ["javascript", "typescript"]
  platform : u.platform.name ∈ ["xs", "node", "web"]
  bitOrder : u.bitOrder.name ∈ ["lsb", "msb"]
  comments : u.comments.name ∈ ["header", "true", "false"]
  interface : ∀ i ∈ u.interface, FreeText i ∧ i ≠ "none"
  imports : ∀ c ∈ u.imports, FreeText c

variable {u u' : Settings}

/-- The choices are valid by themselves. -/
theorem valid_of_texts (base : FreeText u.base) (interface : ∀ i ∈ u.interface, FreeText i ∧ i ≠ "none")
    (imports : ∀ c ∈ u.imports, FreeText c) : Valid u where
  base
  endian := by cases u.endian <;> decide
  hostEndian := by cases u.hostEndian <;> decide
  pack := by cases u.pack <;> decide
  language := by cases u.language <;> decide
  platform := by cases u.platform <;> decide
  bitOrder := by cases u.bitOrder <;> decide
  comments := by cases u.comments <;> decide
  interface
  imports

variable {setting : Setting} {name value : String} {declared : Bool} {r : Refusal}

/-- What is stored is a change of the setting that is named, and is stored in all settings. -/
theorem change_eq_ok (h : change name value declared u = .ok () u') :
    ∃ setting f, Setting.names.lookup name = some setting ∧ Update setting (Text.trim value) f ∧ u' = f u ∧
      ∀ v, change name value declared v = .ok () (f v) := by
  rcases change_cases name value declared with ⟨r, hrefused⟩ | ⟨setting, f, hlookup, -, hupdate, hstored⟩
  · rw [hrefused] at h
    cases h
  · rw [hstored] at h
    cases h
    exact ⟨setting, f, hlookup, hupdate, rfl, hstored⟩

theorem change_eq_error (h : change name value declared u = .error r u') :
    u' = u ∧ u.apply name value declared = .error r := by
  rw [change_eq] at h
  split at h
  · cases h
  · next hr =>
    cases h
    exact ⟨rfl, hr⟩

/-- A change keeps the settings valid and their imports distinct. -/
theorem Update.valid {f : Settings → Settings} (h : Update setting (Text.trim value) f) (hu : u.Valid)
    (himports : u.imports.Nodup) : (f u).Valid ∧ (f u).imports.Nodup := by
  have hkept := kept_of_restore (h.frame u)
  have hspelled := h.spelled u
  have hfree (hne : Text.trim value ≠ "") : FreeText (Text.trim value) := ⟨hne, Text.trim_trim value⟩
  have hbase' : FreeText (f u).base := by
    by_cases hset : setting = .base
    · subst hset
      obtain ⟨hne, heq⟩ := hspelled
      rw [heq]
      exact hfree hne
    · rw [hkept.base hset]
      exact hu.base
  have hinterface' : ∀ i ∈ (f u).interface, FreeText i ∧ i ≠ "none" := by
    by_cases hset : setting = .interface
    · subst hset
      obtain ⟨hne, heq⟩ := hspelled
      rw [heq]
      intro i hi
      split at hi
      · cases hi
      · next hnone =>
        cases hi
        exact ⟨hfree hne, hnone⟩
    · rw [hkept.interface hset]
      exact hu.interface
  have himport' : (∀ c ∈ (f u).imports, FreeText c) ∧ (f u).imports.Nodup := by
    by_cases hset : setting = .imports
    · subst hset
      obtain ⟨hne, heq⟩ := hspelled
      rw [heq]
      split
      · exact ⟨hu.imports, himports⟩
      · next hmem =>
        refine ⟨List.forall_mem_append.mpr ⟨hu.imports, List.forall_mem_singleton.mpr (hfree hne)⟩, ?_⟩
        refine List.nodup_append.mpr ⟨himports, List.pairwise_singleton _ _, fun c hc d hd => ?_⟩
        rw [List.mem_singleton.mp hd]
        exact fun heq => hmem (heq ▸ hc)
    · rw [hkept.imports hset]
      exact ⟨hu.imports, himports⟩
  exact ⟨valid_of_texts hbase' hinterface' himport'.1, himport'.2⟩

theorem Reached.valid (h : Reached u) : u.Valid ∧ u.imports.Nodup := by
  induction h with
  | start =>
    refine ⟨valid_of_texts ⟨by decide, by decide⟩ ?_ ?_, List.nodup_nil⟩
    · intro i hi
      cases hi
    · intro c hc
      cases hc
  | accepted _ name value declared stored ih =>
    obtain ⟨setting, f, -, hupdate, rfl, -⟩ := change_eq_ok stored
    exact hupdate.valid ih.1 ih.2
  | refused _ name value declared r left ih =>
    rw [(change_eq_error left).1]
    exact ih

open Declaration in
/-- A text is applied as a whole or not at all. Refused, it changes nothing: not the settings, not the state of
a reading that meets it, and not the settings of a compilation that is given it from outside. Accepted, it
changes the setting that it names to what it spells and keeps all others, the settings stay valid with distinct
imports, and to apply it again changes nothing. -/
theorem apply_atomic (hu : Reached u) (name value : String) (declared : Bool) :
    (∀ r u', change name value declared u = .error r u' → u' = u ∧
      (∀ (env : Env) (s : State), s.settings = u → s.declared = declared → name ≠ "inject" →
        Reader.applySetting name value env s = .error (.refused ⟨.setting r, none, none⟩) s) ∧
      ∀ s : State, s.settings = u → declared = false → (Compiler.override s name value).settings = u) ∧
    ∀ u', change name value declared u = .ok () u' →
      (∃ setting, Setting.names.lookup name = some setting ∧ restore setting u u' = u ∧
        Spelled setting (Text.trim value) u u') ∧
      u'.Valid ∧ u'.imports.Nodup ∧ change name value declared u' = .ok () u' := by
  refine ⟨fun r u' hr => ?_, fun u' hu' => ?_⟩
  · obtain ⟨hsame, hrefused⟩ := change_eq_error hr
    refine ⟨hsame, ?_, ?_⟩
    · rintro env s rfl rfl hname
      rw [Reader.applySetting_eq, Reader.get_bind_apply, if_neg hname, hrefused]
      rfl
    · rintro s rfl rfl
      unfold Compiler.override
      split
      · rfl
      · rw [hr]
        exact hsame
  · obtain ⟨setting, f, hlookup, hupdate, rfl, hagain⟩ := change_eq_ok hu'
    obtain ⟨hvalid, hnodup⟩ := (hu.accepted name value declared hu').valid
    exact ⟨⟨setting, hlookup, hupdate.frame u, hupdate.spelled u⟩, hvalid, hnodup,
      (hagain _).trans (congrArg (EStateM.Result.ok ()) (hupdate.again u))⟩

/-- A second import after a language with a platform, and a language that is refused for its platform. -/
theorem apply_atomic_import :
    ∃ u : Settings, Reached u ∧ u.imports = ["a"] ∧ u.platform = .node ∧
      (∃ u', change "import" " b " true u = .ok () u' ∧ u'.imports = ["a", "b"] ∧
        change "import" " b " true u' = .ok () u') ∧
      ∃ r u', change "language" "typescript/deno" false u = .error r u' ∧ u' = u ∧
        ∀ s : Declaration.State, s.settings = u →
          (Compiler.override s "language" "typescript/deno").settings = u := by
  have hfirst : change "language" "javascript / node" false {} = .ok () { platform := .node } := by rfl
  have hsecond : change "import" "a" false { platform := .node } =
      .ok () { platform := .node, imports := ["a"] } := by rfl
  have hu := (Reached.start.accepted _ _ _ hfirst).accepted _ _ _ hsecond
  refine ⟨_, hu, rfl, rfl, ⟨_, rfl, rfl, ?_⟩, _, _, rfl, ?_⟩
  · exact ((apply_atomic hu "import" " b " true).2 _ rfl).2.2.2
  · obtain ⟨hsame, -, hoverride⟩ := (apply_atomic hu "language" "typescript/deno" false).1 _ _ rfl
    exact ⟨hsame, fun s hs => hoverride s hs rfl⟩

end Settings
end RecordView
