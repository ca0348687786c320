import RecordView.Proofs.Compiler.Scope

/-! The names that a script declares at its top: those of the types are distinct and exported once, and
they meet a name that the script brings along only if the description repeats it. -/
namespace RecordView

namespace Script

variable {s : Script}

def Item.name? : Item → Option String
  | .classDecl c => some c.name
  | .enumDecl e => some e.name
  | .verbatim _ => none

def Item.exported : Item → Bool
  | .classDecl c => c.exported
  | .enumDecl e => e.exported
  | .verbatim _ => false

def typeNames (s : Script) : List String := s.items.filterMap Item.name?

def exportedNames (s : Script) : List String := (s.items.filter Item.exported).filterMap Item.name?

/-- The names that the script brings along: the host variable and the helper classes. -/
def ownNames (s : Script) : List String :=
  (if s.host then [hostVariable] else []) ++ (Helper.all.filter s.helpers.contains).map Helper.name

def names (s : Script) : List String := s.ownNames ++ s.typeNames

theorem nodup_ownNames (s : Script) : s.ownNames.Nodup := by
  have hall : ([hostVariable] ++ Helper.all.map Helper.name).Nodup := by decide
  refine hall.sublist (List.Sublist.append ?_ (List.filter_sublist.map _))
  split
  · exact List.Sublist.refl _
  · exact List.nil_sublist _

/-- Where the types have distinct names, these can only meet the names that the script brings along. -/
theorem nodup_names (h : s.typeNames.Nodup) : s.names.Nodup ↔ ∀ w ∈ s.typeNames, w ∉ s.ownNames := by
  unfold names
  rw [List.nodup_append]
  constructor
  · rintro ⟨-, -, hapart⟩ w hw hown
    exact hapart w hown w hw rfl
  · intro hfree
    refine ⟨s.nodup_ownNames, h, fun v hv w hw heq => hfree w hw ?_⟩
    rwa [← heq]

theorem typeNames_eq (s : Script) : s.typeNames = s.decls.filterMap Item.name? := by
  unfold typeNames decls
  rw [List.filterMap_filter]
  congr 1
  funext i
  cases i <;> rfl

theorem exportedNames_sublist (s : Script) : s.exportedNames.Sublist s.typeNames :=
  List.filter_sublist.filterMap _

/-- A class does not extend the type of its own name, which would stand before it. -/
theorem ClassDecl.Known.parent_ne {before after : List Item} {d : ClassDecl} (h : d.Known before)
    (hnodup : ((before ++ .classDecl d :: after).filterMap Item.name?).Nodup) :
    d.parent ≠ some d.name := by
  intro hparent
  obtain ⟨e, he, hname⟩ := h.parent _ hparent
  rw [List.filterMap_append, List.nodup_append] at hnodup
  have hbefore : d.name ∈ before.filterMap Item.name? :=
    List.mem_filterMap.mpr ⟨_, he, congrArg some hname⟩
  have hafter : d.name ∈ (Item.classDecl d :: after).filterMap Item.name? :=
    List.mem_filterMap.mpr ⟨_, List.mem_cons_self, rfl⟩
  exact hnodup.2.2 _ hbefore _ hafter rfl

def Exporting (s : Script) : Prop := s.exports = s.exportedNames

/-- What is declared with a name is exported with it. -/
theorem Exporting.append {s' : Script} {u : Settings} {name : String} {i : Item} (h : s.Exporting)
    (hitems : s'.items = s.items ++ [i]) (hexports : s'.exports = s.exportsWith u name)
    (hexported : i.exported = u.exported) (hname : i.name? = some name) : s'.Exporting := by
  unfold Exporting exportedNames at h ⊢
  rw [hitems, hexports, List.filter_append, List.filterMap_append, ← h]
  unfold exportsWith
  split
  · next hu => simp [hexported, hu, hname]
  · next hu => simp [hexported, hu]

end Script

namespace Declaration
open Script

/-- Events keep the list of exported names up to date. -/
theorem scriptInvariant_exporting : ScriptInvariant Script.Exporting where
  verbatim script text h := by
    unfold Script.verbatim
    split
    · exact h
    · simpa [Exporting, exportedNames, Item.exported] using h
  openClass _ _ h := h
  discardClass _ h := h
  addField script u f script' added h := by
    rcases addField_eq_ok_iff.mp added with ⟨-, rfl⟩ | ⟨o, a, -, -, -, rfl⟩
    · exact h
    · exact h
  closeClass script u r t script' closed h := by
    rcases closeClass_eq_ok_iff.mp closed with ⟨-, rfl⟩ | ⟨o, -, -, rfl⟩
    · exact h
    · exact h.append rfl rfl rfl rfl
  addEnum script u name members script' added h := by
    obtain ⟨written, -, added⟩ := bind_eq_ok_iff.mp added
    cases added
    exact h.append rfl rfl rfl rfl

variable {env : Env} {s₀ : State}

/-- The classes and enums have the names of the declared types, in the same order. -/
theorem typeNames_read (h₀ : s₀.registry = {}) (hdecls : s₀.script.decls = [])
    (hnone : (read env s₀).2 = none) :
    (read env s₀).1.script.typeNames = (read env s₀).1.registry.types.map (·.name) := by
  rw [typeNames_eq]
  refine items_growth (P := fun r items => items.filterMap Item.name? = r.types.map (·.name)) ?_ ?_ hnone
  · rw [h₀, hdecls]
    rfl
  · intro s t s' i hrun hs ht hi
    have hname : i.name? = some t.name := by
      cases hi with
      | aggregate => rfl
      | enum form named => rw [← named]; rfl
    rw [List.filterMap_append, hs, List.map_append]
    simp [hname]

end Declaration

namespace Compiler
open Declaration Reader Script

/-- The classes and enums of a compiled script have the names of the declared types, which are distinct;
so a name is declared twice at the top only if a type has the name of a helper class or of the host
variable, and the script declares that as well. No class extends the type of its own name; its base has
its name only if it extends no type and the setting for such types says so. Every exported class or
enum is once in the list of exported names, and nothing else is. -/
theorem compile_names {o : Options} {source : String} {c : Compilation}
    (h : (compile o source).result = .ok c) :
    ∃ s, Declaration.read ⟨o.padding, lineOf source⟩ (start o source) = (s, none) ∧
      c.code = s.script.assemble s.settings source ∧
      s.script.typeNames = s.registry.types.map (·.name) ∧ s.script.typeNames.Nodup ∧
      (s.script.names.Nodup ↔ ∀ w ∈ s.script.typeNames, w ∉ s.script.ownNames) ∧
      (∀ d, .classDecl d ∈ s.script.items → d.parent ≠ some d.name ∧
        ∃ s₁ t s₂, Runs statementRound ⟨o.padding, lineOf source⟩ () (start o source) () s₁ ∧
          Completes ⟨o.padding, lineOf source⟩ s₁ t s₂ ∧ t.name = d.name ∧
          (d.parent.getD d.root = d.name ↔ d.parent = none ∧ s₂.settings.base = d.name)) ∧
      s.script.exports = s.script.exportedNames ∧ s.script.exports.Nodup := by
  obtain ⟨s, hlast, hnone, rfl⟩ := code_eq h
  let env : Env := ⟨o.padding, lineOf source⟩
  have hregistry := start_registry o source
  have hdecls := start_decls o source
  have hnames : s.script.typeNames = s.registry.types.map (·.name) := by
    have heq := typeNames_read hregistry hdecls hnone
    rwa [hlast] at heq
  have hnodup : s.script.typeNames.Nodup := by
    have hsound := (read_sound env hregistry).2
    rw [hlast] at hsound
    rw [hnames]
    exact hsound.distinct
  have hscoped := scoped_read env hregistry hdecls hnone
  rw [hlast] at hscoped
  have hexports : s.script.exports = s.script.exportedNames := by
    have hstart : (start o source).script.Exporting :=
      start_script o source rfl scriptInvariant_exporting.verbatim
    have hend := scriptInvariant_exporting.description env hstart
    rwa [← read_fst, hlast] at hend
  refine ⟨s, Prod.ext hlast hnone, rfl, hnames, hnodup, nodup_names hnodup, fun d hd => ?_, hexports, ?_⟩
  · have hmem : .classDecl d ∈ s.script.decls := List.mem_filter.mpr ⟨hd, rfl⟩
    obtain ⟨before, after, hsplit⟩ := List.append_of_mem hmem
    have hparent : d.parent ≠ some d.name := by
      rw [typeNames_eq, hsplit] at hnodup
      exact (hscoped.known before d after hsplit).parent_ne hnodup
    obtain ⟨s₁, t, s₂, hrun, ht, hname, hroot⟩ := hscoped.root d hmem
    refine ⟨hparent, s₁, t, s₂, hrun, ht, hname, ?_⟩
    rw [← hroot]
    cases hp : d.parent with
    | none => simp
    | some p =>
      rw [hp, Ne, Option.some_inj] at hparent
      simp [hparent]
  · rw [hexports]
    exact hnodup.sublist s.script.exportedNames_sublist

/-- An enum that is not exported, a struct with arrays of numbers, and a struct that holds some of them. -/
def listedSource : String :=
  "#pragma endian(host)\n#pragma pack(1)\n#pragma export(false)\nenum E{a};\n#pragma export(true)\n" ++
    "struct A{E e;uint16_t n[2];};struct B:A{A b[2];};"

theorem compile_names_listed : ∃ c, (compile {} listedSource).result = .ok c ∧
    ∃ s : State, c.code = s.script.assemble s.settings listedSource ∧
      s.script.names = ["hostLittleEndian", "EndianArray", "StructArray", "E", "A", "B"] ∧
      s.script.names.Nodup ∧ s.script.exports = ["A", "B"] := by
  have hread : let r := Declaration.read ⟨"__", lineOf listedSource⟩ (start {} listedSource)
      r.2 = none ∧ r.1.script.names = ["hostLittleEndian", "EndianArray", "StructArray", "E", "A", "B"] ∧
        (∀ w ∈ r.1.script.typeNames, w ∉ r.1.script.ownNames) ∧ r.1.script.exportedNames = ["A", "B"] := by
    decide +kernel
  obtain ⟨hnone, hnames, hfree, hexported⟩ := hread
  have hok := result_of_none (o := {}) hnone
  obtain ⟨s, hs, hcode, -, -, hdistinct, -, hexports, -⟩ := compile_names hok
  have hlast : (Declaration.read ⟨"__", lineOf listedSource⟩ (start {} listedSource)).1 = s :=
    congrArg Prod.fst hs
  rw [hlast] at hnames hfree hexported
  exact ⟨_, hok, s, hcode, hnames, hdistinct.mpr hfree, hexports.trans hexported⟩

/-- A struct with the name of the helper class that it needs, and one with the name of the class that
structs extend. -/
def clashSource : String := "struct EndianArray{uint16_t a[2];};struct DataView{uint8_t a;};"

/-- A type can have the name of a helper class, or of the class that it extends. -/
theorem type_repeats_name : ∃ c, (compile {} clashSource).result = .ok c ∧
    ∃ (s : State) (d : ClassDecl),
      Declaration.read ⟨"__", lineOf clashSource⟩ (start {} clashSource) = (s, none) ∧
      s.script.names = ["EndianArray", "EndianArray", "DataView"] ∧
      .classDecl d ∈ s.script.items ∧ d.head = "export class DataView extends DataView" := by
  have hread : let r := Declaration.read ⟨"__", lineOf clashSource⟩ (start {} clashSource)
      r.2 = none ∧ r.1.script.names = ["EndianArray", "EndianArray", "DataView"] ∧
        (lastClass? r.1.script.items).map (·.head) = some "export class DataView extends DataView" := by
    decide +kernel
  obtain ⟨hnone, hnames, hclass⟩ := hread
  obtain ⟨d, hd, hhead⟩ := Option.map_eq_some_iff.mp hclass
  have hok := result_of_none (o := {}) hnone
  generalize hs : Declaration.read ⟨"__", lineOf clashSource⟩ (start {} clashSource) = r at *
  obtain ⟨s, failure⟩ := r
  cases hnone
  refine ⟨_, hok, s, d, rfl, hnames, ?_, hhead⟩
  rw [eq_of_lastClass? hd]
  exact List.mem_append_right _ (List.mem_singleton_self _)

end Compiler
end RecordView
