import RecordView.Proofs.Compiler
import RecordView.Proofs.Declaration.Scoping
import RecordView.Proofs.Script.Supply
import RecordView.Proofs.Script.Words

/-! Every name that a script uses is declared in it before: extended classes, classes and enums of
fields, helper classes and the host variable. -/
namespace RecordView

namespace Script

variable {s : Script} {u : Settings} {before : List Item} {c : ClassDecl} {a : Accessor} {w : String}

def headLines (s : Script) (u : Settings) : List String :=
  importLines u ++ s.hostLines u ++ s.helperLines u

/-- What a class names stands before it: what comes from the description among the items, and what the
script itself brings in at its top. A class with an accessor that uses the host variable sets it in its
constructor. Names and texts of the description and of the settings are masked, so that each other use
counts, whatever else stands in the class. -/
structure ClassDecl.WellScoped (language : Language) (head : List String) (before : List Item)
    (c : ClassDecl) : Prop extends c.Known before where
  helper : ∀ h : Helper, (∃ l ∈ c.mask.lines, Mentions l h.name) → h.lines language <:+: head
  host : (∃ l ∈ c.mask.lines, Mentions l hostVariable) → hostDeclaration language ∈ head
  probe : ∀ a, .accessor a ∈ c.members → (∃ l ∈ a.mask.lines, Mentions l hostVariable) →
    ClassDecl.probe <:+: c.constructorBody

theorem helper_infix {h : Helper} (hmem : h ∈ s.helpers) : h.lines u.language <:+: s.headLines u := by
  have hhelper : h ∈ Helper.all.filter s.helpers.contains := by
    refine List.mem_filter.mpr ⟨?_, by simpa using hmem⟩
    cases h <;> decide
  obtain ⟨hs, hs', heq⟩ := List.append_of_mem hhelper
  refine ⟨importLines u ++ s.hostLines u ++ hs.flatMap fun h => h.lines u.language ++ [""],
    [""] ++ hs'.flatMap fun h => h.lines u.language ++ [""], ?_⟩
  unfold headLines helperLines
  rw [heq]
  simp only [List.flatMap_append, List.flatMap_cons, List.append_assoc]

theorem host_mem (h : s.host = true) : hostDeclaration u.language ∈ s.headLines u := by
  simp [headLines, hostLines, h]

/-- A name of the top that an accessor needs. -/
theorem exists_needs_of_accessor (hw : w ∈ topNames) (h : ∃ l ∈ a.lines, Mentions l w)
    (hgiven : ¬ ∃ x ∈ a.given, Mentions x w) : a.Needs w := by
  by_contra hneeds
  obtain ⟨l, hl, hm⟩ := h
  refine (Accessor.silent_lines hw hneeds (fun x hx => ⟨hw, fun hm' => ?_⟩) l hl).omits hm
  exact hgiven ⟨x, hx, hm'⟩

theorem exists_needs_of_class (hw : w ∈ topNames) (h : ∃ l ∈ c.mask.lines, Mentions l w) :
    (∃ a, .accessor a ∈ c.members ∧ a.Needs w) ∨ (c.probed = true ∧ w = hostVariable) := by
  by_contra hnone
  obtain ⟨hneeds, hprobe⟩ := not_or.mp hnone
  obtain ⟨l, hl, hm⟩ := h
  exact (ClassDecl.silent_lines hw (fun a ha hn => hneeds ⟨a, ha, hn⟩)
    (fun hp he => hprobe ⟨hp, he⟩) l hl).omits hm

theorem name_mem_topNames (h : Helper) : h.name ∈ topNames := by cases h <;> decide

theorem name_ne_hostVariable (h : Helper) : h.name ≠ hostVariable := by cases h <;> decide

theorem wellScoped_of_supplied (hknown : c.Known before) (h : s.Supplied c.probed c.members) :
    c.WellScoped u.language (s.headLines u) before := by
  have hprobed (a : Accessor) (ha : .accessor a ∈ c.members) (hneeds : a.Needs hostVariable) :
      c.probed = true := by
    rcases hneeds with ⟨y, -, hname⟩ | ⟨hp, -⟩
    · exact absurd hname (name_ne_hostVariable y)
    · exact h.probe a ha hp
  refine ⟨hknown, fun x hx => ?_, fun hx => host_mem (h.host ?_), fun a ha hx => ?_⟩
  · rcases exists_needs_of_class (name_mem_topNames x) hx with ⟨a, ha, hneeds⟩ | ⟨-, hhost⟩
    · rcases hneeds with ⟨y, hy, hname⟩ | ⟨-, hhost⟩
      · have hxy : y = x := by
          revert hname
          cases x <;> cases y <;> decide
        subst hxy
        exact helper_infix (h.helper a ha y hy)
      · exact absurd hhost.symm (name_ne_hostVariable x)
    · exact absurd hhost (name_ne_hostVariable x)
  · rcases exists_needs_of_class (by decide) hx with ⟨a, ha, hneeds⟩ | ⟨hprobed, -⟩
    · exact hprobed a ha hneeds
    · exact hprobed
  · have hgiven : ¬ ∃ y ∈ a.mask.given, Mentions y hostVariable := by
      rintro ⟨y, hy, hm⟩
      exact (Accessor.omits_given_mask (by decide) y hy).omits hm
    have hneeds := Accessor.needs_mask.mp (exists_needs_of_accessor (by decide) hx hgiven)
    unfold ClassDecl.constructorBody
    rw [hprobed a ha hneeds, if_pos rfl]
    exact List.infix_append _ _ _

end Script

namespace Compiler
open Declaration Reader Script

section Items

variable {s : Script} {before after : List Item} {d : ClassDecl}
  (h : s.items = before ++ .classDecl d :: after)
include h

theorem decls_eq : s.decls = before.filter Item.isDecl ++ .classDecl d :: after.filter Item.isDecl := by
  rw [decls, h, List.filter_append, List.filter_cons_of_pos rfl]

theorem assemble_eq {u : Settings} {source : String} :
    s.assemble u source = endLine (Text.unlines (s.headLines u ++ before.flatMap Item.lines ++ d.lines ++
      (after.flatMap Item.lines ++ s.exportLines u ++ sourceLines u source))) := by
  unfold assemble headLines bodyLines
  rw [h]
  simp only [List.flatMap_append, List.flatMap_cons, List.append_assoc, Item.lines]

end Items

theorem complete_start (o : Options) (source : String) : (start o source).script.Complete := by
  refine start_script o source ⟨fun c hc => ?_, fun o ho => ?_⟩ fun script text hs => hs.verbatim text
  · cases hc
  · cases ho

/-- Every class of a compiled script is well scoped. One that extends no type extends the class that is
set when it is declared. -/
theorem compile_wellScoped {o : Options} {source : String} {c : Compilation}
    (h : (compile o source).result = .ok c) :
    ∃ s, Declaration.read ⟨o.padding, lineOf source⟩ (start o source) = (s, none) ∧
      ∀ before d after, s.script.items = before ++ .classDecl d :: after →
        c.code = endLine (Text.unlines (s.script.headLines s.settings ++ before.flatMap Item.lines ++
          d.lines ++ (after.flatMap Item.lines ++ s.script.exportLines s.settings ++
            sourceLines s.settings source))) ∧
        d.WellScoped s.settings.language (s.script.headLines s.settings) before ∧
        ∃ s₁ t s₂, Runs statementRound ⟨o.padding, lineOf source⟩ () (start o source) () s₁ ∧
          Completes ⟨o.padding, lineOf source⟩ s₁ t s₂ ∧ t.name = d.name ∧ d.root = s₂.settings.base := by
  obtain ⟨s, hlast, hnone, rfl⟩ := code_eq h
  let env : Env := ⟨o.padding, lineOf source⟩
  have hscoped := scoped_read env (start_registry o source) (start_decls o source) hnone
  have hsupplied : s.script.Complete := by
    have hend := scriptInvariant_complete.description env (complete_start o source)
    rwa [← read_fst, hlast] at hend
  rw [hlast] at hscoped
  refine ⟨s, Prod.ext hlast hnone, fun before d after hitems => ⟨assemble_eq hitems, ?_, ?_⟩⟩
  · refine wellScoped_of_supplied ?_ (hsupplied.classes d (by simp [hitems]))
    exact (hscoped.known _ d _ (decls_eq hitems)).mono fun _ hi => (List.mem_filter.mp hi).1
  · exact hscoped.root d (by simp [decls, hitems, Item.isDecl])

def heirSource : String :=
  "#pragma endian(host)\nenum E{a};struct A{E e;};struct B:A{A b[2];float f;};"

def lastClass? (items : List Item) : Option ClassDecl :=
  match items.getLast? with
  | some (.classDecl d) => some d
  | _ => none

theorem eq_of_lastClass? {items : List Item} {d : ClassDecl} (h : lastClass? items = some d) :
    items = items.dropLast ++ [.classDecl d] := by
  unfold lastClass? at h
  split at h
  · next e hlast =>
    cases h
    exact (List.dropLast_append_getLast? _ hlast).symm
  · cases h

theorem eq_singleton_of_lastClass? {items : List Item} {d : ClassDecl} (hlength : items.length = 1)
    (h : lastClass? items = some d) : items = [.classDecl d] := by
  have hnil : items.dropLast = [] := by
    rw [← List.length_eq_zero_iff, List.length_dropLast, hlength]
  rw [eq_of_lastClass? h, hnil, List.nil_append]

theorem compile_wellScoped_heir : ∃ c, (compile {} heirSource).result = .ok c ∧
    ∃ (s : State) (before : List Item) (d : ClassDecl), s.script.items = before ++ [.classDecl d] ∧
      d.name = "B" ∧ d.parent = some "A" ∧
      d.WellScoped s.settings.language (s.script.headLines s.settings) before := by
  have hread : let r := Declaration.read ⟨"__", lineOf heirSource⟩ (start {} heirSource)
      r.2 = none ∧ (lastClass? r.1.script.items).map (fun d => (d.name, d.parent)) =
        some ("B", some "A") := by decide +kernel
  obtain ⟨hnone, hclass⟩ := hread
  obtain ⟨d, hd, hnames⟩ := Option.map_eq_some_iff.mp hclass
  obtain ⟨hname, hparent⟩ := Prod.mk.inj hnames
  have hok := result_of_none (o := {}) hnone
  obtain ⟨s, hs, hscoped⟩ := compile_wellScoped hok
  have hitems : s.script.items = s.script.items.dropLast ++ [.classDecl d] := by
    refine eq_of_lastClass? ?_
    rw [← hd]
    exact congrArg (fun r => lastClass? r.1.script.items) hs.symm
  obtain ⟨-, hwell, -⟩ := hscoped _ d [] hitems
  exact ⟨_, hok, s, _, d, hitems, hname, hparent, hwell⟩

def baseSource : String := "#pragma extends(EndianArray)\nstruct A{uint8_t a;};"

/-- A setting can name a helper class, which is not declared for that. -/
theorem helper_of_setting_not_declared : ∃ c, (compile {} baseSource).result = .ok c ∧
    ∃ (s : State) (d : ClassDecl),
      Declaration.read ⟨"__", lineOf baseSource⟩ (start {} baseSource) = (s, none) ∧
      s.script.items = [.classDecl d] ∧ (∃ l ∈ d.lines, Mentions l Helper.numbers.name) ∧
      s.script.headLines s.settings = [] := by
  have hread : let r := Declaration.read ⟨"__", lineOf baseSource⟩ (start {} baseSource)
      r.2 = none ∧ r.1.script.items.length = 1 ∧ r.1.script.headLines r.1.settings = [] ∧
        (lastClass? r.1.script.items).map (·.head ++ " \x7b") =
          some "export class A extends EndianArray \x7b" := by decide +kernel
  obtain ⟨hnone, hlength, hempty, hclass⟩ := hread
  obtain ⟨d, hd, hhead⟩ := Option.map_eq_some_iff.mp hclass
  have hok := result_of_none (o := {}) hnone
  generalize hs : Declaration.read ⟨"__", lineOf baseSource⟩ (start {} baseSource) = r at *
  obtain ⟨s, failure⟩ := r
  cases hnone
  refine ⟨_, hok, s, d, rfl, eq_singleton_of_lastClass? hlength hd, ⟨d.head ++ " \x7b", ?_, ?_⟩, hempty⟩
  · simp [ClassDecl.lines]
  · rw [hhead]
    unfold Mentions words
    decide +kernel

end Compiler
end RecordView
