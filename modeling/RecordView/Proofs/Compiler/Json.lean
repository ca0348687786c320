import Mathlib.Logic.Relation
import RecordView.Proofs.Compiler.Scope

/-! The methods that turn a record into plain values and back: what they use of a class is there, so far as
the settings have asked for it when it was written. -/
namespace RecordView

variable {m : JsonMethods}

namespace Script

/-- The properties that the writing method reads. -/
def JsonMethods.reads (m : JsonMethods) : List String := m.fields.map (·.name)

/-- The properties that the reading method assigns. -/
def JsonMethods.assigns (m : JsonMethods) : List String := m.assignable.map (·.name)

def Field.class? (f : Field) : Option String :=
  match f.kind with
  | .nested t _ => some t.name
  | _ => none

def JsonMethods.calls (m : JsonMethods) : List String := m.fields.filterMap Field.class?

/-- The second class is among the items, and the first one extends it. -/
def Extends (items : List Item) (d p : ClassDecl) : Prop := .classDecl p ∈ items ∧ d.parent = some p.name

/-- The second class is the first one, or one that it extends in some steps. -/
abbrev Inherits (items : List Item) : ClassDecl → ClassDecl → Prop := Relation.ReflTransGen (Extends items)

/-- An accessor takes its name from the field, and from the settings whether it reads and writes. -/
theorem accessor_marks {u : Settings} {f : Field} {a : Accessor} (h : accessor u f = .ok a) :
    a.name = f.name ∧ a.readable = u.getters ∧ a.writable = u.setters := by
  obtain ⟨sh, -, h⟩ := bind_eq_ok_iff.mp h
  dsimp only at h
  split at h
  · cases h
    exact ⟨rfl, rfl, rfl⟩
  · cases h

theorem known_of_calls {items : List Item} {n : String} (h : ∀ f ∈ m.fields, FieldKind.Known items f.kind)
    (hn : n ∈ m.calls) : HasClass items n := by
  obtain ⟨f, hf, hclass⟩ := List.mem_filterMap.mp hn
  have hknown := h f hf
  unfold Field.class? at hclass
  split at hclass
  · next t count hkind =>
    cases hclass
    rwa [hkind] at hknown
  · cases hclass

end Script

namespace Declaration
open Reader Script

variable {env : Env} {s s₀ : State} {r : Registry} {t v : TypeInfo} {d : ClassDecl} {f : Field}

/-- In the reading of a description, the class is written for the type, which is declared with the types
before it. -/
inductive Describes (env : Env) (s₀ : State) (r : Registry) : ClassDecl → TypeInfo → Prop where
  | intro {s s' : State} {t : TypeInfo} {o : OpenClass} (before : Runs statementRound env () s₀ () s)
      (ends : Completes env s t s') (backing : t.backing = none) (current : s'.script.current = some o)
      (declared : s.registry.types ++ [t] ⊆ r.types) :
      Describes env s₀ r (classOf s'.settings ⟨s.registry.types ++ [t]⟩ t o) t

theorem Describes.mono {r' : Registry} (h : Describes env s₀ r d t) (hsub : r.types ⊆ r'.types) :
    Describes env s₀ r' d t := by
  cases h with
  | intro before ends backing current declared =>
    exact .intro before ends backing current (List.Subset.trans declared hsub)

theorem Describes.names (h : Describes env s₀ r d t) : d.name = t.name ∧ d.parent = t.base? := by
  cases h
  exact ⟨rfl, rfl⟩

theorem Describes.mem (h : Describes env s₀ r d t) : t ∈ r.types := by
  cases h with
  | intro _ _ _ _ declared => exact declared (List.mem_append_right _ (List.mem_singleton_self t))

/-- Every class is written for a declared type. -/
theorem describes_read (hdecls : s₀.script.decls = []) (hnone : (read env s₀).2 = none)
    (hd : .classDecl d ∈ (read env s₀).1.script.decls) :
    ∃ t, Describes env s₀ (read env s₀).1.registry d t := by
  refine items_growth (P := fun r items => ∀ d, .classDecl d ∈ items → ∃ t, Describes env s₀ r d t)
    ?_ ?_ hnone d hd
  · rw [hdecls]
    intro d hd
    cases hd
  · intro s t s' i hrun hs ht hi d hd
    rcases List.mem_append.mp hd with hd | hd
    · obtain ⟨u, hu⟩ := hs d hd
      exact ⟨u, hu.mono (List.subset_append_left _ _)⟩
    · cases List.mem_singleton.mp hd
      cases hi with
      | aggregate backing current => exact ⟨t, .intro hrun ht backing current (List.Subset.refl _)⟩

/-- The type has a field that is placed under the settings, and this is its accessor. -/
def Equips (env : Env) (s₀ : State) (t : TypeInfo) (u : Settings) (a : Accessor) : Prop :=
  ∃ d₀ s₁ f, Opens env s₀ d₀ s₁ ∧ Closes env d₀ s₁ t ∧ Places env d₀ s₁ f u ∧ accessor u f = .ok a

/-- A class has an accessor for each field of its type that is no padding. -/
theorem Describes.equips (h : Describes env s₀ r d t) (hf : f ∈ visible t.fields) :
    ∃ a u, .accessor a ∈ d.members ∧ a.name = f.name ∧ Equips env s₀ t u a := by
  cases h with
  | @intro s s' _ o before ends backing current declared =>
    obtain ⟨d₀, s₁, as, hopens, hcloses, has, hmakes⟩ := ends.makes before backing
    have heq : accessorsOf o.members = as := by
      rw [State.accessors, accessors?, current] at has
      exact Option.some.inj has
    obtain ⟨a, ha, u, hplaces, haccessor⟩ := exists_served hmakes.flip hf
    rw [← heq] at ha
    exact ⟨a, u, mem_accessorsOf.mp ha, (accessor_marks haccessor).1, d₀, s₁, f, hopens, hcloses, hplaces,
      haccessor⟩

/-- A type that the type of a class extends has a class that this class extends. -/
theorem Describes.inherits {r' : Registry} {n : Nat} (hs : Scoped env s₀ s)
    (hdistinct : (s.registry.types.map (·.name)).Nodup)
    (hall : ∀ d, .classDecl d ∈ s.script.decls → ∃ t, Describes env s₀ s.registry d t)
    (hsub : r'.types ⊆ s.registry.types) (h : Describes env s₀ s.registry d t)
    (hd : .classDecl d ∈ s.script.decls) (hv : v ∈ r'.lineage n t) :
    ∃ e, Inherits s.script.decls d e ∧ Describes env s₀ s.registry e v := by
  -- along the chain of types, of which each is found by the name that the class before it extends
  induction n generalizing d t with
  | zero =>
    obtain rfl := List.mem_singleton.mp hv
    exact ⟨d, .refl, h⟩
  | succ n ih =>
    unfold Registry.lineage at hv
    split at hv
    · next p hp =>
      rcases List.mem_cons.mp hv with rfl | hv
      · exact ⟨d, .refl, h⟩
      obtain ⟨name, hbase, hfound⟩ := Option.bind_eq_some_iff.mp hp
      have hparent : d.parent = some name := by rw [h.names.2, hbase]
      obtain ⟨before, after, hsplit⟩ := List.append_of_mem hd
      obtain ⟨c, hc, rfl⟩ := (hs.known before d after hsplit).parent name hparent
      have hc' : .classDecl c ∈ s.script.decls := by
        rw [hsplit]
        exact List.mem_append_left _ hc
      obtain ⟨q, hq⟩ := hall c hc'
      have hpq : q = p := by
        have hname : p.name = q.name := by
          rw [← hq.names.1]
          simpa using List.find?_some hfound
        have hp' := Registry.find?_of_mem hdistinct (hsub (List.mem_of_find?_eq_some hfound))
        rw [hname, Registry.find?_of_mem hdistinct hq.mem] at hp'
        exact Option.some.inj hp'
      subst hpq
      obtain ⟨e, hinherits, he⟩ := ih hq hc' hv
      exact ⟨e, .head ⟨hc', hparent⟩ hinherits, he⟩
    · obtain rfl := List.mem_singleton.mp hv
      exact ⟨d, .refl, h⟩

/-- The fields that the methods of a class cover are fields of the types in the chain of its type. -/
theorem Describes.mem_fields (h : Describes env s₀ r d t) (hm : d.json = some m) (hf : f ∈ m.fields) :
    ∃ r' n v, r'.types ⊆ r.types ∧ v ∈ Registry.lineage r' n t ∧
      f ∈ visible v.fields := by
  cases h with
  | @intro s s' _ o before ends backing current declared =>
    unfold classOf at hm
    dsimp only at hm
    split at hm
    · cases hm
      obtain ⟨hall, hpadding⟩ := List.mem_filter.mp hf
      obtain ⟨v, hv, hfv⟩ := List.mem_flatMap.mp hall
      exact ⟨_, _, v, declared, List.mem_reverse.mp hv, List.mem_filter.mpr ⟨hfv, hpadding⟩⟩
    · cases hm

/-- The class or one that it extends has an accessor for the property, which belongs to a field that is
placed under the settings. -/
def Offers (env : Env) (s₀ : State) (items : List Item) (d : ClassDecl) (property : String) (u : Settings)
    (a : Accessor) : Prop :=
  ∃ e t, Inherits items d e ∧ .accessor a ∈ e.members ∧ a.name = property ∧ t.name = e.name ∧
    Equips env s₀ t u a

theorem Offers.marks {items : List Item} {p : String} {u : Settings} {a : Accessor}
    (h : Offers env s₀ items d p u a) : a.readable = u.getters ∧ a.writable = u.setters := by
  obtain ⟨_, _, -, -, -, -, _, _, _, -, -, -, ha⟩ := h
  exact (accessor_marks ha).2

/-- Every property of the methods of a class is offered. -/
theorem offers_of_fields (h₀ : s₀.registry = {}) (hdecls : s₀.script.decls = [])
    (hnone : (read env s₀).2 = none) (hd : .classDecl d ∈ (read env s₀).1.script.decls) (hm : d.json = some m)
    (hf : f ∈ m.fields) : ∃ u a, Offers env s₀ (read env s₀).1.script.items d f.name u a := by
  obtain ⟨t, ht⟩ := describes_read hdecls hnone hd
  obtain ⟨r', n, v, hsub, hv, hfv⟩ := ht.mem_fields hm hf
  obtain ⟨e, hinherits, he⟩ := ht.inherits (scoped_read env h₀ hdecls hnone) (read_sound env h₀).2.distinct
    (fun _ => describes_read hdecls hnone) hsub hd hv
  obtain ⟨a, u, ha, hname, hequips⟩ := he.equips hfv
  have hitems : Inherits (read env s₀).1.script.items d e := by
    refine Relation.ReflTransGen.mono (fun c c' hc => ?_) d e hinherits
    exact ⟨(List.mem_filter.mp hc.1).1, hc.2⟩
  exact ⟨u, a, e, v, hitems, ha, hname, he.names.1.symm, hequips⟩

/-- A class has the methods exactly if they are asked for when its type is declared. -/
theorem Describes.json (h : Describes env s₀ r d t) : ∃ s₁ s₂, Runs statementRound env () s₀ () s₁ ∧
    Completes env s₁ t s₂ ∧ (d.json.isSome ↔ s₂.settings.json = true) := by
  cases h with
  | @intro s s' _ o before ends backing current declared =>
    refine ⟨s, s', before, ends, ?_⟩
    cases hj : s'.settings.json <;> simp [classOf, hj]

end Declaration

namespace Compiler
open Declaration Reader Script

/-- What the methods of a class use is there. Every property that they read or assign has an accessor in
the class or in one that it extends, which reads (writes) exactly if getters (setters) are asked for when
its field is placed. Every class of which they call the methods stands before, and has them exactly if
they are asked for when its type is declared. -/
theorem compile_json {o : Options} {source : String} {c : Compilation}
    (h : (compile o source).result = .ok c) :
    ∃ s, Declaration.read ⟨o.padding, lineOf source⟩ (start o source) = (s, none) ∧
      c.code = s.script.assemble s.settings source ∧
      ∀ before d after m, s.script.items = before ++ .classDecl d :: after → d.json = some m →
        (∀ p ∈ m.reads, ∃ u a, a.readable = u.getters ∧
          Offers ⟨o.padding, lineOf source⟩ (start o source) s.script.items d p u a) ∧
        (∀ p ∈ m.assigns, ∃ u a, a.writable = u.setters ∧
          Offers ⟨o.padding, lineOf source⟩ (start o source) s.script.items d p u a) ∧
        ∀ n ∈ m.calls, ∃ e t s₁ s₂, .classDecl e ∈ before ∧ e.name = n ∧ t.name = n ∧
          Runs statementRound ⟨o.padding, lineOf source⟩ () (start o source) () s₁ ∧
          Completes ⟨o.padding, lineOf source⟩ s₁ t s₂ ∧ (e.json.isSome ↔ s₂.settings.json = true) := by
  obtain ⟨s, hlast, hnone, rfl⟩ := code_eq h
  let env : Env := ⟨o.padding, lineOf source⟩
  have h₀ := start_registry o source
  have hdecls := start_decls o source
  refine ⟨s, Prod.ext hlast hnone, rfl, fun before d after m hitems hm => ?_⟩
  have hsplit := decls_eq hitems
  have hd : .classDecl d ∈ (Declaration.read env (start o source)).1.script.decls := by
    rw [hlast, hsplit]
    exact List.mem_append_right _ List.mem_cons_self
  have hoffers (f : Field) (hf : f ∈ m.fields) :
      ∃ u a, Offers env (start o source) s.script.items d f.name u a := by
    rw [← hlast]
    exact offers_of_fields h₀ hdecls hnone hd hm hf
  refine ⟨fun p hp => ?_, fun p hp => ?_, fun n hn => ?_⟩
  · obtain ⟨f, hf, rfl⟩ := List.mem_map.mp hp
    obtain ⟨u, a, ha⟩ := hoffers f hf
    exact ⟨u, a, ha.marks.1, ha⟩
  · obtain ⟨f, hf, rfl⟩ := List.mem_map.mp hp
    obtain ⟨u, a, ha⟩ := hoffers f (List.mem_filter.mp hf).1
    exact ⟨u, a, ha.marks.2, ha⟩
  · have hscoped := scoped_read env h₀ hdecls hnone
    rw [hlast] at hscoped
    obtain ⟨e, he, rfl⟩ := known_of_calls ((hscoped.known _ d _ hsplit).json m hm) hn
    have he' : .classDecl e ∈ (Declaration.read env (start o source)).1.script.decls := by
      rw [hlast, hsplit]
      exact List.mem_append_left _ he
    obtain ⟨t, ht⟩ := describes_read hdecls hnone he'
    obtain ⟨s₁, s₂, hrun, hends, hjson⟩ := ht.json
    exact ⟨e, t, s₁, s₂, (List.mem_filter.mp he).1, rfl, ht.names.1.symm, hrun, hends, hjson⟩

/-- Two structs with the methods, where one extends and holds the other, and a setter is missing. -/
def treeSource : String :=
  "#pragma json(true)\nstruct A{uint8_t a;};struct B:A\x7bA b[2];\n#pragma set(false)\nuint8_t c;\x7d;"

theorem compile_json_tree : ∃ c, (compile {} treeSource).result = .ok c ∧
    ∃ (s : State) (before : List Item) (d : ClassDecl) (m : JsonMethods),
      s.script.items = before ++ [.classDecl d] ∧ d.json = some m ∧ m.reads = ["a", "b", "c"] ∧
      m.calls = ["A"] ∧
      (∃ u a, a.readable = u.getters ∧
        Offers ⟨"__", lineOf treeSource⟩ (start {} treeSource) s.script.items d "a" u a) ∧
      ∃ e, .classDecl e ∈ before ∧ e.name = "A" := by
  have hread : let r := Declaration.read ⟨"__", lineOf treeSource⟩ (start {} treeSource)
      r.2 = none ∧ ((lastClass? r.1.script.items).bind (·.json)).map (fun m => (m.reads, m.calls)) =
        some (["a", "b", "c"], ["A"]) := by decide +kernel
  obtain ⟨hnone, hmethods⟩ := hread
  obtain ⟨m, hm, hnames⟩ := Option.map_eq_some_iff.mp hmethods
  obtain ⟨d, hd, hjson⟩ := Option.bind_eq_some_iff.mp hm
  obtain ⟨hreads, hcalls⟩ := Prod.mk.inj hnames
  have hok := result_of_none (o := {}) hnone
  obtain ⟨s, hs, -, hall⟩ := compile_json hok
  have hitems : s.script.items = s.script.items.dropLast ++ [.classDecl d] := by
    refine eq_of_lastClass? ?_
    rw [← hd]
    exact congrArg (fun r => lastClass? r.1.script.items) hs.symm
  obtain ⟨hread, -, hcall⟩ := hall _ d [] m hitems hjson
  refine ⟨_, hok, s, _, d, m, hitems, hjson, hreads, hcalls, hread "a" (by simp [hreads]), ?_⟩
  obtain ⟨e, -, -, -, he, hname, -⟩ := hcall "A" (by simp [hcalls])
  exact ⟨e, he, hname⟩

def mutedSource : String := "#pragma json(true)\n#pragma get(false)\nstruct A{uint8_t a;};"

/-- The writing method reads a property that has no getter. -/
theorem json_reads_missing_getter : ∃ c, (compile {} mutedSource).result = .ok c ∧
    ∃ (s : State) (d : ClassDecl) (m : JsonMethods),
      Declaration.read ⟨"__", lineOf mutedSource⟩ (start {} mutedSource) = (s, none) ∧
      s.script.items = [.classDecl d] ∧ d.parent = none ∧ d.json = some m ∧ "a" ∈ m.reads ∧
      ∀ a, .accessor a ∈ d.members → a.readable = false := by
  have hread : let r := Declaration.read ⟨"__", lineOf mutedSource⟩ (start {} mutedSource)
      r.2 = none ∧ r.1.script.items.length = 1 ∧
        (lastClass? r.1.script.items).map (fun d => (d.parent, d.json.map (·.reads),
          (accessorsOf d.members).map (·.readable))) = some (none, some ["a"], [false]) := by
    decide +kernel
  obtain ⟨hnone, hlength, hclass⟩ := hread
  obtain ⟨d, hd, hparts⟩ := Option.map_eq_some_iff.mp hclass
  obtain ⟨hparent, hparts⟩ := Prod.mk.inj hparts
  obtain ⟨hjson, hreadable⟩ := Prod.mk.inj hparts
  obtain ⟨m, hm, hreads⟩ := Option.map_eq_some_iff.mp hjson
  have hok := result_of_none (o := {}) hnone
  generalize hs : Declaration.read ⟨"__", lineOf mutedSource⟩ (start {} mutedSource) = r at *
  obtain ⟨s, failure⟩ := r
  cases hnone
  refine ⟨_, hok, s, d, m, rfl, eq_singleton_of_lastClass? hlength hd, hparent, hm, by simp [hreads],
    fun a ha => ?_⟩
  have hmem : a.readable ∈ (accessorsOf d.members).map (·.readable) :=
    List.mem_map_of_mem (mem_accessorsOf.mpr ha)
  rw [hreadable] at hmem
  exact List.mem_singleton.mp hmem

end Compiler
end RecordView
