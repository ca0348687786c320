import RecordView.Proofs.Compiler.Scope
import RecordView.Proofs.Script.Demand

/-! Which helper classes a script declares, and whether it declares the host variable: what the accessors
need that have been written, also those of classes that do not get into the script. -/
namespace RecordView

namespace Script

variable {s : Script} {u : Settings} {w l : String}

/-- The text at the top declares the name: a helper class, or the host variable. -/
def Supplies (s : Script) (u : Settings) (w : String) : Prop :=
  (∃ h : Helper, h.name = w ∧ h.lines u.language <:+: s.headLines u) ∨
    (hostVariable = w ∧ hostDeclaration u.language ∈ s.headLines u)

/-- A line of an accessor in some class mentions the name. -/
def Uses (s : Script) (w : String) : Prop :=
  ∃ d a, .classDecl d ∈ s.items ∧ .accessor a ∈ d.members ∧ ∃ l ∈ a.lines, Mentions l w

theorem not_mem_importLines {c : Char} (hl : l.toList.head? = some c) (hc : c ≠ 'i') :
    l ∉ importLines u := by
  intro h
  unfold importLines at h
  split at h
  · cases h
  rcases List.mem_append.mp h with h | h
  · obtain ⟨text, -, rfl⟩ := List.mem_map.mp h
    simp [toString] at hl
    exact hc hl.symm
  · rw [List.mem_singleton.mp h] at hl
    cases hl

/-- A line at the top that is no import declares the host variable, or belongs to a helper class. -/
theorem mem_headLines {c : Char} (h : l ∈ s.headLines u) (hl : l.toList.head? = some c) (hc : c ≠ 'i') :
    (s.host = true ∧ l = hostDeclaration u.language) ∨ ∃ x ∈ s.helpers, l ∈ x.lines u.language := by
  have hne : l ≠ "" := by
    rintro rfl
    cases hl
  rcases List.mem_append.mp h with h | h
  · rcases List.mem_append.mp h with h | h
    · exact absurd h (not_mem_importLines hl hc)
    · unfold hostLines at h
      split at h
      · next hhost =>
        rcases List.mem_cons.mp h with h | h
        · exact .inl ⟨hhost, h⟩
        · exact absurd (List.mem_singleton.mp h) hne
      · cases h
  · obtain ⟨x, hx, h⟩ := List.mem_flatMap.mp h
    have hmem : x ∈ s.helpers := by simpa using (List.mem_filter.mp hx).2
    rcases List.mem_append.mp h with h | h
    · exact .inr ⟨x, hmem, h⟩
    · exact absurd (List.mem_singleton.mp h) hne

def Helper.head (language : Language) (h : Helper) : String :=
  "class " ++ generic language h.name h.parameter ++ " \x7b"

theorem Helper.head_mem (language : Language) (h : Helper) : h.head language ∈ h.lines language :=
  List.mem_cons_self

theorem Helper.toList_head (language : Language) (h : Helper) : (h.head language).toList.head? = some 'c' := by
  cases language <;> cases h <;> decide

/-- A helper class and the host variable are told apart by their first lines. -/
theorem Helper.eq_of_head_mem {language : Language} {x y : Helper} :
    x.head language ∈ y.lines language → x = y := by
  cases language <;> cases x <;> cases y <;> decide

theorem Helper.head_ne_hostDeclaration (language : Language) (x : Helper) :
    x.head language ≠ hostDeclaration language := by
  cases language <;> cases x <;> decide

theorem hostDeclaration_not_mem (language : Language) (x : Helper) :
    hostDeclaration language ∉ x.lines language := by
  cases language <;> cases x <;> decide

theorem toList_hostDeclaration (language : Language) :
    (hostDeclaration language).toList.head? = some 'l' := by
  cases language <;> decide

/-- The text declares what the script has noted. -/
theorem supplies_iff : s.Supplies u w ↔ s.Notes w := by
  constructor
  · rintro (⟨h, rfl, hlines⟩ | ⟨rfl, hmem⟩)
    · have hmem := hlines.subset (h.head_mem u.language)
      rcases mem_headLines hmem (h.toList_head u.language) (by decide) with ⟨-, heq⟩ | ⟨x, hx, hhead⟩
      · exact absurd heq (h.head_ne_hostDeclaration u.language)
      · rw [← Helper.eq_of_head_mem hhead] at hx
        exact .inl ⟨h, hx, rfl⟩
    · rcases mem_headLines hmem (toList_hostDeclaration u.language) (by decide) with ⟨hhost, -⟩ | ⟨x, -, hx⟩
      · exact .inr ⟨hhost, rfl⟩
      · exact absurd hx (hostDeclaration_not_mem u.language x)
  · rintro (⟨h, hmem, rfl⟩ | ⟨hhost, rfl⟩)
    · exact .inl ⟨h, rfl, helper_infix hmem⟩
    · exact .inr ⟨rfl, host_mem hhost⟩

end Script

namespace Compiler
open Declaration Reader Script

/-- A compiled script declares a helper class or the host variable exactly if an accessor that needs it
has been written, whether its class is in the script or has been discarded. What the lines of an accessor
in the script mention is declared, unless the description brings the name in; and what is declared they
mention, if every accessor that needs it is in the script, with a getter and a setter. A body that
declares no type leaves the top of the script and the exported names as they were. -/
theorem compile_supplies {o : Options} {source : String} {c : Compilation}
    (h : (compile o source).result = .ok c) :
    ∃ s, Declaration.read ⟨o.padding, lineOf source⟩ (start o source) = (s, none) ∧
      c.code = endLine (Text.unlines (s.script.headLines s.settings ++ s.script.bodyLines ++
        s.script.exportLines s.settings ++ sourceLines s.settings source)) ∧
      (∀ w ∈ topNames,
        (s.script.Supplies s.settings w ↔
          ∃ a, Written ⟨o.padding, lineOf source⟩ (start o source) a ∧ a.Needs w) ∧
        (∀ d a, .classDecl d ∈ s.script.items → .accessor a ∈ d.members → (∃ l ∈ a.lines, Mentions l w) →
          (∃ x ∈ a.given, Mentions x w) ∨ s.script.Supplies s.settings w) ∧
        ((∀ a, Written ⟨o.padding, lineOf source⟩ (start o source) a → a.Needs w →
            a.readable = true ∧ a.writable = true ∧
              ∃ d, .classDecl d ∈ s.script.items ∧ .accessor a ∈ d.members) →
          s.script.Supplies s.settings w → s.script.Uses w)) ∧
      ∀ s₁ form typedef s₂ d s₃, Runs statementRound ⟨o.padding, lineOf source⟩ () (start o source) () s₁ →
        Enters ⟨o.padding, lineOf source⟩ s₁ form typedef s₂ →
        opening form typedef ⟨o.padding, lineOf source⟩ s₂ = .ok d s₃ →
        Spares s₁ (after (statementRound ()) ⟨o.padding, lineOf source⟩ s₁) := by
  obtain ⟨s, hlast, hnone, rfl⟩ := code_eq h
  let env : Env := ⟨o.padding, lineOf source⟩
  have hempty (w : String) : ¬ (start o source).script.Notes w := by
    refine start_script (P := (¬ Script.Notes · w)) o source ?_ fun script text hs => ?_
    · rintro (⟨x, hx, -⟩ | ⟨hhost, -⟩)
      · cases hx
      · cases hhost
    · rwa [notes_verbatim]
  have hsupplies (w : String) :
      s.script.Supplies s.settings w ↔ ∃ a, Written env (start o source) a ∧ a.Needs w := by
    rw [supplies_iff]
    constructor
    · intro hw
      rw [← hlast] at hw
      rcases noted_read env (start o source) w hw with hw | hw
      · exact absurd hw (hempty w)
      · exact hw
    · rintro ⟨a, ha, hneeds⟩
      rw [← hlast]
      exact ha.notes (complete_start o source) hneeds
  have hwritten {d : ClassDecl} {a : Accessor} (hd : .classDecl d ∈ s.script.items)
      (ha : .accessor a ∈ d.members) : Written env (start o source) a := by
    rw [← hlast] at hd
    exact written_read (start_decls o source) hnone hd ha
  refine ⟨s, Prod.ext hlast hnone, ?_,
    fun w hw => ⟨hsupplies w, fun d a hd ha hmentions => ?_, fun hkept hw => ?_⟩, ?_⟩
  · simp only [assemble, headLines, List.append_assoc]
  · by_cases hgiven : ∃ x ∈ a.given, Mentions x w
    · exact .inl hgiven
    · refine .inr ((hsupplies w).mpr ⟨a, hwritten hd ha, ?_⟩)
      exact exists_needs_of_accessor hw hmentions hgiven
  · obtain ⟨a, ha, hneeds⟩ := (hsupplies w).mp hw
    obtain ⟨hreadable, hwritable, d, hd, hmember⟩ := hkept a ha hneeds
    exact ⟨d, a, hd, hmember, a.mentions_lines hneeds hreadable hwritable⟩
  · intro s₁ form typedef s₂ d s₃ _ enters opens
    exact spares_body enters opens

/-- In a script with an array of structs and a number in the byte order of the host, this is declared and
no more. -/
theorem compile_supplies_heir : ∃ c, (compile {} heirSource).result = .ok c ∧
    ∃ s : State, s.script.Supplies s.settings Helper.records.name ∧
      s.script.Supplies s.settings hostVariable ∧
      (∃ a, Written ⟨"__", lineOf heirSource⟩ (start {} heirSource) a ∧ a.Needs Helper.records.name) ∧
      ¬ ∃ a, Written ⟨"__", lineOf heirSource⟩ (start {} heirSource) a ∧ a.Needs Helper.numbers.name := by
  have hread : let r := Declaration.read ⟨"__", lineOf heirSource⟩ (start {} heirSource)
      r.2 = none ∧ r.1.script.Notes Helper.records.name ∧ r.1.script.Notes hostVariable ∧
        ¬ r.1.script.Notes Helper.numbers.name := by decide +kernel
  obtain ⟨hnone, hrecords, hhost, hnumbers⟩ := hread
  have hok := result_of_none (o := {}) hnone
  obtain ⟨s, hs, -, hsupplies, -⟩ := compile_supplies hok
  have hlast : (Declaration.read ⟨"__", lineOf heirSource⟩ (start {} heirSource)).1 = s :=
    congrArg Prod.fst hs
  rw [hlast] at hrecords hhost hnumbers
  refine ⟨_, hok, s, supplies_iff.mpr hrecords, supplies_iff.mpr hhost, ?_, fun hneeds => hnumbers ?_⟩
  · exact (hsupplies _ (by decide)).1.mp (supplies_iff.mpr hrecords)
  · exact supplies_iff.mp ((hsupplies _ (by decide)).1.mpr hneeds)

def unendedSource : String := "struct A\x7buint16_t a[2];"

/-- A struct that is discarded leaves the helper class that it would have needed. -/
theorem discarded_struct_leaves_helper : ∃ c, (compile {} unendedSource).result = .ok c ∧
    ∃ s, Declaration.read ⟨"__", lineOf unendedSource⟩ (start {} unendedSource) = (s, none) ∧
      s.script.Supplies s.settings Helper.numbers.name ∧ ¬ s.script.Uses Helper.numbers.name := by
  have hread : let r := Declaration.read ⟨"__", lineOf unendedSource⟩ (start {} unendedSource)
      r.2 = none ∧ r.1.script.items = [] ∧ r.1.script.Notes Helper.numbers.name := by decide +kernel
  obtain ⟨hnone, hitems, hnumbers⟩ := hread
  have hok := result_of_none (o := {}) hnone
  refine ⟨_, hok, _, Prod.ext rfl hnone, supplies_iff.mpr hnumbers, ?_⟩
  rintro ⟨d, a, hd, -⟩
  rw [hitems] at hd
  cases hd

end Compiler
end RecordView
