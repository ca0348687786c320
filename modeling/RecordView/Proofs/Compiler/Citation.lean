import RecordView.Proofs.Compiler.Override
import RecordView.Proofs.Declaration.Citation
import RecordView.Proofs.Token.Place

/-! Every error of a compilation points into the description and quotes the line there, except for those of
settings from outside, which point nowhere. -/
namespace RecordView

/-- The error points to a character of a line of the text, or right behind the line, and quotes this line
without the carriage returns at its end. -/
def Diagnostic.Quotes (file source : String) (d : Diagnostic) : Prop :=
  ∃ (n : Nat) (column : Int) (line : String), (Text.lines source)[n]? = some line ∧
    d.location = some ⟨file, n + 1, column⟩ ∧ 1 ≤ column ∧ column ≤ line.length + 1 ∧
    d.line = some (String.ofList (Text.dropEnd (· == '\r') line.toList))

namespace Compiler
open Declaration Reader

variable {o : Options} {source : String}

theorem quotes_of_cites {d : Diagnostic} (h : d.Cites (lineOf source) (Location.InText o.file source)) :
    d.Quotes o.file source := by
  obtain ⟨⟨file, line, column⟩, ⟨rfl, n, text, htext, hline, hlow, hhigh⟩, hlocation, hquoted⟩ := h
  dsimp only at hline hlow hhigh hquoted
  subst hline
  refine ⟨n, column, text, htext, hlocation, hlow, hhigh, ?_⟩
  have hnot : ¬ (n + 1 : Int) < 1 := by omega
  have hnat : ((n + 1 : Int) - 1).toNat = n := by omega
  rw [hquoted, lineOf]
  dsimp only
  rw [Text.lineAt, if_neg hnot, hnat, htext]

/-! ## Settings from outside -/

def overrideErrors (o : Options) : List Diagnostic :=
  (overrideAll { unread := [], report := { limit := o.maxErrors } } o.overrides.entries).report.errors

/-- The error is that of one of the settings, and points nowhere. -/
def Unplaced (es : List (String × String)) (d : Diagnostic) : Prop :=
  ∃ e ∈ es, ∃ (u : Settings) (r : Refusal), u.apply e.1 e.2 = .error r ∧ d = ⟨.setting r, none, none⟩

theorem unplaced_overrideAll (es : List (String × String)) (s : State) :
    ∀ d ∈ (overrideAll s es).report.errors, d ∈ s.report.errors ∨ Unplaced es d := by
  refine List.foldlRecOn _ _ ?_ ?_
    (motive := fun a : State => ∀ d ∈ a.report.errors, d ∈ s.report.errors ∨ Unplaced es d)
  · exact fun d hd => .inl hd
  · intro a ha e he
    refine override_elim a e.1 e.2 (fun _ => ha) (fun _ _ _ => ha) fun r happly d hd => ?_
    rcases List.mem_append.mp hd with hd | hd
    · exact ha d hd
    · exact .inr ⟨e, he, a.settings, r, happly, List.mem_singleton.mp hd⟩

/-! ## The description -/

/-- Before the first token is read, all tokens stand in the description. -/
theorem sourced_start (o : Options) (source : String) :
    (start o source).Sourced ⟨o.padding, lineOf source⟩ (Location.InText o.file source)
      (overrideErrors o) := by
  obtain ⟨settings, script, report, heq⟩ :=
    overrides_eq o.overrides.entries { unread := [], report := { limit := o.maxErrors } }
  have herrors : report.errors = overrideErrors o := by
    unfold overrideErrors overrideAll
    rw [heq]
  unfold start tokens
  dsimp only
  rw [heq]
  split
  · next ts hscan =>
    refine ⟨Token.inText_of_scan hscan, by simp, by simp, by simp, .inr ?_, [], ?_, by simp⟩
    · exact Token.eof_mem_scan hscan
    · rw [List.append_nil]
      exact herrors
  · next d hscan =>
    refine ⟨fun t ht => ?_, by simp, by simp, by simp, .inr ⟨_, List.mem_singleton_self _, rfl⟩, [d], ?_, ?_⟩
    · obtain rfl := List.mem_singleton.mp ht
      exact Token.inText_start o.file source
    · exact congrArg (· ++ [d]) herrors
    · intro x hx
      obtain rfl := List.mem_singleton.mp hx
      exact Token.inText_of_scan_error hscan

/-- The errors of a compilation are those of the settings from outside, which point nowhere, and after them
those of the description, of which each points into it and quotes the line there. -/
theorem compile_errors_quote {o : Options} {source : String} {c : Compilation}
    (h : (compile o source).result = .ok c) :
    ∃ ds, c.report.errors = overrideErrors o ++ ds ∧
      (∀ d ∈ overrideErrors o, Unplaced o.overrides.entries d) ∧
      ∀ d ∈ ds, d.Quotes o.file source := by
  obtain ⟨s, hlast, hnone, rfl⟩ := code_eq h
  have hsourced := sourced_read (sourced_start o source) hnone
  rw [hlast] at hsourced
  obtain ⟨ds, heq, hds⟩ := hsourced.errors
  refine ⟨ds, heq, fun d hd => ?_, fun d hd => quotes_of_cites (hds d hd)⟩
  rcases unplaced_overrideAll _ _ d hd with hd | hd
  · cases hd
  · exact hd

/-- A condition that is not open, a type that is not known and a struct that does not end. -/
def faultySource : String := "#else\r\nstruct A\x7bfoo x;\n uint8_t a;\x7d;\r\nstruct B\x7b"

def unknownSetting : Keyed String := ⟨[("nosuch", "1")]⟩

theorem compile_errors_quote_faulty :
    let o : Options := { overrides := unknownSetting }
    ∃ c ds, (compile o faultySource).result = .ok c ∧ c.report.errors = overrideErrors o ++ ds ∧
      (overrideErrors o).map (·.location) = [none] ∧
      ds.map (·.location) = [some ⟨"<input>", 1, 1⟩, some ⟨"<input>", 2, 10⟩, some ⟨"<input>", 4, 1⟩] ∧
      ds.map (·.line) = [some "#else", some "struct A\x7bfoo x;", some "struct B\x7b"] ∧
      ∀ d ∈ ds, d.Quotes o.file faultySource := by
  intro o
  have hread : let r := Declaration.read ⟨o.padding, lineOf faultySource⟩ (start o faultySource)
      r.2 = none ∧ (overrideErrors o).map (·.location) = [none] ∧
        (r.1.report.errors.drop 1).map (·.location) =
          [some ⟨"<input>", 1, 1⟩, some ⟨"<input>", 2, 10⟩, some ⟨"<input>", 4, 1⟩] ∧
        (r.1.report.errors.drop 1).map (·.line) =
          [some "#else", some "struct A\x7bfoo x;", some "struct B\x7b"] := by decide +kernel
  clear_value o
  obtain ⟨hnone, houter, hlocations, hlines⟩ := hread
  have hok := result_of_none hnone
  obtain ⟨ds, heq, -, hquotes⟩ := compile_errors_quote hok
  have hdrop : (outcome faultySource (Declaration.read ⟨o.padding, lineOf faultySource⟩
      (start o faultySource)).1).report.errors.drop 1 = ds := by
    have hlength : (overrideErrors o).length = 1 := by simpa using congrArg List.length houter
    rw [heq, ← hlength, List.drop_left]
  refine ⟨_, ds, hok, heq, houter, ?_, ?_, hquotes⟩
  · rw [← hdrop]
    exact hlocations
  · rw [← hdrop]
    exact hlines

end Compiler
end RecordView
