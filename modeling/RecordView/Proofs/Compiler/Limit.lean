import RecordView.Proofs.Compiler
import RecordView.Proofs.Declaration.Limit

/-! How many errors a compilation has: how far the limit can be exceeded, and by what. -/
namespace RecordView.Compiler
open Declaration Reader

variable {o : Options} {source : String}

/-- A setting from outside is one error at most. -/
theorem override_report (s : State) (name value : String) :
    (override s name value).report.limit = s.report.limit ∧
      (override s name value).report.errors.length ≤ s.report.errors.length + 1 := by
  refine override_elim s name value (fun _ => ?_) (fun _ _ _ => ?_) fun r _ => ?_
  · exact ⟨rfl, Nat.le_succ _⟩
  · exact ⟨rfl, Nat.le_succ _⟩
  · exact ⟨rfl, Nat.le_of_eq (by simp [Report.add])⟩

theorem overrides_report (es : List (String × String)) (s : State) :
    (es.foldl (fun s e => override s e.1 e.2) s).report.limit = s.report.limit ∧
      (es.foldl (fun s e => override s e.1 e.2) s).report.errors.length ≤
        s.report.errors.length + es.length := by
  induction es generalizing s with
  | nil => exact ⟨rfl, Nat.le_refl _⟩
  | cons e es ih =>
    obtain ⟨hlimit, hle⟩ := override_report s e.1 e.2
    obtain ⟨hlimit', hle'⟩ := ih (override s e.1 e.2)
    refine ⟨hlimit'.trans hlimit, ?_⟩
    rw [List.foldl_cons, List.length_cons]
    omega

/-- Before the first token is read, there is one error at most for each setting from outside, and one if
the description cannot be split into tokens. -/
theorem start_report (o : Options) (source : String) :
    (start o source).report.limit = o.maxErrors ∧
      (start o source).report.errors.length ≤ o.overrides.entries.length + 1 := by
  obtain ⟨hlimit, hle⟩ :=
    overrides_report o.overrides.entries { unread := [], report := { limit := o.maxErrors } }
  rw [List.length_nil, Nat.zero_add] at hle
  unfold start tokens
  dsimp only
  split
  · exact ⟨hlimit, Nat.le_succ_of_le hle⟩
  · refine ⟨hlimit, ?_⟩
    simp only [Report.add, List.length_append, List.length_singleton]
    omega

theorem start_frames (o : Options) (source : String) : (start o source).frames = [] := by
  obtain ⟨_, _, _, _, _, heq⟩ := start_eq o source
  rw [heq]

theorem full_iff {s : State} (h : s.report.limit = o.maxErrors) :
    s.report.full = true ↔ o.maxErrors ≤ s.report.errors.length := by
  simp only [Report.full, h, decide_eq_true_eq]

theorem not_full_iff {s : State} (h : s.report.limit = o.maxErrors) :
    s.report.full = false ↔ s.report.errors.length < o.maxErrors := by
  simp only [Report.full, h, decide_eq_false_iff_not, Int.not_le]

/-- The limit is the same wherever it is tested. -/
theorem limit_of_tests {env : Env} {s : State} (h : Tests env (start o source) s) :
    s.report.limit = o.maxErrors := h.advances.limit.trans (start_report o source).1

/-- Where the limit is tested and reached, no further error is recorded. If it is not reached before the
first token is read, then there is a last test at which it is not reached; after it the reading records one
error of its own at most, or two if the test was before a statement, and there are the errors of the
conditions that are drawn after it. So the limit, or the number of settings from outside where it is greater,
is exceeded by one error and those of the conditions at most. -/
theorem errors_since_last_test {c : Compilation} (h : (compile o source).result = .ok c) :
    (∀ s, Tests ⟨o.padding, lineOf source⟩ (start o source) s →
        o.maxErrors ≤ s.report.errors.length → c.report.errors = s.report.errors) ∧
      ((start o source).report.errors.length < o.maxErrors →
        ∃ s own drawn fs ts, Tests ⟨o.padding, lineOf source⟩ (start o source) s ∧
          s.report.errors.length < o.maxErrors ∧
          (own.length ≤ 1 ∨ own.length = 2 ∧
            Runs statementRound ⟨o.padding, lineOf source⟩ () (start o source) () s) ∧
          Frames.Drawn s.frames s.unread drawn fs ts ∧
          c.report.errors.Perm (s.report.errors ++ own ++ drawn)) ∧
      c.report.errors.length ≤ max o.maxErrors o.overrides.entries.length + 1 +
        Frames.outstanding [] (start o source).unread := by
  obtain ⟨s', hfirst, hnone, rfl⟩ := code_eq h
  obtain ⟨hlimit, hstart⟩ := start_report o source
  have hstops (s : State) (tests : Tests ⟨o.padding, lineOf source⟩ (start o source) s)
      (hfull : o.maxErrors ≤ s.report.errors.length) : s'.report.errors = s.report.errors := by
    rw [← hfirst, tests.report_eq ((full_iff (limit_of_tests tests)).mpr hfull) hnone]
  have hlast (hbelow : (start o source).report.errors.length < o.maxErrors) :
      ∃ s own drawn fs ts, Tests ⟨o.padding, lineOf source⟩ (start o source) s ∧
        s.report.errors.length < o.maxErrors ∧
        (own.length ≤ 1 ∨ own.length = 2 ∧
          Runs statementRound ⟨o.padding, lineOf source⟩ () (start o source) () s) ∧
        Frames.Drawn s.frames s.unread drawn fs ts ∧
        s'.report.errors.Perm (s.report.errors ++ own ++ drawn) := by
    have hwithin := within_read ((not_full_iff hlimit).mpr hbelow) hnone
    rw [hfirst] at hwithin
    rcases hwithin with ⟨s, before, going, hadds⟩ | ⟨s, tests, going, hadds⟩
    · have tests : Tests ⟨o.padding, lineOf source⟩ (start o source) s := .statement before
      obtain ⟨own, drawn, hown, hdrawn, hperm⟩ := hadds.errors
      have hlt := (not_full_iff (limit_of_tests tests)).mp going
      refine ⟨s, own, drawn, _, _, tests, hlt, ?_, hdrawn, hperm⟩
      by_cases hone : own.length ≤ 1
      · exact .inl hone
      · exact .inr ⟨by omega, before⟩
    · obtain ⟨own, drawn, hown, hdrawn, hperm⟩ := hadds.errors
      have hlt := (not_full_iff (limit_of_tests tests)).mp going
      exact ⟨s, own, drawn, _, _, tests, hlt, .inl hown, hdrawn, hperm⟩
  refine ⟨hstops, hlast, ?_⟩
  dsimp only
  by_cases hbelow : (start o source).report.errors.length < o.maxErrors
  · obtain ⟨s, own, drawn, fs, ts, tests, hlt, hown, hdrawn, hperm⟩ := hlast hbelow
    obtain ⟨_, _, htrail⟩ := tests.advances.trail (steady_start o source).live
    have hrest := htrail.outstanding_le
    rw [start_frames] at hrest
    have hafter := hdrawn.outstanding_le
    have hlength := hperm.length_eq
    rw [List.length_append, List.length_append] at hlength
    omega
  · rw [hstops _ (.statement .start) (by omega)]
    omega

/-- An enum with a type that is not one of integers, and a condition that has no value and no end. -/
def excessSource : String := "enum A : foo\n#if )"

theorem errors_since_last_test_excess :
    let o : Options := { maxErrors := 1 }
    ∃ c, (compile o excessSource).result = .ok c ∧ c.report.errors.length = 4 ∧
      max o.maxErrors o.overrides.entries.length + 1 + Frames.outstanding [] (start o excessSource).unread = 4 ∧
      c.report.errors.length ≤ max o.maxErrors o.overrides.entries.length + 1 +
        Frames.outstanding [] (start o excessSource).unread ∧
      (start o excessSource).report.errors.length < o.maxErrors ∧
      ∃ s own drawn fs ts, Tests ⟨o.padding, lineOf excessSource⟩ (start o excessSource) s ∧
        s.report.errors.length < o.maxErrors ∧
        (own.length ≤ 1 ∨ own.length = 2 ∧
          Runs statementRound ⟨o.padding, lineOf excessSource⟩ () (start o excessSource) () s) ∧
        Frames.Drawn s.frames s.unread drawn fs ts ∧
        c.report.errors.Perm (s.report.errors ++ own ++ drawn) := by
  intro o
  have hread : let r := Declaration.read ⟨o.padding, lineOf excessSource⟩ (start o excessSource)
      r.2 = none ∧ r.1.report.errors.length = 4 ∧
        max o.maxErrors o.overrides.entries.length + 1 +
          Frames.outstanding [] (start o excessSource).unread = 4 ∧
        (start o excessSource).report.errors.length < o.maxErrors := by decide +kernel
  clear_value o
  obtain ⟨hnone, hlength, hbound, hbelow⟩ := hread
  have hok := result_of_none hnone
  obtain ⟨-, hlast, hle⟩ := errors_since_last_test hok
  exact ⟨_, hok, hlength, hbound, hle, hbelow, hlast hbelow⟩

def raisingSource : String := "#error a\n#error b\n"

/-- Both are drawn at once in search of the first token. -/
theorem errors_exceed_limit :
    ∃ c, (compile { maxErrors := 1 } raisingSource).result = .ok c ∧ c.report.errors.length = 2 := by
  have hread : let o : Options := { maxErrors := 1 }
      let r := Declaration.read ⟨o.padding, lineOf raisingSource⟩ (start o raisingSource)
      r.2 = none ∧ r.1.report.errors.length = 2 := by decide +kernel
  exact ⟨_, result_of_none hread.1, hread.2⟩

end RecordView.Compiler
