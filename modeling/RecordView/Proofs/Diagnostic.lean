import RecordView.Token.Scanner

/-! The text of a report is one comment, whatever its errors and warnings say: no part of it ends the
comment before its last line, and code that follows it stays code. -/
namespace RecordView.Report

variable {c : Char} {cs ds : List Char}

/-! ## Texts that do not end a comment -/

def endMark : List Char := ['*', '/']

/-- The text may stand in a comment: it does not end it. -/
def Quiet (cs : List Char) : Prop := ¬ endMark <:+: cs

theorem endMark_prefix_cons : endMark <+: c :: cs ↔ c = '*' ∧ cs.head? = some '/' := by
  cases cs <;> simp [endMark, List.cons_prefix_cons, eq_comm]

theorem quiet_cons_iff : Quiet (c :: cs) ↔ ¬ (c = '*' ∧ cs.head? = some '/') ∧ Quiet cs := by
  unfold Quiet
  rw [List.infix_cons_iff, endMark_prefix_cons, not_or]

theorem quiet_nil : Quiet [] := by simp [Quiet, endMark]

theorem quiet_of_not_mem (h : '*' ∉ cs) : Quiet cs := by
  rintro ⟨as, bs, rfl⟩
  exact h (by simp [endMark])

/-- A newline keeps two texts apart. -/
theorem Quiet.newline (hcs : Quiet cs) (hds : Quiet ds) : Quiet (cs ++ '\n' :: ds) := by
  induction cs with
  | nil => exact quiet_cons_iff.mpr ⟨by simp, hds⟩
  | cons c cs ih =>
    obtain ⟨hc, hcs⟩ := quiet_cons_iff.mp hcs
    refine quiet_cons_iff.mpr ⟨?_, ih hcs⟩
    cases cs with
    | nil => simp
    | cons d cs => exact hc

theorem quiet_unlines {ls : List String} (h : ∀ l ∈ ls, Quiet l.toList) : Quiet (Text.unlines ls).toList := by
  induction ls with
  | nil => exact quiet_nil
  | cons l ls ih =>
    have hl := h l List.mem_cons_self
    cases ls with
    | nil => rwa [Text.unlines, String.intercalate_singleton]
    | cons m ls =>
      have hls := ih fun k hk => h k (List.mem_cons_of_mem l hk)
      rw [Text.unlines, String.intercalate_cons_cons, String.toList_append, String.toList_append,
        List.append_assoc]
      exact hl.newline hls

/-- A defused text starts like the text itself. -/
theorem head?_defuse (cs : List Char) : (defuse cs).head? = cs.head? := by
  fun_cases defuse cs <;> rfl

theorem quiet_defuse (cs : List Char) : Quiet (defuse cs) := by
  fun_induction defuse cs with
  | case1 cs ih =>
    -- the blank keeps the two characters of the mark apart
    have hslash : Quiet ('/' :: defuse cs) := quiet_cons_iff.mpr ⟨by simp, ih⟩
    exact quiet_cons_iff.mpr ⟨by simp, quiet_cons_iff.mpr ⟨by simp, hslash⟩⟩
  | case2 c cs hmark ih =>
    refine quiet_cons_iff.mpr ⟨?_, ih⟩
    rw [head?_defuse]
    rintro ⟨rfl, hhead⟩
    obtain ⟨ds, rfl⟩ : ∃ ds, cs = '/' :: ds := List.head?_eq_some_iff.mp hhead
    exact hmark ds rfl rfl
  | case3 => exact quiet_nil

theorem quiet_inComment (s : String) : Quiet (inComment s).toList := by
  rw [inComment, String.toList_ofList]
  exact quiet_defuse s.toList

theorem star_not_mem_counted (n : Nat) {noun : String} (h : '*' ∉ noun.toList) :
    '*' ∉ (counted n noun).toList := by
  have hdigits : '*' ∉ Nat.toDigits 10 n := by
    intro hmem
    exact absurd (Nat.isDigit_of_mem_toDigits (by decide) (by decide) hmem) (by decide)
  unfold counted
  split <;> simp [toString, hdigits, h]

/-! ## The text of a report -/

def innerLines (r : Report) : List String :=
  r.errors.flatMap (fun d => [inComment d.text, ""]) ++ r.warnings.map (fun w => inComment w.text) ++
    [counted r.errors.length "error" ++ ", " ++ counted r.warnings.length "warning"]

theorem quiet_innerLines (r : Report) : ∀ l ∈ r.innerLines, Quiet l.toList := by
  intro l hl
  simp only [innerLines, List.mem_append, List.mem_flatMap, List.mem_map, List.mem_cons, List.not_mem_nil,
    or_false] at hl
  rcases hl with (⟨d, -, rfl | rfl⟩ | ⟨w, -, rfl⟩) | rfl
  · exact quiet_inComment d.text
  · exact quiet_nil
  · exact quiet_inComment w.text
  · have herrors : '*' ∉ (counted r.errors.length "error").toList := star_not_mem_counted _ (by decide)
    have hwarnings : '*' ∉ (counted r.warnings.length "warning").toList := star_not_mem_counted _ (by decide)
    exact quiet_of_not_mem (by simp [herrors, hwarnings])

def inner (r : Report) : List Char := '\n' :: (Text.unlines r.innerLines).toList

theorem quiet_inner (r : Report) : Quiet r.inner :=
  quiet_cons_iff.mpr ⟨by simp, quiet_unlines r.quiet_innerLines⟩

theorem text_eq {r : Report} (h : ¬ (r.errors = [] ∧ r.warnings = [])) :
    r.text.toList = '/' :: '*' :: (r.inner ++ ['\n', '*', '/', '\n']) := by
  have hsome : (r.errors.isEmpty && r.warnings.isEmpty) ≠ true := by simpa using h
  have hne : r.innerLines ≠ [] := by simp [innerLines]
  have hlines : r.text = Text.unlines (["/*"] ++ (r.innerLines ++ ["*/", ""])) := by
    rw [text, if_neg hsome]
    simp [innerLines]
  rw [hlines, Text.unlines, String.intercalate_append_of_ne_nil (by simp) (by simp),
    String.intercalate_append_of_ne_nil hne (by simp), inner]
  simp [Text.unlines]

/-! ## One comment -/

/-- A newline behind a quiet text begins no end mark with it. -/
theorem Quiet.head?_newline (h : Quiet (c :: cs)) (tail : List Char) :
    ¬ (c = '*' ∧ (cs ++ '\n' :: tail).head? = some '/') := by
  have hc := (quiet_cons_iff.mp h).1
  cases cs with
  | nil => simp
  | cons d cs => exact hc

/-- A comment ends with the first end mark, whatever comes after it. -/
theorem commentLength?_append (h : Quiet cs) (tail : List Char) :
    Token.commentLength? (cs ++ '\n' :: '*' :: '/' :: tail) = some (cs.length + 3) := by
  induction cs with
  | nil => rfl
  | cons c cs ih =>
    have hcs := (quiet_cons_iff.mp h).2
    rw [List.cons_append, Token.commentLength?, ih hcs]
    · simp
    · intro ds hstar hslash
      exact h.head?_newline _ ⟨hstar, by rw [hslash]; rfl⟩

/-- The one end mark of such a text stands behind the newline. -/
theorem endMark_prefix_drop_iff (h : Quiet cs) (i : Nat) :
    endMark <+: (cs ++ ['\n', '*', '/', '\n']).drop i ↔ i = cs.length + 1 := by
  induction cs generalizing i with
  | nil =>
    match i with
    | 0 | 1 | 2 | 3 | i + 4 => simp [endMark, List.cons_prefix_cons]
  | cons c cs ih =>
    cases i with
    | zero =>
      have hfirst := h.head?_newline ['*', '/', '\n']
      rw [List.drop_zero, List.cons_append, endMark_prefix_cons]
      simp only [hfirst, List.length_cons, false_iff]
      omega
    | succ i =>
      rw [List.cons_append, List.drop_succ_cons, ih (quiet_cons_iff.mp h).2, List.length_cons]
      omega

/-- The text is a comment and a newline: it opens a comment, the only end mark in it stands before its last
character, and the comment ends there, whatever is put behind it. -/
structure IsComment (text : String) : Prop where
  opens : ['/', '*'] <+: text.toList
  closes : endMark ++ ['\n'] <:+ text.toList
  once : ∀ i, endMark <+: text.toList.drop i ↔ i + 3 = text.toList.length
  apart : ∀ code : String, ∃ n, Token.commentLength? ((text ++ code).toList.drop 2) = some n ∧
    (text ++ code).toList.drop (2 + n) = '\n' :: code.toList

theorem isComment_text {r : Report} (h : ¬ (r.errors = [] ∧ r.warnings = [])) : IsComment r.text := by
  have heq := text_eq h
  have hquiet : Quiet ('/' :: '*' :: r.inner) :=
    quiet_cons_iff.mpr ⟨by simp, quiet_cons_iff.mpr ⟨by simp [inner], r.quiet_inner⟩⟩
  constructor
  · rw [heq]
    exact ⟨_, rfl⟩
  · rw [heq]
    exact ⟨'/' :: '*' :: (r.inner ++ ['\n']), by simp [endMark]⟩
  · intro i
    have hmark := endMark_prefix_drop_iff hquiet i
    rw [heq]
    simp only [List.cons_append] at hmark
    rw [hmark]
    simp only [List.length_cons, List.length_append, List.length_nil]
    omega
  · intro code
    refine ⟨r.inner.length + 3, ?_, ?_⟩
    · rw [String.toList_append, heq]
      simpa using commentLength?_append r.quiet_inner ('\n' :: code.toList)
    · rw [String.toList_append, heq, Nat.add_comm]
      simp only [List.cons_append, List.drop_succ_cons, List.append_assoc]
      rw [List.drop_length_add_append]
      rfl

/-- A report without errors and warnings has no text. Every other one, whatever its messages, hints, places
and quoted lines are, is one comment, so that code behind it is read as if it stood alone. -/
theorem text_comment (r : Report) :
    (r.text = "" ↔ r.errors = [] ∧ r.warnings = []) ∧ (r.text ≠ "" → IsComment r.text) := by
  by_cases h : r.errors = [] ∧ r.warnings = []
  · have htext : r.text = "" := by simp [text, h]
    exact ⟨iff_of_true htext h, fun hne => absurd htext hne⟩
  · have hne : r.text ≠ "" := by
      intro htext
      have heq := text_eq h
      rw [htext] at heq
      cases heq
    exact ⟨iff_of_false hne h, fun _ => isComment_text h⟩

/-- A report with end marks in a message, a hint, a place, a quoted line and a warning. -/
def markedReport : Report :=
  { errors := [⟨.other .general "a **/ b */" (some "*/"), some ⟨"*/", 1, 2⟩, some "/*/*/"⟩]
    warnings := [⟨"**//", none⟩] }

theorem text_comment_marked : markedReport.text ≠ "" ∧ IsComment markedReport.text ∧
    markedReport.text = "/*\n* /:1:2: error: a ** / b * /\n    /* /* /\n     ^\nhint: * /\n\n" ++
      "warning: ** //\n1 error, 1 warning\n*/\n" := by
  have hne : markedReport.text ≠ "" := by decide +kernel
  exact ⟨hne, (text_comment markedReport).2 hne, by decide +kernel⟩

end RecordView.Report
