import Mathlib.Data.Nat.Digits.Defs
import RecordView.Proofs.Token.Constant

/-! Integers as they are written. In base ten, or in another base with its mark, with digits of either
case, separators and suffix letters: the text is one number, and its value is the integer. -/
namespace RecordView

/-! ## Numerals by their digits -/

theorem Text.numeral?_eq_ofDigits {b : Nat} {cs : List Char} {ds : List Nat} (hne : cs ≠ [])
    (hvalues : cs.map Text.digitValue = ds) (hbelow : ∀ d ∈ ds, d < b) :
    Text.numeral? b cs = some (Nat.ofDigits b ds.reverse) := by
  subst hvalues
  have hvalid : (cs.isEmpty || cs.any fun c => b ≤ Text.digitValue c) = false := by
    have hany : (cs.any fun c => b ≤ Text.digitValue c) = false := by simpa using hbelow
    simp [hne, hany]
  have hhorner : Text.numeralFrom b 0 cs = Nat.ofDigits b (cs.map Text.digitValue).reverse := by
    rw [Nat.ofDigits_eq_foldr, List.foldr_reverse, List.foldl_map, Text.numeralFrom]
    congr 1
    funext n c
    rw [Nat.add_comm, Nat.mul_comm, Nat.cast_id]
  simp [Text.numeral?, hvalid, hhorner]

namespace Token

/-! ## Spellings -/

/-- Digits below `b` from the highest on, each in either case, with separators anywhere. -/
inductive Writes (b : Nat) : List Nat → List Char → Prop where
  | nil : Writes b [] []
  | separator {ds cs} (h : Writes b ds cs) : Writes b ds ('_' :: cs)
  | digit {d c ds cs} (hd : d < b) (hc : c = Nat.digitChar d ∨ c = (Nat.digitChar d).toUpper)
      (h : Writes b ds cs) : Writes b (d :: ds) (c :: cs)

def baseMarks : List (Char × Nat) := [('x', 16), ('X', 16), ('o', 8), ('O', 8), ('b', 2), ('B', 2)]

/-- The texts of a number in a base. In base ten a digit comes first, and there is a limit on digits. -/
inductive Spells : Nat → Nat → List Char → Prop where
  | decimal {ds c cs} (hdigits : Writes 10 ds (c :: cs)) (hfirst : c ≠ '_') (hcount : ds.length ≤ 4300) :
      Spells 10 (Nat.ofDigits 10 ds.reverse) (c :: cs)
  | marked {b mark ds cs} (hmark : (mark, b) ∈ baseMarks) (hdigits : Writes b ds cs) (hsome : ds ≠ []) :
      Spells b (Nat.ofDigits b ds.reverse) ('0' :: mark :: cs)

def IsSuffix (suffix : List Char) : Prop := ∀ c ∈ suffix, c ∈ ['u', 'U', 'l', 'L']

variable {b n d : Nat} {c : Char} {ds : List Nat} {cs suffix : List Char}

theorem digitValue_written (hd : d < 16) (hc : c = Nat.digitChar d ∨ c = (Nat.digitChar d).toUpper) :
    Text.digitValue c = d ∧ c ≠ '_' := by
  have hall : ∀ d < 16,
      (Text.digitValue (Nat.digitChar d) = d ∧ Nat.digitChar d ≠ '_') ∧
        Text.digitValue (Nat.digitChar d).toUpper = d ∧ (Nat.digitChar d).toUpper ≠ '_' := by
    decide
  rcases hc with rfl | rfl
  · exact (hall d hd).1
  · exact (hall d hd).2

theorem Writes.forall_mem {p : Char → Prop} (h : Writes b ds cs) (hseparator : p '_')
    (hdigit : ∀ d < b, p (Nat.digitChar d) ∧ p (Nat.digitChar d).toUpper) : ∀ c ∈ cs, p c := by
  induction h with
  | nil => simp
  | separator _ ih => simpa using ⟨hseparator, ih⟩
  | digit hd hc _ ih =>
    rcases hc with rfl | rfl
    · simpa using ⟨(hdigit _ hd).1, ih⟩
    · simpa using ⟨(hdigit _ hd).2, ih⟩

theorem Writes.values (h : Writes b ds cs) (hb : b ≤ 16) :
    (cs.filter (· != '_')).map Text.digitValue = ds := by
  induction h with
  | nil => rfl
  | separator _ ih => simpa using ih
  | digit hd hc _ ih =>
    obtain ⟨hvalue, hne⟩ := digitValue_written (by omega) hc
    simp [hne, hvalue, ih]

theorem Writes.lt_base (h : Writes b ds cs) : ∀ d ∈ ds, d < b := by
  induction h with
  | nil => simp
  | separator _ ih => exact ih
  | digit hd _ _ ih => simpa using ⟨hd, ih⟩

theorem Writes.numeral? (h : Writes b ds cs) (hb : b ≤ 16) (hsome : ds ≠ []) :
    Text.numeral? b (cs.filter (· != '_')) = some (Nat.ofDigits b ds.reverse) := by
  have hvalues := h.values hb
  have hne : cs.filter (· != '_') ≠ [] := by
    intro hnil
    rw [hnil] at hvalues
    exact hsome hvalues.symm
  exact Text.numeral?_eq_ofDigits hne hvalues h.lt_base

/-! ## The number that is cut off -/

theorem IsSuffix.forall_mem {p : Char → Prop} (h : IsSuffix suffix)
    (hletter : p 'u' ∧ p 'U' ∧ p 'l' ∧ p 'L') : ∀ c ∈ suffix, p c := by
  intro c hc
  have hc := h c hc
  simp only [List.mem_cons, List.not_mem_nil, or_false] at hc
  rcases hc with rfl | rfl | rfl | rfl <;> simp [hletter]

/-- A mark is taken for one by the scanner and by the value alike. -/
theorem base_of_mark {mark : Char} (h : (mark, b) ∈ baseMarks) :
    b ≤ 16 ∧ mark ∈ "xXbBoO".toList ∧
      ∀ cs (n : Nat), Text.numeral? b (cs.filter (· != '_')) = some n →
        Constant.literal? (String.ofList ('0' :: mark :: cs)) = some (.int n) := by
  simp only [baseMarks, List.mem_cons, Prod.mk.injEq, List.not_mem_nil, or_false] at h
  rcases h with ⟨rfl, rfl⟩ | ⟨rfl, rfl⟩ | ⟨rfl, rfl⟩ | ⟨rfl, rfl⟩ | ⟨rfl, rfl⟩ | ⟨rfl, rfl⟩ <;>
    simp +contextual [Constant.literal?]

theorem Spells.isNumeral (h : Spells b n cs) : IsNumeral cs := by
  cases h with
  | @decimal ds c cs hdigits _ _ =>
    have hwhole := hdigits.forall_mem (p := (isDigitOrSeparator · = true)) (by decide) (by decide)
    simpa using IsNumeral.decimal hwhole .none .none
  | @marked b mark ds cs hmark hdigits _ =>
    obtain ⟨hb, hbase, -⟩ := base_of_mark hmark
    have hall : ∀ d < 16,
        isHexOrSeparator (Nat.digitChar d) = true ∧ isHexOrSeparator (Nat.digitChar d).toUpper = true := by
      decide
    exact .based hbase (hdigits.forall_mem (by decide) fun d hd => hall d (by omega))

theorem Spells.exists_cons (h : Spells b n cs) : ∃ d < 10, ∃ tail, cs = Nat.digitChar d :: tail := by
  cases h with
  | @decimal ds c cs hdigits hfirst _ =>
    cases hdigits with
    | separator => exact absurd rfl hfirst
    | @digit d _ _ _ hd hc _ =>
      have hcase : ∀ d < 10, (Nat.digitChar d).toUpper = Nat.digitChar d := by decide
      rw [hcase d hd, or_self] at hc
      exact ⟨d, hd, cs, by rw [hc]⟩
  | marked => exact ⟨0, by decide, _, rfl⟩

theorem Spells.lexeme (h : Spells b n (c :: cs)) (hsuffix : IsSuffix suffix) (hc : isDigit c = true)
    (hident : isIdentStart c ≠ true) :
    lexeme c (cs ++ suffix) = ⟨.number, c :: cs, (cs ++ suffix).length⟩ := by
  have hlength : numberLength (c :: cs ++ suffix) = (c :: cs).length := by
    apply h.isNumeral.length_eq
    intro d hd
    exact hsuffix.forall_mem (p := (· ∈ numberEnds)) (by decide) d (List.mem_of_mem_head? hd)
  have hletters : runLength isSuffix suffix = suffix.length := by
    have hall := hsuffix.forall_mem (p := (isSuffix · = true)) (by decide)
    have hrun := runLength_append hall (show Stops isSuffix [] by simp [Stops])
    rwa [List.append_nil] at hrun
  have hstart : startsNumber c (cs ++ suffix) = true := by simp [startsNumber, hc]
  rw [lexeme_number hident hstart, ← List.cons_append, hlength]
  simp [hletters]

/-- The text of a number and the letters behind it are one token, without the letters. -/
theorem Spells.scan (h : Spells b n cs) (hsuffix : IsSuffix suffix) (file : String) :
    ∃ e : Token, scan file (String.ofList (cs ++ suffix)) =
      .ok [⟨.number, String.ofList cs, file, 1, 1⟩, e] ∧ e.kind = .eof := by
  obtain ⟨d, hd, tail, rfl⟩ := h.exists_cons
  have hall : ∀ d < 10, isDigit (Nat.digitChar d) = true ∧ isIdentStart (Nat.digitChar d) ≠ true ∧
      isGap (Nat.digitChar d) = false ∧ Nat.digitChar d ≠ '\n' ∧ Nat.digitChar d ≠ '/' ∧
      Nat.digitChar d ≠ '#' := by
    decide
  obtain ⟨hdigit, hident, hgap, hnewline, hslash, hmark⟩ := hall d hd
  exact ⟨_, scan_lexeme hnewline hgap hslash hmark (h.lexeme hsuffix hdigit hident) file, rfl⟩

/-! ## The value -/

/-- Digits and separators without a mark are a number in base ten. -/
theorem Writes.literal? (h : Writes 10 ds cs) (hsome : ds ≠ []) (hcount : ds.length ≤ 4300) :
    Constant.literal? (String.ofList cs) = some (.int (Nat.ofDigits 10 ds.reverse : Nat)) := by
  have hnumeral := h.numeral? (by decide) hsome
  have hplain : ∀ c ∈ cs.filter (· != '_'), c ∉ "xXbBoO".toList := by
    intro c hc
    exact h.forall_mem (p := (· ∉ "xXbBoO".toList)) (by decide) (by decide) c (List.mem_filter.mp hc).1
  have hwhole : ∀ c ∈ cs.filter (· != '_'), ¬ (c == '.' || c == 'e' || c == 'E') := by
    intro c hc
    exact h.forall_mem (p := fun c => ¬ (c == '.' || c == 'e' || c == 'E')) (by decide) (by decide) c
      (List.mem_filter.mp hc).1
  have hlength : (cs.filter (· != '_')).length ≤ Decimal.maxDigits := by
    rw [← List.length_map Text.digitValue, h.values (by decide)]
    exact hcount
  unfold Constant.literal?
  rw [String.toList_ofList]
  dsimp only
  generalize cs.filter (· != '_') = digits at hnumeral hplain hwhole hlength
  split
  case h_7 =>
    rw [List.any_eq_false.mpr hwhole, if_neg Bool.false_ne_true, if_pos hlength, hnumeral]
    rfl
  all_goals simp at hplain

/-- The value of the text is the number. -/
theorem Spells.literal? (h : Spells b n cs) : Constant.literal? (String.ofList cs) = some (.int n) := by
  cases h with
  | @decimal ds c cs hdigits hfirst hcount =>
    have hsome : ds ≠ [] := by
      rintro rfl
      cases hdigits with
      | separator => exact absurd rfl hfirst
    exact hdigits.literal? hsome hcount
  | @marked b mark ds cs hmark hdigits hsome =>
    obtain ⟨hb, -, hliteral⟩ := base_of_mark hmark
    exact hliteral cs _ (hdigits.numeral? hb hsome)

/-- The value of a number is that of its text. -/
theorem evaluate_number {ts : List Token} {t : Token} (ht : t.kind = .number)
    (hts : Expr.content ts = [t]) (hvalue : Constant.literal? t.text = some (.int n)) (scope : Scope)
    (allowDefined : Bool) (location : Option Location) :
    Expr.evaluate scope allowDefined ts location = .ok (.int n) := by
  have hatom : (Grammar.Derivation.atom (.number ⟨t, ht⟩) : Grammar.Derivation allowDefined _).value scope =
      .ok (.int n) := by
    simp only [Grammar.Derivation.value, hvalue]
  exact Expr.evaluate_of_level (Nat.zero_le 10) (.atom (.number ⟨t, ht⟩)) hts.symm hatom rfl

/-- Integers denote their value. In each base, every text of a number with any suffix behind it is cut
into one number and the end; evaluated wherever it stands, alone or with the end of the input, the
number gives exactly the integer. -/
theorem integer_denotes (h : Spells b n cs) (hsuffix : IsSuffix suffix) (file : String) :
    ∃ t e : Token, scan file (String.ofList (cs ++ suffix)) = .ok [t, e] ∧ t.kind = .number ∧
      t.text = String.ofList cs ∧ e.kind = .eof ∧
      ∀ ts, ts = [t] ∨ ts = [t, e] → ∀ scope allowDefined location,
        Expr.evaluate scope allowDefined ts location = .ok (.int n) := by
  obtain ⟨e, hscan, he⟩ := h.scan hsuffix file
  refine ⟨_, e, hscan, rfl, rfl, he, fun ts hts => ?_⟩
  have hcontent : Expr.content ts = [⟨.number, String.ofList cs, file, 1, 1⟩] := by
    rcases hts with rfl | rfl
    · rfl
    · simp [Expr.content, he]
  exact evaluate_number rfl hcontent h.literal?

/-- A hexadecimal number with a mark and digits of both cases, zeros, separators and a suffix. -/
theorem integer_denotes_hexadecimal :
    Spells 16 2748 "0X__0aBc_".toList ∧ IsSuffix "uLL".toList ∧
      ∃ t e : Token, scan "" "0X__0aBc_uLL" = .ok [t, e] ∧ t.text = "0X__0aBc_" ∧
        Expr.evaluate {} false [t, e] = .ok (.int 2748) := by
  have hdigits : Writes 16 [0, 10, 11, 12] "__0aBc_".toList :=
    .separator (.separator (.digit (by decide) (.inl rfl) (.digit (by decide) (.inl rfl)
      (.digit (by decide) (.inr rfl) (.digit (by decide) (.inl rfl) (.separator .nil))))))
  have hspells : Spells 16 2748 "0X__0aBc_".toList := .marked (by decide) hdigits (by decide)
  have hsuffix : IsSuffix "uLL".toList := by simp [IsSuffix]
  obtain ⟨t, e, hscan, -, htext, -, hvalue⟩ := integer_denotes hspells hsuffix ""
  exact ⟨hspells, hsuffix, t, e, hscan, htext, hvalue _ (.inr rfl) {} false none⟩

end Token
end RecordView
