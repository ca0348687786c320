import RecordView.Token.Scanner

/-! One lexeme: its text is what stands in front of it, less the suffix of a number, and the same lexeme is
recognised wherever its text stands before a space or at the end. -/
namespace RecordView.Token

variable {p : Char → Bool} {c : Char} {cs ds tail text : List Char}

/-! ## Runs -/

/-- A run of characters that satisfy `p` does not go on here. -/
def Stops (p : Char → Bool) (tail : List Char) : Prop := ∀ d ∈ tail.head?, p d = false

theorem Stops.takeWhile_eq (h : Stops p tail) : tail.takeWhile p = [] := by
  cases tail with
  | nil => rfl
  | cons d tail => rw [List.takeWhile_cons, h d rfl, if_neg Bool.false_ne_true]

theorem takeWhile_append_stops (hcs : ∀ d ∈ cs, p d = true) (h : Stops p tail) :
    (cs ++ tail).takeWhile p = cs := by
  rw [List.takeWhile_append_of_pos hcs, h.takeWhile_eq, List.append_nil]

theorem runLength_append (hcs : ∀ d ∈ cs, p d = true) (h : Stops p tail) :
    runLength p (cs ++ tail) = cs.length := by
  rw [runLength, takeWhile_append_stops hcs h]

/-- A text is a run and what comes after it. -/
theorem exists_run (p : Char → Bool) (cs : List Char) :
    ∃ run tail, cs = run ++ tail ∧ (∀ d ∈ run, p d = true) ∧ Stops p tail ∧ runLength p cs = run.length := by
  refine ⟨cs.takeWhile p, cs.dropWhile p, List.takeWhile_append_dropWhile.symm,
    List.all_eq_true.mp List.all_takeWhile, fun d hd => ?_, rfl⟩
  have h := List.head?_dropWhile_not p cs
  rw [Option.mem_def.mp hd] at h
  exact h

theorem take_runLength (p : Char → Bool) (cs : List Char) : cs.take (runLength p cs) = cs.takeWhile p :=
  (List.prefix_iff_eq_take.mp (List.takeWhile_prefix p)).symm

def AtSpace (tail : List Char) : Prop := ∀ d ∈ tail.head?, d = ' '

theorem atSpace_nil : AtSpace [] := by
  intro d hd
  cases hd

theorem AtSpace.stops (h : AtSpace tail) (hp : p ' ' = false) : Stops p tail :=
  fun d hd => (h d hd).symm ▸ hp

/-! ## Numbers -/

def IsDigits (ds : List Char) : Prop := ds ≠ [] ∧ ∀ d ∈ ds, isDigit d = true

inductive IsFraction : List Char → Prop where
  | none : IsFraction []
  | point {ds : List Char} (digits : IsDigits ds) : IsFraction ('.' :: ds)

inductive IsExponent : List Char → Prop where
  | none : IsExponent []
  | mark {m : Char} {s ds : List Char} (mark : m = 'e' ∨ m = 'E')
      (sign : s = [] ∨ s = ['+'] ∨ s = ['-']) (digits : IsDigits ds) : IsExponent (m :: (s ++ ds))

inductive IsNumeral : List Char → Prop where
  | based {m : Char} {ds : List Char} (mark : m ∈ "xXbBoO".toList)
      (digits : ∀ d ∈ ds, isHexOrSeparator d = true) : IsNumeral ('0' :: m :: ds)
  | decimal {w f e : List Char} (whole : ∀ d ∈ w, isDigitOrSeparator d = true) (fraction : IsFraction f)
      (exponent : IsExponent e) : IsNumeral (w ++ (f ++ e))

theorem isFraction_take (cs : List Char) : IsFraction (cs.take (fractionLength cs)) := by
  unfold fractionLength
  split
  · next ds =>
    obtain ⟨run, tail, rfl, hrun, htail, hlength⟩ := exists_run isDigit ds
    rw [hlength]
    split
    · exact .none
    · next hne =>
      rw [Nat.add_comm, List.take_succ_cons, List.take_left]
      exact .point ⟨List.ne_nil_of_length_pos (Nat.pos_of_ne_zero hne), hrun⟩
  · exact .none

theorem IsFraction.length_eq (h : IsFraction text) (htail : tail.head? ≠ some '.')
    (hstops : Stops isDigit tail) : fractionLength (text ++ tail) = text.length := by
  cases h with
  | none =>
    unfold fractionLength
    split
    · next heq =>
      rw [List.nil_append] at heq
      rw [heq] at htail
      exact absurd rfl htail
    · rfl
  | point digits =>
    rw [List.cons_append, fractionLength, runLength_append digits.2 hstops,
      if_neg (fun h => digits.1 (List.eq_nil_of_length_eq_zero h)), List.length_cons, Nat.add_comm]

def signLength (ds : List Char) : Nat := (ds.head?.map fun d => if d = '+' ∨ d = '-' then 1 else 0).getD 0

theorem exponentLength_cons (m : Char) (ds : List Char) :
    exponentLength (m :: ds) =
      if m = 'e' ∨ m = 'E' then
        if runLength isDigit (ds.drop (signLength ds)) = 0 then 0
        else 1 + signLength ds + runLength isDigit (ds.drop (signLength ds))
      else 0 := by
  cases ds <;> rfl

/-- A text is a sign, which may be left out, and what comes after it. -/
theorem exists_sign (cs : List Char) :
    ∃ s tail, cs = s ++ tail ∧ (s = [] ∨ s = ['+'] ∨ s = ['-']) ∧ signLength cs = s.length := by
  cases cs with
  | nil => exact ⟨[], [], rfl, .inl rfl, rfl⟩
  | cons d ds =>
    by_cases hd : d = '+' ∨ d = '-'
    · exact ⟨[d], ds, rfl, by simpa using hd, if_pos hd⟩
    · exact ⟨[], d :: ds, rfl, .inl rfl, if_neg hd⟩

theorem signLength_append {s : List Char} (hs : s = [] ∨ s = ['+'] ∨ s = ['-']) (hds : IsDigits ds) :
    signLength (s ++ (ds ++ tail)) = s.length := by
  obtain ⟨d, ds, rfl⟩ := List.exists_cons_of_ne_nil hds.1
  have hd : ¬ (d = '+' ∨ d = '-') := by
    have hdigit := hds.2 d List.mem_cons_self
    rintro (rfl | rfl)
    · exact absurd hdigit (by decide)
    · exact absurd hdigit (by decide)
  rcases hs with rfl | rfl | rfl
  · exact if_neg hd
  · rfl
  · rfl

theorem isExponent_take (cs : List Char) : IsExponent (cs.take (exponentLength cs)) := by
  cases cs with
  | nil => exact .none
  | cons m cs =>
    obtain ⟨s, rest, rfl, hs, hsign⟩ := exists_sign cs
    obtain ⟨run, tail, rfl, hrun, htail, hlength⟩ := exists_run isDigit rest
    rw [exponentLength_cons, hsign, List.drop_left, hlength]
    split
    · next hm =>
      split
      · exact .none
      · next hne =>
        have htake : (m :: (s ++ (run ++ tail))).take (1 + s.length + run.length) = m :: (s ++ run) := by
          rw [Nat.add_assoc, Nat.add_comm 1, List.take_succ_cons, ← List.append_assoc, ← List.length_append,
            List.take_left]
        rw [htake]
        exact .mark hm hs ⟨List.ne_nil_of_length_pos (Nat.pos_of_ne_zero hne), hrun⟩
    · exact .none

theorem IsExponent.length_eq (h : IsExponent text) (htail : ∀ m ∈ tail.head?, m ≠ 'e' ∧ m ≠ 'E')
    (hstops : Stops isDigit tail) : exponentLength (text ++ tail) = text.length := by
  cases h with
  | none =>
    cases tail with
    | nil => rfl
    | cons m tail =>
      obtain ⟨he, hE⟩ := htail m rfl
      rw [List.nil_append, exponentLength_cons, if_neg (by simp [he, hE])]
      rfl
  | @mark m s ds hm hs digits =>
    have htext : m :: (s ++ ds) ++ tail = m :: (s ++ (ds ++ tail)) := by
      rw [List.cons_append, List.append_assoc]
    rw [htext, exponentLength_cons, if_pos hm, signLength_append hs digits, List.drop_left,
      runLength_append digits.2 hstops,
      if_neg (fun h => digits.1 (List.eq_nil_of_length_eq_zero h)), List.length_cons, List.length_append]
    omega

theorem isNumeral_take (cs : List Char) : IsNumeral (cs.take (numberLength cs)) := by
  unfold numberLength
  split
  · next hmark =>
    unfold hasBaseMark at hmark
    split at hmark
    · next m ds =>
      obtain ⟨run, tail, rfl, hrun, -, hlength⟩ := exists_run isHexOrSeparator ds
      have htake : ('0' :: m :: (run ++ tail)).take (2 + run.length) = '0' :: m :: run := by
        rw [Nat.add_comm, List.take_succ_cons, List.take_succ_cons, List.take_left]
      rw [List.drop_succ_cons, List.drop_succ_cons, List.drop_zero, hlength, htake]
      exact .based (List.contains_iff_mem.mp hmark) hrun
    · cases hmark
  · obtain ⟨run, tail, rfl, hrun, -, hlength⟩ := exists_run isDigitOrSeparator cs
    dsimp only
    rw [hlength, List.drop_left, ← List.drop_drop, List.drop_left, Nat.add_assoc, List.take_length_add_append,
      List.take_add]
    exact .decimal hrun (isFraction_take tail) (isExponent_take _)

/-- The characters that end a number: a space, and the letters of a suffix. -/
def numberEnds : List Char := [' ', 'u', 'U', 'l', 'L']

theorem AtSpace.endsNumber (h : AtSpace tail) : ∀ d ∈ tail.head?, d ∈ numberEnds := by
  intro d hd
  rw [h d hd]
  decide

theorem IsExponent.head (h : IsExponent text) (htail : ∀ d ∈ tail.head?, d ∈ numberEnds) :
    ∀ d ∈ (text ++ tail).head?, d ∈ 'e' :: 'E' :: numberEnds := by
  intro d hd
  cases h with
  | none => simp [htail d hd]
  | mark hm =>
    cases hd
    rcases hm with rfl | rfl
    · decide
    · decide

theorem IsFraction.head (h : IsFraction text) (hcs : ∀ d ∈ cs.head?, d ∈ 'e' :: 'E' :: numberEnds) :
    ∀ d ∈ (text ++ cs).head?, d ∈ '.' :: 'e' :: 'E' :: numberEnds := by
  intro d hd
  cases h with
  | none => exact List.mem_cons_of_mem _ (hcs d hd)
  | point =>
    cases hd
    exact List.mem_cons_self

def isDecimalPart (d : Char) : Bool := isDigitOrSeparator d || ['.', 'e', 'E', '+', '-'].contains d

theorem isDecimalPart_of_isDigit {d : Char} (h : isDigit d = true) : isDecimalPart d = true := by
  simp [isDecimalPart, isDigitOrSeparator, h]

theorem IsFraction.isDecimalPart (h : IsFraction text) : ∀ d ∈ text, isDecimalPart d = true := by
  cases h with
  | none => exact fun d hd => absurd hd List.not_mem_nil
  | point digits =>
    exact List.forall_mem_cons.mpr ⟨by decide, fun d hd => isDecimalPart_of_isDigit (digits.2 d hd)⟩

theorem IsExponent.isDecimalPart (h : IsExponent text) : ∀ d ∈ text, isDecimalPart d = true := by
  cases h with
  | none => exact fun d hd => absurd hd List.not_mem_nil
  | mark hm hs digits =>
    refine List.forall_mem_cons.mpr ⟨?_, List.forall_mem_append.mpr
      ⟨?_, fun d hd => isDecimalPart_of_isDigit (digits.2 d hd)⟩⟩
    · rcases hm with rfl | rfl <;> decide
    · rcases hs with rfl | rfl | rfl <;> exact List.all_eq_true.mp (by decide)

/-- No part of a decimal number is the mark of a base. -/
theorem hasBaseMark_decimal (h : ∀ d ∈ text, isDecimalPart d = true)
    (htail : ∀ d ∈ tail.head?, d ∈ numberEnds) : hasBaseMark (text ++ tail) = false := by
  have hmarks : ("xXbBoO".toList.all fun m => !isDecimalPart m && !numberEnds.contains m) = true := by decide
  unfold hasBaseMark
  split
  · next m rest heq =>
    rw [← Bool.not_eq_true, List.contains_iff_mem]
    intro hm
    obtain ⟨hpart, hend⟩ : isDecimalPart m = false ∧ m ∉ numberEnds := by
      simpa using List.all_eq_true.mp hmarks m hm
    -- the second character is in the text, or ends the number
    rcases text with _ | ⟨d, _ | ⟨d', ds⟩⟩
    · rw [List.nil_append] at heq
      exact absurd (htail '0' (by simp [heq])) (by decide)
    · obtain ⟨-, rfl⟩ := List.cons.inj heq
      exact hend (htail m rfl)
    · obtain ⟨-, heq⟩ := List.cons.inj heq
      obtain ⟨rfl, -⟩ := List.cons.inj heq
      simp [h d' (by simp)] at hpart
  · rfl

/-- A number is cut out as a whole before what ends it. -/
theorem IsNumeral.length_eq (h : IsNumeral text) (htail : ∀ d ∈ tail.head?, d ∈ numberEnds) :
    numberLength (text ++ tail) = text.length := by
  have stops {p : Char → Bool} {cs ends : List Char} (hcs : ∀ d ∈ cs.head?, d ∈ ends)
      (hends : (ends.all fun d => !p d) = true) : Stops p cs :=
    fun d hd => by simpa using List.all_eq_true.mp hends d (hcs d hd)
  cases h with
  | @based m ds mark digits =>
    have hmark : hasBaseMark ('0' :: m :: (ds ++ tail)) = true := List.contains_iff_mem.mpr mark
    show numberLength ('0' :: m :: (ds ++ tail)) = _
    rw [numberLength, if_pos hmark, List.drop_succ_cons, List.drop_succ_cons, List.drop_zero,
      runLength_append digits (stops htail (by decide)), List.length_cons, List.length_cons]
    omega
  | @decimal w f e whole fraction exponent =>
    have hpart : ∀ d ∈ w ++ (f ++ e), isDecimalPart d = true :=
      List.forall_mem_append.mpr ⟨fun d hd => by simp [Token.isDecimalPart, whole d hd],
        List.forall_mem_append.mpr ⟨fraction.isDecimalPart, exponent.isDecimalPart⟩⟩
    have hexponent := exponent.head htail
    have hfraction := fraction.head hexponent
    have hpoint : (e ++ tail).head? ≠ some '.' := fun h => absurd (hexponent '.' h) (by decide)
    have hmark : ∀ m ∈ tail.head?, m ≠ 'e' ∧ m ≠ 'E' := by
      intro m hm
      have hend := htail m hm
      exact ⟨fun he => absurd (he ▸ hend) (by decide), fun he => absurd (he ▸ hend) (by decide)⟩
    rw [numberLength, hasBaseMark_decimal hpart htail, if_neg Bool.false_ne_true]
    have htext : w ++ (f ++ e) ++ tail = w ++ (f ++ (e ++ tail)) := by simp only [List.append_assoc]
    dsimp only
    rw [htext, runLength_append whole (stops hfraction (by decide)), List.drop_left,
      fraction.length_eq hpoint (stops hexponent (by decide)), ← List.drop_drop, List.drop_left,
      List.drop_left, exponent.length_eq hmark (stops htail (by decide))]
    simp only [List.length_append]
    omega

theorem numberLength_digit (hc : isDigit c = true) (cs : List Char) : 1 ≤ numberLength (c :: cs) := by
  unfold numberLength
  split
  · omega
  · have hrun : 1 ≤ runLength isDigitOrSeparator (c :: cs) := by
      rw [runLength, List.takeWhile_cons_of_pos (by simp [isDigitOrSeparator, hc]), List.length_cons]
      omega
    dsimp only
    omega

theorem numberLength_point {d : Char} (hd : isDigit d = true) (cs : List Char) :
    2 ≤ numberLength ('.' :: d :: cs) := by
  have hrun : 1 ≤ runLength isDigit (d :: cs) := by
    rw [runLength, List.takeWhile_cons_of_pos hd, List.length_cons]
    omega
  have hfraction : fractionLength ('.' :: d :: cs) = 1 + runLength isDigit (d :: cs) :=
    if_neg (by omega)
  have hwhole : runLength isDigitOrSeparator ('.' :: d :: cs) = 0 := rfl
  have hmark : hasBaseMark ('.' :: d :: cs) = false := rfl
  rw [numberLength, hmark, if_neg Bool.false_ne_true]
  dsimp only
  rw [hwhole, List.drop_zero, hfraction]
  omega

theorem numberLength_le (cs : List Char) : numberLength cs ≤ cs.length := by
  have hlength := (isNumeral_take cs).length_eq atSpace_nil.endsNumber
  rw [List.append_nil] at hlength
  rcases Nat.le_total (numberLength cs) cs.length with hle | hle
  · exact hle
  · rw [List.take_of_length_le hle] at hlength
    exact Nat.le_of_eq hlength

/-! ## Lexemes -/

def startsNumber (c : Char) (cs : List Char) : Bool :=
  isDigit c || (c == '.' && (cs.head?.map isDigit).getD false)

/-- The text of a number starts one, whatever comes after it. -/
theorem exists_number (h : startsNumber c cs = true) :
    ∃ ds rest, cs = ds ++ rest ∧ numberLength (c :: cs) = ds.length + 1 ∧
      ∀ tail, startsNumber c (ds ++ tail) = true := by
  have hle := numberLength_le (c :: cs)
  rw [List.length_cons] at hle
  by_cases hc : isDigit c = true
  · have hpos := numberLength_digit hc cs
    refine ⟨cs.take (numberLength (c :: cs) - 1), cs.drop (numberLength (c :: cs) - 1),
      (List.take_append_drop _ cs).symm, ?_, fun tail => by simp [startsNumber, hc]⟩
    rw [List.length_take]
    omega
  · obtain ⟨rfl, hd⟩ : c = '.' ∧ (cs.head?.map isDigit).getD false = true := by
      simpa [startsNumber, hc] using h
    cases cs with
    | nil => cases hd
    | cons d cs =>
      have htwo := numberLength_point hd cs
      rw [List.length_cons] at hle
      refine ⟨d :: cs.take (numberLength ('.' :: d :: cs) - 2), cs.drop (numberLength ('.' :: d :: cs) - 2),
        congrArg (d :: ·) (List.take_append_drop _ cs).symm, ?_, fun tail => ?_⟩
      · rw [List.length_cons, List.length_take]
        omega
      · simpa [startsNumber] using .inr hd

theorem lexeme_identifier (hc : isIdentStart c = true) (cs : List Char) :
    lexeme c cs = ⟨.identifier, c :: cs.takeWhile isIdentChar, (cs.takeWhile isIdentChar).length⟩ := if_pos hc

theorem lexeme_number (hc : isIdentStart c ≠ true) (h : startsNumber c cs = true) :
    lexeme c cs = ⟨.number, (c :: cs).take (numberLength (c :: cs)),
      numberLength (c :: cs) - 1 + runLength isSuffix ((c :: cs).drop (numberLength (c :: cs)))⟩ :=
  (if_neg hc).trans (if_pos h)

theorem lexeme_string (hc : isIdentStart c ≠ true) (hn : startsNumber c cs ≠ true)
    (hquote : (c == '\"' || c == Text.apostrophe) = true) : (lexeme c cs).kind = .string :=
  congrArg Lexeme.kind ((if_neg hc).trans ((if_neg hn).trans (if_pos hquote)))

/-- The lexeme of a character that starts no name, number or string. -/
def symbol (c : Char) (cs : List Char) : Lexeme :=
  match delimiters.lookup c with
  | some kind => ⟨kind, [c], 0⟩
  | none =>
    match operators.find? (·.toList.isPrefixOf (c :: cs)) with
    | some op => ⟨.operator, op.toList, op.length - 1⟩
    | none => ⟨if c = '=' then .assign else .other, [c], 0⟩

theorem lexeme_symbol (hc : isIdentStart c ≠ true) (hn : startsNumber c cs ≠ true)
    (hquote : (c == '\"' || c == Text.apostrophe) ≠ true) : lexeme c cs = symbol c cs :=
  (if_neg hc).trans ((if_neg hn).trans (if_neg hquote))

/-- Only a name is read as a name. -/
theorem isIdentStart_of_lexeme (h : (lexeme c cs).kind = .identifier) : isIdentStart c = true := by
  refine Classical.byContradiction fun hc => ?_
  by_cases hn : startsNumber c cs = true
  · rw [lexeme_number hc hn] at h
    cases h
  by_cases hquote : (c == '\"' || c == Text.apostrophe) = true
  · rw [lexeme_string hc hn hquote] at h
    cases h
  rw [lexeme_symbol hc hn hquote, symbol] at h
  split at h
  · rename_i kind hkind
    have hall : ∀ x ∈ delimiters, x.2 ≠ .identifier := by decide
    obtain ⟨l₁, l₂, heq, -⟩ := List.lookup_eq_some_iff.mp hkind
    exact hall (c, kind) (by rw [heq]; simp) h
  split at h
  · cases h
  · dsimp only at h
    split at h <;> cases h

/-- An operator stands in front of the text where it is found. -/
theorem exists_operator {op : String} (h : operators.find? (·.toList.isPrefixOf (c :: cs)) = some op) :
    ∃ ds rest, cs = ds ++ rest ∧ op.toList = c :: ds ∧ op.length = ds.length + 1 := by
  have hne : ∀ op ∈ operators, op.toList ≠ [] := by decide
  have hfound := List.find?_some h
  obtain ⟨d, ds, hds⟩ := List.exists_cons_of_ne_nil (hne op (List.mem_of_find?_eq_some h))
  obtain ⟨rest, hrest⟩ := List.isPrefixOf_iff_prefix.mp hfound
  rw [hds, List.cons_append] at hrest
  obtain ⟨rfl, rfl⟩ := List.cons.inj hrest
  exact ⟨ds, rest, rfl, hds, by rw [← String.length_toList, hds, List.length_cons]⟩

/-- What has no space and stands before a text that is followed by one stands before the text itself. -/
theorem prefix_of_atSpace (h : cs <+: ds ++ tail) (hcs : ' ' ∉ cs) (htail : AtSpace tail) : cs <+: ds := by
  rcases Nat.le_total cs.length ds.length with hle | hle
  · exact List.prefix_of_prefix_length_le h (List.prefix_append ds tail) hle
  · obtain ⟨r, rfl⟩ := List.prefix_of_prefix_length_le (List.prefix_append ds tail) h hle
    cases r with
    | nil => exact ⟨[], by rw [List.append_nil, List.append_nil]⟩
    | cons d r =>
      obtain ⟨rest, hrest⟩ := (List.prefix_append_right_inj ds).mp h
      rw [List.cons_append] at hrest
      rw [htail d (by rw [← hrest]; rfl)] at hcs
      exact absurd (List.mem_append_right ds List.mem_cons_self) hcs

theorem space_not_mem_operators : ∀ op ∈ operators, ' ' ∉ op.toList := by decide

theorem find?_operator_again {op : String} (h : operators.find? (·.toList.isPrefixOf (c :: cs)) = some op)
    (htail : AtSpace tail) : operators.find? (·.toList.isPrefixOf (op.toList ++ tail)) = some op := by
  obtain ⟨hop, before, after, hsplit, hbefore⟩ := List.find?_eq_some_iff_append.mp h
  refine List.find?_eq_some_iff_append.mpr
    ⟨List.isPrefixOf_iff_prefix.mpr (List.prefix_append _ _), before, after, hsplit, fun a ha => ?_⟩
  have hmem : a ∈ operators := by
    rw [hsplit]
    exact List.mem_append_left _ ha
  rw [Bool.not_eq_true', ← Bool.not_eq_true]
  intro hstands
  have hshort := prefix_of_atSpace (List.isPrefixOf_iff_prefix.mp hstands) (space_not_mem_operators a hmem) htail
  have hfirst := List.isPrefixOf_iff_prefix.mpr (hshort.trans (List.isPrefixOf_iff_prefix.mp hop))
  have hnot := hbefore a ha
  rw [hfirst] at hnot
  cases hnot

theorem find?_operator_none (h : operators.find? (·.toList.isPrefixOf (c :: cs)) = none)
    (htail : AtSpace tail) : operators.find? (·.toList.isPrefixOf (c :: tail)) = none := by
  rw [List.find?_eq_none] at h ⊢
  intro op hop hstands
  have hshort : op.toList <+: [c] :=
    prefix_of_atSpace (List.isPrefixOf_iff_prefix.mp hstands) (space_not_mem_operators op hop) htail
  exact h op hop (List.isPrefixOf_iff_prefix.mpr (hshort.trans ⟨cs, rfl⟩))

/-- The characters that a lexeme takes are its text, and after a number its suffix. -/
theorem lexeme_taken (c : Char) (cs : List Char) (h : (lexeme c cs).kind ≠ .string) :
    ∃ suffix, c :: cs.take (lexeme c cs).more = (lexeme c cs).text ++ suffix ∧
      (∀ d ∈ suffix, isSuffix d = true) ∧ ((lexeme c cs).kind ≠ .number → suffix = []) := by
  have exact_text {l : Lexeme} (hl : c :: cs.take l.more = l.text) :
      ∃ suffix, c :: cs.take l.more = l.text ++ suffix ∧ (∀ d ∈ suffix, isSuffix d = true) ∧
        (l.kind ≠ .number → suffix = []) :=
    ⟨[], by rw [hl, List.append_nil], fun d hd => absurd hd List.not_mem_nil, fun _ => rfl⟩
  by_cases hc : isIdentStart c = true
  · rw [lexeme_identifier hc]
    exact exact_text (congrArg (c :: ·) (take_runLength isIdentChar cs))
  by_cases hn : startsNumber c cs = true
  · obtain ⟨ds, rest, rfl, hlength, -⟩ := exists_number hn
    rw [lexeme_number hc hn, hlength]
    refine ⟨rest.takeWhile isSuffix, ?_, List.all_eq_true.mp List.all_takeWhile, fun h => absurd rfl h⟩
    dsimp only
    rw [Nat.add_sub_cancel, List.drop_succ_cons, List.drop_left, List.take_succ_cons, List.take_left,
      List.take_length_add_append, take_runLength, List.cons_append]
  by_cases hquote : (c == '\"' || c == Text.apostrophe) = true
  · exact absurd (lexeme_string hc hn hquote) h
  · rw [lexeme_symbol hc hn hquote]
    unfold symbol
    split
    · exact exact_text rfl
    split
    · next op hop =>
      obtain ⟨ds, rest, rfl, hds, hlength⟩ := exists_operator hop
      refine exact_text ?_
      dsimp only
      rw [hlength, Nat.add_sub_cancel, List.take_left, hds]
    · exact exact_text rfl

/-- Before a space and at the end, the text of a lexeme is the same lexeme again. -/
theorem lexeme_again (c : Char) (cs : List Char) (h : (lexeme c cs).kind ≠ .string) :
    ∃ ds, (lexeme c cs).text = c :: ds ∧ (c = '/' → ds = []) ∧
      ∀ tail, AtSpace tail → lexeme c (ds ++ tail) = ⟨(lexeme c cs).kind, c :: ds, ds.length⟩ := by
  by_cases hc : isIdentStart c = true
  · rw [lexeme_identifier hc]
    refine ⟨cs.takeWhile isIdentChar, rfl, ?_, fun tail htail => ?_⟩
    · rintro rfl
      exact absurd hc (by decide)
    · rw [lexeme_identifier hc, takeWhile_append_stops (List.all_eq_true.mp List.all_takeWhile)
        (htail.stops (by decide))]
  by_cases hn : startsNumber c cs = true
  · obtain ⟨ds, rest, rfl, hlength, hstarts⟩ := exists_number hn
    have hnumeral := isNumeral_take (c :: (ds ++ rest))
    have htext : (c :: (ds ++ rest)).take (ds.length + 1) = c :: ds := by
      rw [List.take_succ_cons, List.take_left]
    rw [hlength, htext] at hnumeral
    rw [lexeme_number hc hn, hlength]
    refine ⟨ds, htext, ?_, fun tail htail => ?_⟩
    · rintro rfl
      exact absurd hn (by simp [startsNumber]; decide)
    · have hagain : numberLength (c :: (ds ++ tail)) = ds.length + 1 := hnumeral.length_eq htail.endsNumber
      rw [lexeme_number hc (hstarts tail), hagain, List.drop_succ_cons, List.drop_left, List.take_succ_cons,
        List.take_left, Nat.add_sub_cancel]
      have hsuffix : runLength isSuffix tail = 0 := by
        rw [runLength, (htail.stops (by decide)).takeWhile_eq]
        rfl
      rw [hsuffix]
      rfl
  by_cases hquote : (c == '\"' || c == Text.apostrophe) = true
  · exact absurd (lexeme_string hc hn hquote) h
  rw [lexeme_symbol hc hn hquote]
  have hdigit : isDigit c = false := Bool.eq_false_iff.mpr fun hd => hn (by simp [startsNumber, hd])
  -- A point starts a number only before a digit, and here a space comes next.
  have hsingle {tail : List Char} (htail : AtSpace tail) : startsNumber c tail ≠ true := by
    cases tail with
    | nil => simp [startsNumber, hdigit]
    | cons d tail =>
      obtain rfl := htail d rfl
      have hspace : isDigit ' ' = false := by decide
      simp [startsNumber, hdigit, hspace]
  unfold symbol
  split
  · next kind hkind =>
    refine ⟨[], rfl, fun _ => rfl, fun tail htail => ?_⟩
    rw [List.nil_append, lexeme_symbol hc (hsingle htail) hquote, symbol, hkind]
    rfl
  next hdelimiter =>
  split
  · next op hop =>
    have hmem := List.mem_of_find?_eq_some hop
    obtain ⟨ds, rest, rfl, hds, hlength⟩ := exists_operator hop
    refine ⟨ds, hds, ?_, fun tail htail => ?_⟩
    · rintro rfl
      have hslash : ∀ op ∈ operators, op.toList.head? = some '/' → op.toList = ['/'] := by decide
      exact (List.cons.inj (hds.symm.trans (hslash op hmem (by rw [hds]; rfl)))).2
    · have hpoint : ∀ op ∈ operators, op.toList.head? ≠ some '.' := by decide
      have hstarts : startsNumber c (ds ++ tail) ≠ true := by
        have hc : c ≠ '.' := by
          rintro rfl
          exact hpoint op hmem (by rw [hds]; rfl)
        simp [startsNumber, hdigit, hc]
      have hagain := find?_operator_again hop htail
      rw [hds, List.cons_append] at hagain
      rw [lexeme_symbol hc hstarts hquote, symbol, hdelimiter]
      dsimp only
      rw [hagain]
      dsimp only
      rw [hds, hlength, Nat.add_sub_cancel]
  · next hop =>
    refine ⟨[], rfl, fun _ => rfl, fun tail htail => ?_⟩
    rw [List.nil_append, lexeme_symbol hc (hsingle htail) hquote, symbol, hdelimiter]
    dsimp only
    rw [find?_operator_none hop htail]
    rfl

end RecordView.Token
