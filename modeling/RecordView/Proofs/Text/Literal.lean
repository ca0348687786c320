import RecordView.Text.Quoted

/-! Literals of texts. A literal is read by the rules of JSON strings: it gives the code units of a
text in UTF-16, and these give the text. The literal that is written for a text reads back as it. -/
namespace RecordView.Text

/-! ## Reading a literal -/

/-- The code units of a character: itself, or the two halves of a surrogate pair. -/
def codeUnits (c : Char) : List Nat :=
  let n := c.toNat
  if n < 0x10000 then [n] else [0xD800 + (n - 0x10000) / 0x400, 0xDC00 + (n - 0x10000) % 0x400]

def shortEscape? : Char → Option Nat
  | '\"' => some 34
  | '\\' => some 92
  | '/' => some 47
  | 'b' => some 8
  | 'f' => some 12
  | 'n' => some 10
  | 'r' => some 13
  | 't' => some 9
  | _ => none

/-- The code units of a literal after its opening quote. The closing quote ends it; a quote, a control
character or a backslash that begins no escape has no place in it. -/
def literalUnits? : List Char → Option (List Nat)
  | ['\"'] => some []
  | '\\' :: 'u' :: a :: b :: c :: d :: cs => do
    let n ← numeral? 16 [a, b, c, d]
    let us ← literalUnits? cs
    return n :: us
  | '\\' :: e :: cs => do
    let n ← shortEscape? e
    let us ← literalUnits? cs
    return n :: us
  | c :: cs =>
    if c = '\"' ∨ c = '\\' ∨ c.toNat < 32 then none else (literalUnits? cs).map (codeUnits c ++ ·)
  | [] => none

def isHighSurrogate (n : Nat) : Bool := decide (0xD800 ≤ n ∧ n < 0xDC00)

def isLowSurrogate (n : Nat) : Bool := decide (0xDC00 ≤ n ∧ n < 0xE000)

/-- The characters of code units; a half of a pair alone is none. -/
def ofCodeUnits? : List Nat → Option (List Char)
  | [] => some []
  | n :: us =>
    if isHighSurrogate n then
      match us with
      | [] => none
      | m :: us =>
        if isLowSurrogate m then
          (ofCodeUnits? us).map (Char.ofNat (0x10000 + (n - 0xD800) * 0x400 + (m - 0xDC00)) :: ·)
        else none
    else if isLowSurrogate n then none
    else (ofCodeUnits? us).map (Char.ofNat n :: ·)

def readLiteral? (literal : String) : Option String :=
  match literal.toList with
  | '\"' :: cs => do
    let us ← literalUnits? cs
    let text ← ofCodeUnits? us
    return String.ofList text
  | _ => none

/-! ## Characters and their code units -/

theorem toNat_range (c : Char) : c.toNat < 0xD800 ∨ 0xE000 ≤ c.toNat ∧ c.toNat < 0x110000 := by
  have h : c.toNat < 0xD800 ∨ 0xDFFF < c.toNat ∧ c.toNat < 0x110000 := c.valid
  omega

variable {n : Nat}

theorem ofCodeUnits?_single (hhigh : isHighSurrogate n = false) (hlow : isLowSurrogate n = false)
    (us : List Nat) : ofCodeUnits? (n :: us) = (ofCodeUnits? us).map (Char.ofNat n :: ·) := by
  cases us <;> simp [ofCodeUnits?, hhigh, hlow]

theorem ofCodeUnits?_pair {m : Nat} (hhigh : isHighSurrogate n = true) (hlow : isLowSurrogate m = true)
    (us : List Nat) :
    ofCodeUnits? (n :: m :: us) =
      (ofCodeUnits? us).map (Char.ofNat (0x10000 + (n - 0xD800) * 0x400 + (m - 0xDC00)) :: ·) := by
  simp [ofCodeUnits?, hhigh, hlow]

/-- The code units of a character are read as it. -/
theorem ofCodeUnits?_append (c : Char) (us : List Nat) :
    ofCodeUnits? (codeUnits c ++ us) = (ofCodeUnits? us).map (c :: ·) := by
  have hrange := toNat_range c
  unfold codeUnits
  dsimp only
  by_cases hbasic : c.toNat < 0x10000
  · have hhigh : isHighSurrogate c.toNat = false := decide_eq_false (by omega)
    have hlow : isLowSurrogate c.toNat = false := decide_eq_false (by omega)
    rw [if_pos hbasic, List.singleton_append, ofCodeUnits?_single hhigh hlow, Char.ofNat_toNat]
  · have hhigh : isHighSurrogate (0xD800 + (c.toNat - 0x10000) / 0x400) = true :=
      decide_eq_true (by omega)
    have hlow : isLowSurrogate (0xDC00 + (c.toNat - 0x10000) % 0x400) = true :=
      decide_eq_true (by omega)
    have hjoin : 0x10000 + (0xD800 + (c.toNat - 0x10000) / 0x400 - 0xD800) * 0x400 +
        (0xDC00 + (c.toNat - 0x10000) % 0x400 - 0xDC00) = c.toNat := by omega
    rw [if_neg hbasic, List.cons_append, List.singleton_append, ofCodeUnits?_pair hhigh hlow, hjoin,
      Char.ofNat_toNat]

theorem ofCodeUnits?_flatMap (cs : List Char) : ofCodeUnits? (cs.flatMap codeUnits) = some cs := by
  induction cs with
  | nil => rfl
  | cons c cs ih => rw [List.flatMap_cons, ofCodeUnits?_append, ih, Option.map_some]

/-! ## The literal of a text -/

theorem digitValue_digitChar {d : Nat} (h : d < 16) : digitValue (Nat.digitChar d) = d := by
  have hall : ∀ d < 16, digitValue (Nat.digitChar d) = d := by decide
  exact hall d h

theorem numeral?_hexUnit (h : n < 0x10000) : numeral? 16 (hexUnit n) = some n := by
  have h₁ : digitValue (Nat.digitChar (n / 4096 % 16)) = n / 4096 % 16 := digitValue_digitChar (by omega)
  have h₂ : digitValue (Nat.digitChar (n / 256 % 16)) = n / 256 % 16 := digitValue_digitChar (by omega)
  have h₃ : digitValue (Nat.digitChar (n / 16 % 16)) = n / 16 % 16 := digitValue_digitChar (by omega)
  have h₄ : digitValue (Nat.digitChar (n % 16)) = n % 16 := digitValue_digitChar (by omega)
  simp only [numeral?, numeralFrom, hexUnit, List.map_cons, List.map_nil, List.any_cons, List.any_nil,
    List.foldl_cons, List.foldl_nil, h₁, h₂, h₃, h₄]
  rw [if_neg (by simp; omega)]
  congr 1
  omega

theorem literalUnits?_hexUnit (h : n < 0x10000) (cs : List Char) :
    literalUnits? ('\\' :: 'u' :: hexUnit n ++ cs) = (literalUnits? cs).map (n :: ·) := by
  have hnumeral := numeral?_hexUnit h
  rw [hexUnit] at hnumeral ⊢
  simp only [List.map_cons, List.map_nil, List.cons_append, List.nil_append] at hnumeral ⊢
  rw [literalUnits?, hnumeral]
  cases literalUnits? cs <;> rfl

theorem literalUnits?_short {e : Char} (h : shortEscape? e = some n) (cs : List Char) :
    literalUnits? ('\\' :: e :: cs) = (literalUnits? cs).map (n :: ·) := by
  have hu : e ≠ 'u' := by
    rintro rfl
    cases h
  rw [literalUnits?, h]
  · cases literalUnits? cs <;> rfl
  · intro a b c d ds he
    exact absurd he hu

theorem literalUnits?_plain {c : Char} (hquote : c ≠ '\"') (hmark : c ≠ '\\') (hlow : 32 ≤ c.toNat)
    (cs : List Char) : literalUnits? (c :: cs) = (literalUnits? cs).map (codeUnits c ++ ·) := by
  rw [literalUnits?]
  · rw [if_neg (by simp only [hquote, hmark, false_or]; omega)]
  all_goals simp [hquote, hmark]

def isPlainAscii (c : Char) : Bool := decide (32 ≤ c.toNat ∧ c.toNat < 127)

theorem of_shortEscape? {e : Char} (h : shortEscape? e = some n) : isPlainAscii e = true ∧ n < 0x10000 := by
  unfold shortEscape? at h
  split at h <;> cases h <;> decide

inductive Escapes (c : Char) : List Char → Prop where
  | short {e : Char} (he : shortEscape? e = some c.toNat) : Escapes c ['\\', e]
  | plain (hquote : c ≠ '\"') (hmark : c ≠ '\\') (h : isPlainAscii c = true) : Escapes c [c]
  | unit (h : c.toNat < 0x10000) : Escapes c ('\\' :: 'u' :: hexUnit c.toNat)
  | pair (h : 0x10000 ≤ c.toNat) :
      Escapes c ('\\' :: 'u' :: hexUnit (0xD800 + (c.toNat - 0x10000) / 1024) ++
        '\\' :: 'u' :: hexUnit (0xDC00 + (c.toNat - 0x10000) % 1024))

theorem escapes_escapeChar (c : Char) : Escapes c (escapeChar c) := by
  unfold escapeChar
  dsimp only
  refine iteInduction (motive := Escapes c) (fun h => .short (by rw [h]; rfl)) fun hquote => ?_
  refine iteInduction (motive := Escapes c) (fun h => .short (by rw [h]; rfl)) fun hmark => ?_
  refine iteInduction (motive := Escapes c) (fun h => .short (by rw [h]; rfl)) fun _ => ?_
  refine iteInduction (motive := Escapes c) (fun h => .short (by rw [h]; rfl)) fun _ => ?_
  refine iteInduction (motive := Escapes c) (fun h => .short (by rw [h]; rfl)) fun _ => ?_
  refine iteInduction (motive := Escapes c) (fun h => .short (by rw [h]; rfl)) fun _ => ?_
  refine iteInduction (motive := Escapes c) (fun h => .short (by rw [h]; rfl)) fun _ => ?_
  refine iteInduction (motive := Escapes c) (fun h => ?_) fun _ => ?_
  · exact .plain hquote hmark (decide_eq_true (by omega))
  · exact iteInduction (motive := Escapes c) .unit fun h => .pair (Nat.le_of_not_lt h)

/-- A character in any of its forms is read as its code units. -/
theorem Escapes.literalUnits? {c : Char} {text : List Char} (h : Escapes c text) (cs : List Char) :
    literalUnits? (text ++ cs) = (Text.literalUnits? cs).map (codeUnits c ++ ·) := by
  have hrange := toNat_range c
  have hsingle (hbasic : c.toNat < 0x10000) : codeUnits c = [c.toNat] := by simp [codeUnits, hbasic]
  cases h with
  | short he =>
    rw [hsingle (of_shortEscape? he).2]
    exact literalUnits?_short he cs
  | plain hquote hmark h =>
    exact literalUnits?_plain hquote hmark (of_decide_eq_true h).1 cs
  | unit hbasic =>
    rw [literalUnits?_hexUnit hbasic, hsingle hbasic]
    rfl
  | pair h =>
    have hhigh : 0xD800 + (c.toNat - 0x10000) / 1024 < 0x10000 := by omega
    have hlow : 0xDC00 + (c.toNat - 0x10000) % 1024 < 0x10000 := by omega
    rw [List.append_assoc, literalUnits?_hexUnit hhigh, literalUnits?_hexUnit hlow, codeUnits]
    simp only [if_neg (Nat.not_lt.mpr h), Option.map_map]
    rfl

theorem isPlainAscii_hexUnit (n : Nat) : ∀ d ∈ hexUnit n, isPlainAscii d = true := by
  have hall : ∀ d < 16, isPlainAscii (Nat.digitChar d) = true := by decide
  intro d hd
  simp only [hexUnit, List.map_cons, List.map_nil, List.mem_cons, List.not_mem_nil, or_false] at hd
  rcases hd with rfl | rfl | rfl | rfl <;> exact hall _ (by omega)

theorem Escapes.isPlainAscii {c : Char} {text : List Char} (h : Escapes c text) :
    ∀ d ∈ text, isPlainAscii d = true := by
  have hmark : Text.isPlainAscii '\\' = true := by decide
  have hu : Text.isPlainAscii 'u' = true := by decide
  cases h with
  | short he => simp [hmark, (of_shortEscape? he).1]
  | plain _ _ h => simpa using h
  | unit _ => simpa [hmark, hu] using isPlainAscii_hexUnit _
  | pair _ =>
    intro d hd
    simp only [List.cons_append, List.mem_cons, List.mem_append] at hd
    rcases hd with rfl | rfl | hd | rfl | rfl | hd
    · exact hmark
    · exact hu
    · exact isPlainAscii_hexUnit _ d hd
    · exact hmark
    · exact hu
    · exact isPlainAscii_hexUnit _ d hd

theorem literalUnits?_escape (cs : List Char) :
    literalUnits? (escape cs ++ ['\"']) = some (cs.flatMap codeUnits) := by
  induction cs with
  | nil => rfl
  | cons c cs ih =>
    have hcons : escape (c :: cs) = escapeChar c ++ escape cs := List.flatMap_cons
    rw [hcons, List.append_assoc, (escapes_escapeChar c).literalUnits?, ih, List.flatMap_cons,
      Option.map_some]

/-- The literal of a text reads back as the text. -/
theorem readLiteral?_quoteAscii (s : String) : readLiteral? (quoteAscii s) = some s := by
  unfold readLiteral? quoteAscii
  rw [String.toList_ofList]
  simp [literalUnits?_escape, ofCodeUnits?_flatMap]

/-- The literal of a text is on one line and in ASCII. -/
theorem isPlainAscii_quoteAscii (s : String) : ∀ d ∈ (quoteAscii s).toList, isPlainAscii d = true := by
  intro d hd
  rw [quoteAscii, String.toList_ofList, List.mem_append, List.mem_cons, List.mem_singleton, escape,
    List.mem_flatMap] at hd
  rcases hd with (rfl | ⟨c, -, hd⟩) | rfl
  · decide
  · exact (escapes_escapeChar c).isPlainAscii d hd
  · decide

end RecordView.Text
