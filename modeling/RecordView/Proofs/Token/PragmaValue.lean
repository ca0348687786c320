import RecordView.Proofs.Token.Line

/-! The values of pragmas. A value reaches to the parenthesis that matches the one before it, whatever
is quoted in it; without such a parenthesis the rest of the line is left as it stands. -/
namespace RecordView.Token

/-! ## Values -/

/-- `Outside quote v u`: when `v` is read from inside the quote, if there is one, every quote is closed
at its end, and `u` is what stands outside of quotes. A backslash in a quote takes the next character
along. -/
inductive Outside : Option Char → List Char → List Char → Prop where
  | nil : Outside none [] []
  | char {c v u} (hc : isQuote c = false) (h : Outside none v u) : Outside none (c :: v) (c :: u)
  | opening {q v u} (hq : isQuote q = true) (h : Outside (some q) v u) : Outside none (q :: v) u
  | escape {q c v u} (h : Outside (some q) v u) : Outside (some q) ('\\' :: c :: v) u
  | quoted {q c v u} (hc : c ≠ q ∧ c ≠ '\\') (h : Outside (some q) v u) : Outside (some q) (c :: v) u
  | closing {q v u} (hq : isQuote q = true) (h : Outside none v u) : Outside (some q) (q :: v) u

/-- So many open parentheses are closed as well, and no part from the start closes more than that. -/
def Balances (depth : Nat) (u : List Char) : Prop :=
  depth + u.count '(' = u.count ')' ∧ ∀ pre, pre <+: u → pre.count ')' ≤ depth + pre.count '('

structure IsValue (v : List Char) : Prop where
  inLine : '\n' ∉ v
  balanced : ∃ u, Outside none v u ∧ Balances 0 u

/-- A parenthesis outside of quotes matches the one in front of the text. -/
def Matched (w : List Char) : Prop := ∃ v post, w = v ++ ')' :: post ∧ IsValue v

variable {depth : Nat} {c q : Char} {quote : Option Char} {u v w tail : List Char}

theorem isQuote_ne (h : isQuote c = true) : c ≠ '\\' ∧ c ≠ '(' ∧ c ≠ ')' := by
  refine ⟨?_, ?_, ?_⟩ <;> rintro rfl <;> exact absurd h (by decide)

theorem balances_nil : Balances depth [] ↔ depth = 0 := by
  simp [Balances]

theorem balances_cons : Balances depth (c :: u) ↔ (c = ')' → 0 < depth) ∧
    Balances (if c = '(' then depth + 1 else if c = ')' then depth - 1 else depth) u := by
  have hprefix : (∀ pre, pre <+: c :: u → pre.count ')' ≤ depth + pre.count '(') ↔
      ∀ pre, pre <+: u → (c :: pre).count ')' ≤ depth + (c :: pre).count '(' := by
    constructor
    · intro h pre hpre
      exact h (c :: pre) (List.cons_prefix_cons.mpr ⟨rfl, hpre⟩)
    · intro h pre hpre
      rcases List.prefix_cons_iff.mp hpre with rfl | ⟨tail, rfl, htail⟩
      · simp
      · exact h tail htail
  rw [Balances, Balances, hprefix]
  by_cases hopen : c = '('
  · subst hopen
    simp [Nat.add_right_comm, Nat.add_assoc]
  by_cases hclose : c = ')'
  · subst hclose
    have hcons (pre : List Char) : (')' :: pre).count ')' = pre.count ')' + 1 ∧
        (')' :: pre).count '(' = pre.count '(' := by simp
    simp only [hcons, hopen, if_true, if_false, forall_const]
    constructor
    · rintro ⟨htotal, hpre⟩
      have hdepth : 1 ≤ depth := by simpa using hpre [] List.nil_prefix
      refine ⟨hdepth, by omega, fun pre h => ?_⟩
      have hle := hpre pre h
      omega
    · rintro ⟨hdepth, htotal, hpre⟩
      refine ⟨by omega, fun pre h => ?_⟩
      have hle := hpre pre h
      omega
  · simp [hopen, hclose]

/-! ## The length of a value -/

theorem valueLength_outside {cs : List Char} (hnewline : c ≠ '\n') (hmore : ¬ (c = ')' ∧ depth = 0)) :
    valueLength depth none (c :: cs) =
      let value := valueLength (if c = '(' then depth + 1 else if c = ')' then depth - 1 else depth)
        (if isQuote c then some c else none) cs
      (value.1, value.2 + 1) := by
  rw [valueLength, if_neg hnewline, if_neg hmore]

theorem valueLength_quoted {cs : List Char} (hnewline : c ≠ '\n') (hslash : c ≠ '\\') :
    valueLength depth (some q) (c :: cs) =
      let value := valueLength depth (if c = q then none else some q) cs
      (value.1, value.2 + 1) := by
  rw [valueLength.eq_def]
  simp only [if_neg hnewline, if_neg hslash]

/-- A value is read up to the parenthesis behind it. -/
theorem valueLength_value (h : Outside quote v u) (hbalances : Balances depth u) (hline : '\n' ∉ v)
    (rest : List Char) : valueLength depth quote (v ++ ')' :: rest) = (true, v.length) := by
  induction h generalizing depth with
  | nil =>
    obtain rfl := balances_nil.mp hbalances
    rfl
  | @char c v u hc _ ih =>
    rw [List.mem_cons, not_or] at hline
    obtain ⟨hpositive, hrest⟩ := balances_cons.mp hbalances
    have hmore : ¬ (c = ')' ∧ depth = 0) := by
      rintro ⟨hclose, hzero⟩
      have hdepth := hpositive hclose
      omega
    rw [List.cons_append, valueLength_outside (Ne.symm hline.1) hmore]
    simp [hc, ih hrest hline.2]
  | @opening q v u hq _ ih =>
    rw [List.mem_cons, not_or] at hline
    obtain ⟨-, hopen, hclose⟩ := isQuote_ne hq
    rw [List.cons_append, valueLength_outside (Ne.symm hline.1) (by simp [hclose])]
    simp [hopen, hclose, hq, ih hbalances hline.2]
  | @escape q c v u _ ih =>
    simp only [List.mem_cons, not_or] at hline
    rw [List.cons_append, List.cons_append, valueLength, if_neg (by decide)]
    simp [ih hbalances hline.2.2]
  | @quoted q c v u hc _ ih =>
    rw [List.mem_cons, not_or] at hline
    rw [List.cons_append, valueLength_quoted (Ne.symm hline.1) hc.2]
    simp [hc.1, ih hbalances hline.2]
  | @closing q v u hq _ ih =>
    rw [List.mem_cons, not_or] at hline
    rw [List.cons_append, valueLength_quoted (Ne.symm hline.1) (isQuote_ne hq).1]
    simp [ih hbalances hline.2]

/-- The rest of a line is read to its end, or a parenthesis in it matches. Without backslashes no
quote takes the end of the line along. -/
theorem valueLength_unmatched (depth : Nat) (quote : Option Char) (hline : '\n' ∉ w) (hplain : '\\' ∉ w)
    (htail : ∀ d ∈ tail.head?, d = '\n') (hquote : ∀ q ∈ quote, isQuote q = true) :
    valueLength depth quote (w ++ tail) = (false, w.length) ∨
      ∃ v post u, w = v ++ ')' :: post ∧ Outside quote v u ∧ Balances depth u := by
  induction w generalizing depth quote with
  | nil =>
    left
    cases tail with
    | nil => rfl
    | cons d tail =>
      obtain rfl := htail d rfl
      rw [List.nil_append, valueLength.eq_def]
      rfl
  | cons c w ih =>
    rw [List.mem_cons, not_or] at hline hplain
    have hnewline := Ne.symm hline.1
    have hslash := Ne.symm hplain.1
    -- a match further on is a match here, once the first character is read
    have step (depth' : Nat) (quote' : Option Char) (hquote' : ∀ q ∈ quote', isQuote q = true)
        (hread : valueLength depth quote (c :: (w ++ tail)) =
          ((valueLength depth' quote' (w ++ tail)).1, (valueLength depth' quote' (w ++ tail)).2 + 1))
        (hmatch : ∀ v u, Outside quote' v u → Balances depth' u →
          ∃ u', Outside quote (c :: v) u' ∧ Balances depth u') :
        valueLength depth quote (c :: w ++ tail) = (false, (c :: w).length) ∨
          ∃ v post u, c :: w = v ++ ')' :: post ∧ Outside quote v u ∧ Balances depth u := by
      rcases ih depth' quote' hline.2 hplain.2 hquote' with heq | ⟨v, post, u, rfl, houtside, hbalances⟩
      · left
        rw [List.cons_append, hread, heq]
        rfl
      · obtain ⟨u', houtside', hbalances'⟩ := hmatch v u houtside hbalances
        exact .inr ⟨c :: v, post, u', rfl, houtside', hbalances'⟩
    cases quote with
    | some q =>
      by_cases hc : c = q
      · subst hc
        apply step depth none (by simp) (by simp [valueLength_quoted hnewline hslash])
        exact fun v u houtside hbalances => ⟨u, .closing (hquote c rfl) houtside, hbalances⟩
      · apply step depth (some q) hquote (by simp [valueLength_quoted hnewline hslash, hc])
        exact fun v u houtside hbalances => ⟨u, .quoted ⟨hc, hslash⟩ houtside, hbalances⟩
    | none =>
      by_cases hmatch : c = ')' ∧ depth = 0
      · obtain ⟨rfl, rfl⟩ := hmatch
        exact .inr ⟨[], w, [], rfl, .nil, balances_nil.mpr rfl⟩
      have hread : valueLength depth none (c :: (w ++ tail)) = _ := valueLength_outside hnewline hmatch
      by_cases hq : isQuote c = true
      · obtain ⟨-, hopen, hclose⟩ := isQuote_ne hq
        simp only [hopen, hclose, hq, if_true, if_false] at hread
        apply step _ _ (by simpa using hq) hread
        exact fun v u houtside hbalances => ⟨u, .opening hq houtside, hbalances⟩
      · rw [Bool.not_eq_true] at hq
        simp only [hq, Bool.false_eq_true, if_false] at hread
        apply step _ _ (by simp) hread
        refine fun v u houtside hbalances => ⟨c :: u, .char hq houtside, balances_cons.mpr ⟨?_, hbalances⟩⟩
        exact fun hclose => Nat.pos_of_ne_zero fun hzero => hmatch ⟨hclose, hzero⟩

/-- Behind a quote that nothing closes, no parenthesis matches. -/
theorem not_matched_openQuote (hq : isQuote q = true) (hopen : ∀ c ∈ w, c ≠ q ∧ c ≠ '\\') :
    ¬ Matched (q :: w) := by
  have hinside {v u : List Char} (hv : ∀ c ∈ v, c ≠ q ∧ c ≠ '\\') : ¬ Outside (some q) v u := by
    intro h
    induction v with
    | nil => cases h
    | cons c v ih =>
      rw [List.forall_mem_cons] at hv
      cases h with
      | escape => exact hv.1.2 rfl
      | quoted _ h => exact ih hv.2 h
      | closing => exact hv.1.1 rfl
  rintro ⟨v, post, hw, hvalue⟩
  obtain ⟨u, houtside, -⟩ := hvalue.balanced
  cases v with
  | nil => exact (isQuote_ne hq).2.2 (List.cons.inj hw).1
  | cons c v =>
    obtain ⟨rfl, rfl⟩ := List.cons.inj hw
    cases houtside with
    | char hc => simp [hq] at hc
    | opening _ h => exact hinside (fun c hc => hopen c (List.mem_append_left _ hc)) h

/-! ## Lines -/

/-- The line is cut into the tokens, at the end of the input and in front of other lines. -/
def CutInto (file line : String) (tokens : List Token) : Prop :=
  scan file line = .ok (tokens ++ [⟨.eof, "", file, 1, line.length + 1⟩]) ∧
    ∀ rest ts, scan file rest = .ok ts → scan file (line ++ "\n" ++ rest) = .ok (tokens ++ ts.map (down 1))

theorem cutInto_payload {file name text : String} {kind : Kind} {body : String}
    (hname : isIdentifier name = true) (hbody : '\n' ∉ body.toList)
    (hvalue : ∀ tail : List Char, (∀ d ∈ tail.head?, d = '\n') → ∀ p,
      pragmaValue file p ('(' :: (body.toList ++ tail)) =
        ([make file kind text.toList p], body.toList.length + 1)) :
    CutInto file ("#pragma " ++ name ++ "(" ++ body) (payloadTokens file 1 name kind text ++
      [⟨.newline, "\n", file, 1, 10 + name.length + body.length⟩]) := by
  have hline : ∀ c ∈ body.toList, c ≠ '\n' := fun c hc heq => hbody (heq ▸ hc)
  have hcut (tail : String) (htail : ∀ d ∈ tail.toList.head?, d = '\n') {ts : List Token}
      (hts : scanFrom file ⟨1, 10 + name.length + body.length⟩ ⟨true, false⟩ tail.toList = .ok ts) :
      scan file ("#pragma " ++ name ++ "(" ++ body ++ tail) =
        .ok (payloadTokens file 1 name kind text ++ ts) := by
    have hscan := scanFrom_payload hname hline (hvalue tail.toList htail) 1
    rw [String.length_toList, hts] at hscan
    have htext : ("#pragma " ++ name ++ "(" ++ body ++ tail).toList =
        "#pragma ".toList ++ (name.toList ++ '(' :: (body.toList ++ tail.toList)) := by
      simp
    apply scan_of_scanFrom
    rw [htext]
    exact hscan
  constructor
  · have hend := hcut "" (by simp) (by rw [String.toList_empty, scanFrom])
    have hlength : ("#pragma " ++ name ++ "(" ++ body).length + 1 = 10 + name.length + body.length := by
      have hmark : "#pragma ".length = 8 ∧ "(".length = 1 := by decide
      simp only [String.length_append]
      omega
    rw [String.append_empty] at hend
    rw [hend, hlength]
    rfl
  · intro rest ts hts
    have hbelow := scanFrom_below hts 1
    have hend := scanFrom_lineEnd file ⟨1, 10 + name.length + body.length⟩ rest.toList
    rw [hbelow] at hend
    rw [String.append_assoc, hcut ("\n" ++ rest) (by simp) (by rwa [String.toList_append])]
    rfl

/-- Values of pragmas are taken as they stand, up to the parenthesis that matches. A line with a value
in parentheses is cut into the directive, the name and the value without the blanks around it. If the
parenthesis behind the name is matched nowhere in the rest `w` of the line, the parenthesis and all
of `w` are one token. -/
theorem pragma_value_verbatim {name : String} (hname : isIdentifier name = true) (file : String) :
    (∀ v : String, IsValue v.toList → CutInto file ("#pragma " ++ name ++ "(" ++ (v ++ ")"))
      (payloadTokens file 1 name .blob (Text.trim v) ++
        [⟨.newline, "\n", file, 1, 11 + name.length + v.length⟩])) ∧
    ∀ w : String, '\n' ∉ w.toList → '\\' ∉ w.toList → ¬ Matched w.toList →
      CutInto file ("#pragma " ++ name ++ "(" ++ w)
        (payloadTokens file 1 name .other ("(" ++ w) ++
          [⟨.newline, "\n", file, 1, 10 + name.length + w.length⟩]) := by
  constructor
  · intro v hv
    obtain ⟨u, houtside, hbalances⟩ := hv.balanced
    have hlength : 10 + name.length + (v ++ ")").length = 11 + name.length + v.length := by
      rw [String.length_append]
      show 10 + name.length + (v.length + 1) = _
      omega
    rw [← hlength]
    apply cutInto_payload hname
    · simpa using hv.inLine
    · intro tail htail p
      simp [pragmaValue, valueLength_value houtside hbalances hv.inLine, Text.trim]
  · intro w hline hplain hmatched
    apply cutInto_payload hname hline
    intro tail htail p
    rcases valueLength_unmatched 0 none hline hplain htail (by simp) with heq | ⟨v, post, u, hw, h⟩
    · simp [pragmaValue, heq]
    · refine absurd ⟨v, post, hw, ?_, u, h⟩ hmatched
      intro hv
      rw [hw, List.mem_append, not_or] at hline
      exact hline.1 hv

/-- A value with parentheses and an escaped quote, and a line in which a quote stays open. -/
theorem pragma_value_verbatim_quotes :
    isIdentifier "inject" = true ∧ IsValue "f(\"\\\")\") ".toList ∧
      CutInto "" ("#pragma " ++ "inject" ++ "(" ++ ("f(\"\\\")\") " ++ ")"))
        (payloadTokens "" 1 "inject" .blob (Text.trim "f(\"\\\")\") ") ++ [⟨.newline, "\n", "", 1, 26⟩]) ∧
      Text.trim "f(\"\\\")\") " = "f(\"\\\")\")" ∧
      ¬ Matched "\"b)".toList ∧
      CutInto "" ("#pragma " ++ "inject" ++ "(" ++ "\"b)")
        (payloadTokens "" 1 "inject" .other ("(" ++ "\"b)") ++ [⟨.newline, "\n", "", 1, 19⟩]) := by
  have hname : isIdentifier "inject" = true := by decide
  have hvalue : IsValue "f(\"\\\")\") ".toList := by
    constructor
    · decide
    · refine ⟨['f', '(', ')', ' '], ?_, ?_⟩
      · exact .char (by decide) (.char (by decide) (.opening (by decide) (.escape (.quoted (by decide)
          (.closing (by decide) (.char (by decide) (.char (by decide) .nil)))))))
      · simp [balances_cons, balances_nil]
  have hmatched : ¬ Matched "\"b)".toList :=
    not_matched_openQuote (q := '\"') (w := ['b', ')']) (by decide) (by simp)
  obtain ⟨hclosed, hopen⟩ := pragma_value_verbatim hname ""
  exact ⟨hname, hvalue, hclosed _ hvalue, by decide +kernel, hmatched,
    hopen "\"b)" (by decide) (by decide) hmatched⟩

/-- The parenthesis at the end of such a line is not left out. -/
theorem unmatched_value_keeps_parenthesis :
    '\n' ∉ "\"b".toList ∧ '\\' ∉ "\"b".toList ∧ ¬ Matched ("\"b" ++ ")").toList ∧
      ¬ ∃ ts, scan "" ("#pragma a(" ++ "\"b" ++ ")") = .ok ts ∧
        ∃ t ∈ ts, t.kind = .other ∧ t.text = "(" ++ "\"b" := by
  have hnone : ((scan "" ("#pragma a(" ++ "\"b" ++ ")")).toOption.map
      fun ts => ts.any fun t => t.kind = .other ∧ t.text = "(" ++ "\"b") = some false := by
    decide +kernel
  have hmatched : ¬ Matched ("\"b" ++ ")").toList :=
    not_matched_openQuote (q := '\"') (w := ['b', ')']) (by decide) (by simp)
  refine ⟨by decide, by decide, hmatched, ?_⟩
  rintro ⟨ts, hts, t, ht, hkind⟩
  rw [hts] at hnone
  have hfalse := List.any_eq_false.mp (Option.some.inj hnone) t ht
  simp [hkind] at hfalse

end RecordView.Token
