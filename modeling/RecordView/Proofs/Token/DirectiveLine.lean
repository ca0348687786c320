import RecordView.Proofs.Token.Line

/-! Every directive of a text stands at the head of a line of its own: its tokens go up to the end of
the line, and what comes after that stands further down. So directive lines are properly bracketed. -/
namespace RecordView.Token

variable {file : String} {p : Position} {mode : Mode} {cs : List Char} {ts more : List Token} {line : Nat}
  {t : Token}

/-! ## Positions -/

theorem Position.line_step (p : Position) (c : Char) : p.line ≤ (p.step c).line := by
  unfold step
  split
  · exact Nat.le_succ _
  · exact Nat.le_refl _

theorem Position.line_after (p : Position) (cs : List Char) : p.line ≤ (p.after cs).line := by
  induction cs generalizing p with
  | nil => exact Nat.le_refl _
  | cons c cs ih => exact Nat.le_trans (p.line_step c) (ih (p.step c))

/-! ## Tokens inside a line -/

/-- A kind of token that neither starts a directive nor ends its line. -/
def Kind.inner (k : Kind) : Bool := k != .directive && k != .newline && k != .eof

/-- A kind of token that a directive line is bracketed with. Tokens of other kinds stand anywhere. -/
def Kind.bracket (k : Kind) : Bool := !k.inner || k == .blob

theorem Kind.inner_of_bracket {k : Kind} (h : k.bracket = false) : k.inner = true := by
  simp only [bracket, Bool.or_eq_false_iff, Bool.not_eq_false'] at h
  exact h.1

theorem bracket_delimiters {c : Char} {k : Kind} (h : delimiters.lookup c = some k) :
    k.bracket = false := by
  have hall : ∀ x ∈ delimiters, x.2.bracket = false := by decide
  obtain ⟨before, after, heq, -⟩ := List.lookup_eq_some_iff.mp h
  exact hall (c, k) (by rw [heq]; simp)

theorem bracket_lexeme (c : Char) (cs : List Char) : (lexeme c cs).kind.bracket = false := by
  unfold lexeme
  split
  · rfl
  split
  · rfl
  split
  · rfl
  split
  · rename_i hkind
    exact bracket_delimiters hkind
  split
  · rfl
  · dsimp only
    split <;> rfl

/-- The tokens after the mark of a directive are inner ones, and stand no higher than it. -/
def Inner (line : Nat) (ts : List Token) : Prop := ∀ t ∈ ts, t.kind.inner = true ∧ line ≤ t.line

/-- One text at most is taken as it stands. -/
def OneBlob (ts : List Token) : Prop :=
  ts.filter (·.kind.bracket) = [] ∨ ∃ blob, blob.kind = .blob ∧ ts.filter (·.kind.bracket) = [blob]

theorem inner_pragmaValue (file : String) (p : Position) (cs : List Char) :
    Inner p.line (pragmaValue file p cs).1 ∧ OneBlob (pragmaValue file p cs).1 := by
  unfold pragmaValue
  split
  · dsimp only
    split <;> simp [Inner, OneBlob, make, Kind.bracket, Kind.inner]
  · simp [Inner, OneBlob]

theorem inner_pragmaTokens (file : String) (p : Position) (cs : List Char) :
    Inner p.line (pragmaTokens file p cs).1 ∧ OneBlob (pragmaTokens file p cs).1 := by
  have hnone : Inner p.line [] ∧ OneBlob [] := by simp [Inner, OneBlob]
  unfold pragmaTokens
  dsimp only
  split
  · split
    · obtain ⟨hinner, hblob⟩ := inner_pragmaValue file _ _
      refine ⟨fun t ht => ?_, hblob⟩
      rcases List.mem_cons.mp ht with rfl | ht
      · exact ⟨rfl, p.line_after _⟩
      · obtain ⟨hkind, hline⟩ := hinner t ht
        exact ⟨hkind, Nat.le_trans (Nat.le_trans (p.line_after _) (Position.line_after _ _)) hline⟩
    · exact hnone
  · exact hnone

/-- A directive starts with its mark. Only an `#error` and a `#pragma` have a text. -/
theorem exists_directiveTokens (file : String) (p : Position) (cs : List Char) :
    ∃ word more, (directiveTokens file p cs).1 = make file .directive ('#' :: word) p :: more ∧
      Inner p.line more ∧ OneBlob more ∧
      (word = "error".toList ∨ word = "pragma".toList ∨ more = []) := by
  unfold directiveTokens
  dsimp only
  split
  · rename_i hword
    refine ⟨_, _, rfl, fun t ht => ?_, .inr ⟨_, rfl, rfl⟩, .inl hword⟩
    rw [List.mem_singleton.mp ht]
    exact ⟨rfl, p.line_after _⟩
  split
  · rename_i hword
    obtain ⟨hinner, hblob⟩ := inner_pragmaTokens file _ _
    refine ⟨_, _, rfl, fun t ht => ?_, hblob, .inr (.inl hword)⟩
    obtain ⟨hkind, hline⟩ := hinner t ht
    exact ⟨hkind, Nat.le_trans (p.line_after _) hline⟩
  · exact ⟨_, [], rfl, by simp [Inner], .inl rfl, .inr (.inr rfl)⟩

/-! ## Lines -/

/-- A directive line, from some place in it on: inner tokens, the end of the line, and what stands
further down. -/
structure EndsLine (body : List Token) (newline : Token) (post : List Token) : Prop where
  body : ∀ t ∈ body, t.kind.inner = true
  kind : newline.kind = .newline
  text : newline.text = "\n"
  post : ∀ t ∈ post, t.kind = .eof ∨ newline.line < t.line

/-- The tokens are the rest of a directive line that ends no higher than `line`, and what follows. -/
def InLine (line : Nat) (ts : List Token) : Prop :=
  ∃ body newline post, ts = body ++ newline :: post ∧ EndsLine body newline post ∧ line ≤ newline.line

theorem InLine.cons (ht : t.kind.inner = true) (h : InLine line ts) : InLine line (t :: ts) := by
  obtain ⟨body, newline, post, rfl, hends, hline⟩ := h
  refine ⟨t :: body, newline, post, rfl, ⟨fun v hv => ?_, hends.kind, hends.text, hends.post⟩, hline⟩
  rcases List.mem_cons.mp hv with rfl | hv
  · exact ht
  · exact hends.body v hv

theorem InLine.append (hmore : ∀ t ∈ more, t.kind.inner = true) (h : InLine line ts) :
    InLine line (more ++ ts) := by
  induction more with
  | nil => exact h
  | cons t more ih =>
    exact (ih fun v hv => hmore v (List.mem_cons_of_mem t hv)).cons (hmore t List.mem_cons_self)

theorem InLine.mono {line' : Nat} (h : InLine line ts) (hle : line' ≤ line) : InLine line' ts := by
  obtain ⟨body, newline, post, heq, hends, hline⟩ := h
  exact ⟨body, newline, post, heq, hends, Nat.le_trans hle hline⟩

def Lined (ts : List Token) : Prop :=
  ∀ mark rest, mark :: rest <:+ ts → mark.kind = .directive →
    mark.text.toList.head? = some '#' ∧ InLine mark.line rest

theorem Lined.cons (ht : t.kind ≠ .directive) (h : Lined ts) : Lined (t :: ts) := by
  intro mark rest hsuffix hmark
  rcases List.suffix_cons_iff.mp hsuffix with heq | hsuffix
  · cases heq
    exact absurd hmark ht
  · exact h mark rest hsuffix hmark

theorem Lined.append (hmore : ∀ t ∈ more, t.kind.inner = true) (h : Lined ts) : Lined (more ++ ts) := by
  induction more with
  | nil => exact h
  | cons t more ih =>
    have hne : t.kind ≠ .directive := by
      have hinner := hmore t List.mem_cons_self
      intro heq
      rw [heq] at hinner
      cases hinner
    exact (ih fun v hv => hmore v (List.mem_cons_of_mem t hv)).cons hne

/-- A directive line without the tokens that stand anywhere: its mark and its newline, and between them the
text of an `#error` or a `#pragma`. -/
inductive IsBracket : List Token → Prop where
  | plain {mark newline : Token} (kind : mark.kind = .directive) (ends : newline.kind = .newline) :
      IsBracket [mark, newline]
  | text {mark blob newline : Token} (kind : mark.kind = .directive)
      (word : mark.text = "#error" ∨ mark.text = "#pragma") (value : blob.kind = .blob)
      (ends : newline.kind = .newline) : IsBracket [mark, blob, newline]

/-- The end of the input comes last; before it there are directive lines, and tokens that stand anywhere. What
is given of an open line comes first. -/
def Bracketed (first ts : List Token) : Prop :=
  ∃ before eof lines, ts = before ++ [eof] ∧ eof.kind = .eof ∧
    before.filter (·.kind.bracket) = first ++ List.flatten lines ∧ ∀ l ∈ lines, IsBracket l

theorem Bracketed.cons {first : List Token} (ht : t.kind.bracket = false) (h : Bracketed first ts) :
    Bracketed first (t :: ts) := by
  obtain ⟨before, eof, lines, rfl, heof, hbefore, hlines⟩ := h
  exact ⟨t :: before, eof, lines, rfl, heof, by simp [ht, hbefore], hlines⟩

/-- The first tokens of a directive open a line that the next newline closes. -/
theorem Bracketed.directive {newline : Token} {word : List Char} (h : Bracketed [newline] ts)
    (hnewline : newline.kind = .newline) (hblob : OneBlob more)
    (hword : word = "error".toList ∨ word = "pragma".toList ∨ more = []) :
    Bracketed [] (make file .directive ('#' :: word) p :: (more ++ ts)) := by
  obtain ⟨before, eof, lines, rfl, heof, hbefore, hlines⟩ := h
  have hline : IsBracket (make file .directive ('#' :: word) p ::
      (more.filter (·.kind.bracket) ++ [newline])) := by
    rcases hblob with hnone | ⟨blob, hkind, hone⟩
    · rw [hnone]
      exact .plain rfl hnewline
    · rw [hone]
      refine .text rfl ?_ hkind hnewline
      rcases hword with rfl | rfl | rfl
      · exact .inl rfl
      · exact .inr rfl
      · simp at hone
  refine ⟨make file .directive ('#' :: word) p :: (more ++ before), eof, _ :: lines, by simp, heof, ?_,
    List.forall_mem_cons.mpr ⟨hline, hlines⟩⟩
  rw [List.filter_cons_of_pos rfl, List.filter_append, hbefore]
  simp

/-- What the scanner gives from a position on. In a directive line, the end of that line comes. -/
structure Scanned (p : Position) (mode : Mode) (ts : List Token) : Prop where
  below : ∀ t ∈ ts, p.line ≤ t.line
  inLine : mode.inDirective = true → InLine p.line ts
  lined : Lined ts
  opened : mode.inDirective = true → ∃ newline, newline.kind = .newline ∧ Bracketed [newline] ts
  bracketed : mode.inDirective = false → Bracketed [] ts

theorem Scanned.later {q : Position} (h : Scanned q mode ts) (hle : p.line ≤ q.line) :
    Scanned p mode ts :=
  { h with
    below := fun t ht => Nat.le_trans hle (h.below t ht), inLine := fun hin => (h.inLine hin).mono hle }

/-- A token inside a line, before what is scanned after it. -/
theorem Scanned.cons {q : Position} {mode' : Mode} (h : Scanned q mode' ts) (ht : t.kind.bracket = false)
    (hline : t.line = p.line) (hle : p.line ≤ q.line) (hmode : mode.inDirective = mode'.inDirective) :
    Scanned p mode (t :: ts) := by
  have hinner := Kind.inner_of_bracket ht
  have hlater := h.later hle
  have hlined : Lined ([t] ++ ts) := h.lined.append fun v hv => by rwa [List.mem_singleton.mp hv]
  refine ⟨List.forall_mem_cons.mpr ⟨Nat.le_of_eq hline.symm, hlater.below⟩,
    fun hin => (hlater.inLine (hmode ▸ hin)).cons hinner, hlined, fun hin => ?_,
    fun hout => (h.bracketed (hmode ▸ hout)).cons ht⟩
  obtain ⟨newline, hkind, hopened⟩ := h.opened (hmode ▸ hin)
  exact ⟨newline, hkind, hopened.cons ht⟩

theorem scanned_of_scanFrom (hmode : mode.inDirective = true → mode.atLineStart = false)
    (h : scanFrom file p mode cs = .ok ts) : Scanned p mode ts := by
  fun_induction scanFrom file p mode cs generalizing ts with
  | case1 p mode =>
    rename_i last
    cases h
    have hend : Lined [make file .eof [] p] := .cons (by simp [make]) fun mark rest hsuffix => by
      have hle := hsuffix.length_le
      simp at hle
    split
    · rename_i hin
      refine ⟨by simp [make, last], fun _ => ?_, hend.cons (by simp [make]), fun _ => ?_, by simp [hin]⟩
      · exact ⟨[], _, _, rfl, ⟨by simp, rfl, rfl, by simp [make, last]⟩, Nat.le_refl _⟩
      · exact ⟨_, rfl, [_], _, [], rfl, rfl, rfl, by simp⟩
    · rename_i hin
      exact ⟨by simp [make, last], fun hin' => absurd hin' hin, hend, fun hin' => absurd hin' hin,
        fun _ => ⟨[], _, [], rfl, rfl, rfl, by simp⟩⟩
  | case2 p mode cs ih =>
    obtain ⟨rest, hrest, hts⟩ := bind_eq_ok_iff.mp h
    have hscanned := ih (fun hin => by cases hin) hrest
    cases hts
    have hbelow : ∀ t ∈ rest, p.line < t.line := hscanned.below
    have hle : ∀ t ∈ rest, p.line ≤ t.line := fun t ht => Nat.le_of_lt (hbelow t ht)
    split
    · rename_i hin
      refine ⟨List.forall_mem_cons.mpr ⟨Nat.le_refl _, hle⟩, fun _ => ?_,
        hscanned.lined.cons (by simp [make]), fun _ => ?_, by simp [hin]⟩
      · exact ⟨[], _, rest, rfl, ⟨by simp, rfl, rfl, fun t ht => .inr (hbelow t ht)⟩, Nat.le_refl _⟩
      · obtain ⟨before, eof, lines, rfl, heof, hbefore, hlines⟩ := hscanned.bracketed rfl
        exact ⟨_, rfl, _ :: before, eof, lines, rfl, heof, congrArg (_ :: ·) hbefore, hlines⟩
    · rename_i hin
      exact ⟨hle, fun hin' => absurd hin' hin, hscanned.lined, fun hin' => absurd hin' hin,
        fun _ => hscanned.bracketed rfl⟩
  | case3 p mode c cs hc hgap ih => exact (ih hmode h).later (p.line_step c)
  | case4 p mode c cs hc hgap hline n =>
    rename_i ih
    exact (ih hmode h).later (p.line_after _)
  | case5 p mode c cs hc hgap hline hblock hnone => cases h
  | case6 p mode c cs hc hgap hline hblock n hn text =>
    rename_i ih
    obtain ⟨rest, hrest, hts⟩ := bind_eq_ok_iff.mp h
    cases hts
    exact (ih hmode hrest).cons rfl rfl (p.line_after _) rfl
  | case7 p mode c cs hc hgap hline hblock hmark tokens n htokens ih =>
    obtain ⟨rest, hrest, hts⟩ := bind_eq_ok_iff.mp h
    cases hts
    have hscanned := ih (fun _ => rfl) hrest
    have hlater : Scanned p ⟨true, false⟩ rest := hscanned.later (p.line_after _)
    obtain ⟨word, more, heq, hinner, hblob, hword⟩ := exists_directiveTokens file p cs
    rw [htokens] at heq
    cases heq
    have hout (hin : mode.inDirective = true) : False := by simp [hmode hin] at hmark
    obtain ⟨newline, hkind, hopened⟩ := hscanned.opened rfl
    refine ⟨fun t ht => ?_, fun hin => (hout hin).elim, fun mark rest' hsuffix hkind => ?_,
      fun hin => (hout hin).elim, fun _ => hopened.directive hkind hblob hword⟩
    · rcases List.mem_append.mp ht with ht | ht
      · rcases List.mem_cons.mp ht with rfl | ht
        · exact Nat.le_refl _
        · exact (hinner t ht).2
      · exact hlater.below t ht
    · have hmore : ∀ t ∈ more, t.kind.inner = true := fun t ht => (hinner t ht).1
      rcases List.suffix_cons_iff.mp hsuffix with heq | hsuffix
      · cases heq
        exact ⟨by simp [make], (hlater.inLine rfl).append hmore⟩
      · exact (hlater.lined.append hmore) mark rest' hsuffix hkind
  | case8 p mode c cs hc hgap hline hblock hmark l mode' =>
    rename_i ih
    obtain ⟨rest, hrest, hts⟩ := bind_eq_ok_iff.mp h
    cases hts
    exact (ih (fun _ => rfl) hrest).cons (bracket_lexeme c cs) rfl (p.line_after _) rfl

theorem scanned_of_scan {source : String} (h : scan file source = .ok ts) : Scanned .start {} ts := by
  unfold scan at h
  split at h
  · rename_i hscan
    cases h
    exact scanned_of_scanFrom (fun hin => by cases hin) hscan
  · cases h

/-- Directive lines are properly bracketed. Of the tokens that do not stand anywhere, every text has: for
each of its directives the mark and one newline, and in the line of an `#error` or a `#pragma` perhaps one
blob between them; and the end of the input, which comes last. -/
theorem bracketed_of_scan {source : String} (h : scan file source = .ok ts) :
    ∃ before eof lines, ts = before ++ [eof] ∧ eof.kind = .eof ∧
      (before.filter fun t => t.kind = .directive ∨ t.kind = .newline ∨ t.kind = .eof ∨ t.kind = .blob) =
        List.flatten lines ∧ ∀ l ∈ lines, IsBracket l := by
  obtain ⟨before, eof, lines, hts, heof, hbefore, hlines⟩ := (scanned_of_scan h).bracketed rfl
  refine ⟨before, eof, lines, hts, heof, ?_, hlines⟩
  rw [← List.nil_append lines.flatten, ← hbefore]
  refine List.filter_congr fun t _ => ?_
  generalize t.kind = k
  cases k <;> rfl

/-- A value and a comment go on over several lines, then a value is missing and nothing ends the line. -/
theorem bracketed_of_scan_over_lines :
    ∃ ts, scan "" "#pragma inject(`\\\n`) /*\n*/ ;\n;#\n#pragma" = .ok ts ∧
      ts.map (·.kind) = [.directive, .identifier, .blob, .comment, .semicolon, .newline, .semicolon, .other,
        .directive, .newline, .eof] ∧
      ∃ before eof lines, ts = before ++ [eof] ∧ eof.kind = .eof ∧
        (before.filter fun t => t.kind = .directive ∨ t.kind = .newline ∨ t.kind = .eof ∨ t.kind = .blob) =
          List.flatten lines ∧ ∀ l ∈ lines, IsBracket l := by
  have hkinds : ((scan "" "#pragma inject(`\\\n`) /*\n*/ ;\n;#\n#pragma").toOption.map
      (·.map (·.kind))) = some [.directive, .identifier, .blob, .comment, .semicolon, .newline, .semicolon,
        .other, .directive, .newline, .eof] := by decide +kernel
  cases hscan : scan "" "#pragma inject(`\\\n`) /*\n*/ ;\n;#\n#pragma" with
  | error d =>
    rw [hscan] at hkinds
    cases hkinds
  | ok ts =>
    rw [hscan] at hkinds
    exact ⟨ts, rfl, Option.some.inj hkinds, bracketed_of_scan hscan⟩

end RecordView.Token
