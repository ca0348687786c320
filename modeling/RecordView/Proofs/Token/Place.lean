import RecordView.Proofs.Token.Coverage

/-! Where tokens stand: every token starts at a character of the text or at its end, and such a place is on
one of the lines of the text, no further than right behind the line. -/
namespace RecordView

/-- The place is in the text: on one of its lines, at a character or right behind the last one. -/
def Location.InText (file source : String) (l : Location) : Prop :=
  l.file = file ∧ ∃ (n : Nat) (line : String), (Text.lines source)[n]? = some line ∧ l.line = n + 1 ∧
    1 ≤ l.column ∧ l.column ≤ line.length + 1

namespace Token

variable {file : String} {p q : Position} {mode : Mode} {cs : List Char} {c : Char} {t : Token}

/-! ## Positions in a text -/

/-- The position is reached in the text, which starts at position `p`. -/
def Position.Reaches (p : Position) (cs : List Char) (q : Position) : Prop := ∃ n, q = p.after (cs.take n)

theorem Position.Reaches.start (p : Position) (cs : List Char) : p.Reaches cs p := ⟨0, rfl⟩

theorem Position.Reaches.after {n : Nat} (h : (p.after (cs.take n)).Reaches (cs.drop n) q) :
    p.Reaches cs q := by
  obtain ⟨k, rfl⟩ := h
  exact ⟨n + k, by rw [List.take_add, after_append]⟩

theorem Position.Reaches.cons {n : Nat} (h : (p.after (c :: cs.take n)).Reaches (cs.drop n) q) :
    p.Reaches (c :: cs) q := Reaches.after (n := n + 1) h

theorem Position.Reaches.step (h : (p.step c).Reaches cs q) : p.Reaches (c :: cs) q := by
  obtain ⟨n, rfl⟩ := h
  exact ⟨n + 1, rfl⟩

/-- A comment without end starts in the text. -/
theorem reaches_of_scanFrom (h : scanFrom file p mode cs = .error q) : p.Reaches cs q := by
  have rest {x : Except Position (List Token)} {f : List Token → List Token}
      (h : (do return f (← x)) = .error q) : x = .error q := by
    cases x with
    | ok ts => cases h
    | error q => exact h
  fun_induction scanFrom file p mode cs with
  | case1 => cases h
  | case2 p mode cs ih => exact (ih (rest h)).step
  | case3 p mode c cs hc hgap ih => exact (ih h).step
  | case4 p mode c cs hc hgap hline n ih => exact (ih h).cons
  | case5 p mode c cs hc hgap hline hblock hnone =>
    cases h
    exact .start _ _
  | case6 p mode c cs hc hgap hline hblock n hn text ih => exact (ih (rest h)).cons
  | case7 p mode c cs hc hgap hline hblock hmark tokens n htokens ih => exact (ih (rest h)).cons
  | case8 p mode c cs hc hgap hline hblock hmark l inLine ih => exact (ih (rest h)).cons

/-! ## Lines of a text -/

/-- A position that is reached in a text is on its first line, which goes on where the text starts, or on a
later one. It is no further than right behind the line. -/
theorem Position.Reaches.line (h : p.Reaches cs q) :
    (∃ l ls, Text.splitChars '\n' cs = l :: ls ∧ q.line = p.line ∧ p.column ≤ q.column ∧
      q.column ≤ p.column + l.length) ∨
    ∃ n l, (Text.splitChars '\n' cs)[n + 1]? = some l ∧ q.line = p.line + (n + 1) ∧ 1 ≤ q.column ∧
      q.column ≤ 1 + l.length := by
  obtain ⟨k, rfl⟩ := h
  induction cs generalizing p k with
  | nil =>
    rw [List.take_nil]
    exact .inl ⟨[], [], rfl, rfl, Nat.le_refl _, Nat.le_refl _⟩
  | cons c cs ih =>
    cases k with
    | zero =>
      obtain ⟨l, ls, hlines⟩ := List.exists_cons_of_ne_nil (Text.splitChars_ne_nil '\n' (c :: cs))
      exact .inl ⟨l, ls, hlines, rfl, Nat.le_refl _, Nat.le_add_right _ _⟩
    | succ k =>
      have hafter : p.after ((c :: cs).take (k + 1)) = (p.step c).after (cs.take k) := rfl
      rw [hafter, Text.splitChars]
      by_cases hc : c = '\n'
      · have hstep : p.step c = ⟨p.line + 1, 1⟩ := if_pos hc
        rw [if_pos hc, hstep]
        rcases ih (p := ⟨p.line + 1, 1⟩) (k := k) with ⟨l, ls, hlines, hline, hlow, hhigh⟩ |
          ⟨n, l, hl, hline, hlow, hhigh⟩
        · refine .inr ⟨0, l, ?_, hline, hlow, hhigh⟩
          rw [hlines]
          rfl
        · refine .inr ⟨n + 1, l, hl, ?_, hlow, hhigh⟩
          rw [hline]
          dsimp only
          omega
      · have hstep : p.step c = ⟨p.line, p.column + 1⟩ := if_neg hc
        rw [if_neg hc, hstep]
        obtain ⟨l, ls, hlines⟩ := List.exists_cons_of_ne_nil (Text.splitChars_ne_nil '\n' cs)
        rw [hlines]
        rcases ih (p := ⟨p.line, p.column + 1⟩) (k := k) with ⟨l', ls', hlines', hline, hlow, hhigh⟩ |
          ⟨n, l', hl', hline, hlow, hhigh⟩
        · rw [hlines] at hlines'
          cases hlines'
          refine .inl ⟨c :: l, ls, rfl, hline, Nat.le_of_succ_le hlow, ?_⟩
          rw [List.length_cons]
          dsimp only at hhigh
          omega
        · rw [hlines] at hl'
          exact .inr ⟨n, l', hl', hline, hlow, hhigh⟩

/-- Every position of a text is a place in it. -/
theorem inText_of_reaches {source : String} (h : Position.start.Reaches source.toList q) :
    Location.InText file source ⟨file, q.line, q.column⟩ := by
  have hlines (n : Nat) (l : List Char) (hl : (Text.splitChars '\n' source.toList)[n]? = some l) :
      (Text.lines source)[n]? = some (String.ofList l) := by
    rw [Text.lines, Text.split, List.getElem?_map, hl]
    rfl
  refine ⟨rfl, ?_⟩
  rcases h.line with ⟨l, ls, hl, hline, hlow, hhigh⟩ | ⟨n, l, hl, hline, hlow, hhigh⟩
  · refine ⟨0, _, hlines 0 l (by rw [hl]; rfl), ?_⟩
    simp only [Position.start] at hline hlow hhigh
    rw [String.length_ofList]
    dsimp only
    omega
  · refine ⟨n + 1, _, hlines (n + 1) l hl, ?_⟩
    simp only [Position.start] at hline
    rw [String.length_ofList]
    dsimp only
    omega

theorem inText_start (file source : String) : Location.InText file source ⟨file, 1, 1⟩ :=
  inText_of_reaches (.start _ _)

/-- The tokens of a text stand in it. -/
theorem inText_of_scan {source : String} {ts : List Token} (h : scan file source = .ok ts) :
    ∀ t ∈ ts, t.location.InText file source := by
  intro t ht
  obtain ⟨before, rest, htext, hlaid⟩ := laid_of_scan h
  obtain ⟨pre, post, rfl⟩ := List.append_of_mem ht
  obtain ⟨before', rest', hbefore, ht⟩ := hlaid.drop
  obtain ⟨rfl, hline, hcolumn⟩ := ht.stands
  have hreaches : Position.start.Reaches source.toList ⟨t.line, t.column⟩ := by
    refine ⟨before'.length, ?_⟩
    rw [htext, hbefore, List.take_left, Position.start_after, hline, hcolumn]
  exact inText_of_reaches hreaches

/-- A comment without end starts in the text, and its line is quoted. -/
theorem inText_of_scan_error {source : String} {d : Diagnostic} (h : scan file source = .error d) :
    ∃ l, Location.InText file source l ∧ d.location = some l ∧
      d.line = some (Text.lineAt (Text.lines source) l.line) := by
  unfold scan at h
  split at h
  · cases h
  · next p hp =>
    cases h
    exact ⟨_, inText_of_reaches (reaches_of_scanFrom hp), rfl, rfl⟩

end Token
end RecordView
