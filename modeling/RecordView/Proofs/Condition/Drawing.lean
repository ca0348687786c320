import RecordView.Condition

/-! What the drawing of one token depends on: it takes tokens from the front of the stream, and looks
at no token behind those that it takes. -/
namespace RecordView
variable {t : Token} {word : ConditionWord} {body : List Token} {e : Effect}

namespace Frames

variable {flags : Scope} {sourceLine : Int → String} {fs : Frames} {ts : List Token} {d : Draw}

/-! ## Lines -/

/-- The stream after the line that begins it; the end of the input is no part of the line. -/
def behindLine (ts : List Token) : List Token :=
  match ts.dropWhile inLine with
  | [] => []
  | e :: rest => if e.kind = .eof then e :: rest else rest

theorem behindLine_suffix (ts : List Token) : behindLine ts <:+ ts := by
  have hdrop : ts.dropWhile inLine <:+ ts := List.dropWhile_suffix inLine
  unfold behindLine
  split
  · exact List.nil_suffix
  · rename_i e rest hd
    rw [hd] at hdrop
    split
    · exact hdrop
    · exact (List.suffix_cons e rest).trans hdrop

/-- What stands behind a line goes on in the same way whatever comes after it. -/
theorem exists_behindLine {c rest : List Token} (h : behindLine ts = c ++ t :: rest) (ht : t.kind ≠ .eof) :
    ∃ c', ts = c' ++ t :: rest ∧ ∀ q,
      (c' ++ q).takeWhile inLine = ts.takeWhile inLine ∧ behindLine (c' ++ q) = c ++ q := by
  have hin : ∀ t ∈ ts.takeWhile inLine, inLine t = true := List.all_eq_true.mp List.all_takeWhile
  have hline := List.takeWhile_append_dropWhile (p := inLine) (l := ts)
  have hhead := List.head?_dropWhile_not inLine ts
  unfold behindLine at h
  split at h
  · simp at h
  · rename_i e tail hd
    rw [hd] at hline hhead
    have hend : inLine e = false := by simpa using hhead
    -- the token that ends the line stands behind it if it ends the input, too
    obtain ⟨x, htail, hx⟩ : ∃ x, tail = x ++ t :: rest ∧ if e.kind = .eof then c = e :: x else c = x := by
      split at h
      · rename_i hk
        rcases List.cons_eq_append_iff.mp h with ⟨-, hhere⟩ | ⟨x, hc, htail⟩
        · cases hhere
          exact absurd hk ht
        · exact ⟨x, htail, by rw [if_pos hk, hc]⟩
      · rename_i hk
        exact ⟨c, h, by rw [if_neg hk]⟩
    refine ⟨ts.takeWhile inLine ++ e :: x, ?_, fun q => ?_⟩
    · rw [List.append_assoc, List.cons_append, ← htail, hline]
    · rw [behindLine, List.append_assoc, List.dropWhile_append_of_pos hin, List.takeWhile_append_of_pos hin]
      split at hx <;> simp [*]

def errorsAt (sourceLine : Int → String) (t : Token) (o : Option Problem) : List Diagnostic :=
  o.toList.map fun p => ⟨p, some t.location, some (sourceLine t.line)⟩

theorem draw_plain_cons (ht : t.kind ≠ .eof) (hw : ConditionWord.ofToken? t = none) (ts : List Token) :
    draw flags sourceLine fs (t :: ts) =
      if fs.active then ⟨.ok (some t), ts, fs, [], []⟩ else draw flags sourceLine fs ts := by
  rw [draw, if_neg ht]
  simp only [hw]

/-- A conditional line is taken as a whole, and the drawing goes on behind it. -/
theorem draw_line_cons {effect : Effect} (ht : t.kind ≠ .eof) (hw : ConditionWord.ofToken? t = some word)
    (he : line flags fs word t (ts.takeWhile inLine) = .ok effect) :
    draw flags sourceLine fs (t :: ts) =
      (draw flags sourceLine effect.frames (behindLine ts)).after
        (errorsAt sourceLine t effect.problem) effect.note.toList := by
  rw [draw, if_neg ht]
  simp only [hw, he]
  split
  · rename_i hd
    rw [behindLine, hd, draw]
    simp [Draw.after, errorsAt]
  · rename_i e rest hd
    rw [behindLine, hd]
    dsimp only
    by_cases hk : e.kind = .eof
    · rw [if_pos hk, if_pos hk, draw, if_pos hk]
      rfl
    · rw [if_neg hk, if_neg hk]
      rfl

/-- How the next token that is seen is drawn: tokens are passed over where none is seen, and conditional
lines everywhere. -/
inductive Draws (flags : Scope) (sourceLine : Int → String) : Frames → List Token → Draw → Prop where
  | nil (fs : Frames) : Draws flags sourceLine fs [] ⟨.ok none, [], fs, [], []⟩
  | eof (fs : Frames) {t : Token} (ht : t.kind = .eof) (ts : List Token) :
      Draws flags sourceLine fs (t :: ts) (finish sourceLine fs t)
  | seen {fs : Frames} {t : Token} (ht : t.kind ≠ .eof) (hw : ConditionWord.ofToken? t = none)
      (ha : fs.active = true) (ts : List Token) :
      Draws flags sourceLine fs (t :: ts) ⟨.ok (some t), ts, fs, [], []⟩
  | skipped {fs : Frames} {t : Token} {ts : List Token} {d : Draw} (ht : t.kind ≠ .eof)
      (hw : ConditionWord.ofToken? t = none) (ha : ¬ fs.active = true)
      (next : Draws flags sourceLine fs ts d) : Draws flags sourceLine fs (t :: ts) d
  | failed {fs : Frames} {t : Token} {ts : List Token} {word : ConditionWord} {f : Failure}
      (ht : t.kind ≠ .eof) (hw : ConditionWord.ofToken? t = some word)
      (hf : line flags fs word t (ts.takeWhile inLine) = .error f) :
      Draws flags sourceLine fs (t :: ts) ⟨.error f, ts, fs, [], []⟩
  | line {fs : Frames} {t : Token} {ts : List Token} {word : ConditionWord} {effect : Effect} {d : Draw}
      (ht : t.kind ≠ .eof) (hw : ConditionWord.ofToken? t = some word)
      (he : line flags fs word t (ts.takeWhile inLine) = .ok effect)
      (next : Draws flags sourceLine effect.frames (behindLine ts) d) :
      Draws flags sourceLine fs (t :: ts) (d.after (errorsAt sourceLine t effect.problem) effect.note.toList)

theorem draws (flags : Scope) (sourceLine : Int → String) (fs : Frames) (ts : List Token) :
    Draws flags sourceLine fs ts (draw flags sourceLine fs ts) := by
  induction hn : ts.length using Nat.strongRecOn generalizing fs ts with
  | ind n ih =>
  cases ts with
  | nil =>
    rw [draw]
    exact .nil fs
  | cons t ts =>
    have hlt : ts.length < n := by simp [← hn]
    by_cases ht : t.kind = .eof
    · rw [draw, if_pos ht]
      exact .eof fs ht ts
    cases hw : ConditionWord.ofToken? t with
    | none =>
      rw [draw_plain_cons ht hw]
      split
      · rename_i ha
        exact .seen ht hw ha ts
      · rename_i ha
        exact .skipped ht hw ha (ih _ hlt fs ts rfl)
    | some word =>
      cases hline : Frames.line flags fs word t (ts.takeWhile inLine) with
      | error f =>
        rw [draw, if_neg ht]
        simp only [hw, hline]
        exact .failed ht hw hline
      | ok effect =>
        rw [draw_line_cons ht hw hline]
        have hle := (behindLine_suffix ts).length_le
        exact .line ht hw hline (ih _ (Nat.lt_of_le_of_lt hle hlt) effect.frames _ rfl)

/-! ## What is drawn -/

/-- What is left is an end of the stream. -/
theorem Draws.rest_suffix (h : Draws flags sourceLine fs ts d) : d.rest <:+ ts := by
  induction h with
  | nil => exact List.suffix_rfl
  | eof =>
    rw [finish_rest]
    exact List.nil_suffix
  | seen => exact List.suffix_cons _ _
  | skipped _ _ _ _ ih => exact ih.trans (List.suffix_cons _ _)
  | failed => exact List.suffix_cons _ _
  | line _ _ _ _ ih => exact ih.trans ((behindLine_suffix _).trans (List.suffix_cons _ _))

theorem finish_found (fs : Frames) (eof : Token) : (finish sourceLine fs eof).found = .ok (some eof) := by
  unfold finish
  split <;> rfl

inductive Moves (fs : Frames) (t : Token) : ConditionWord → Frames → Prop where
  | opens {seen : Bool} (dead : fs.active = false → seen = false) :
      Moves fs t .opening (⟨seen, false, t.location⟩ :: fs)
  | turns {f : Frame} {rest : Frames} (top : fs = f :: rest) :
      Moves fs t .alternative (⟨if active rest then !f.active else f.active, true, f.location⟩ :: rest)
  | closes {f : Frame} {rest : Frames} (top : fs = f :: rest) : Moves fs t .closing rest
  | keeps {word : ConditionWord} (hopening : word ≠ .opening) (hclosing : word = .closing → fs = []) :
      Moves fs t word fs

theorem moves_turn (fs : Frames) (t : Token) : Moves fs t .alternative (turn fs).frames := by
  unfold turn
  cases fs with
  | nil => exact .keeps (by simp) (by simp)
  | cons f rest =>
    dsimp only
    split
    · exact .keeps (by simp) (by simp)
    · exact .turns rfl

theorem moves_enter (h : enter flags fs t body = .ok e) : Moves fs t .opening e.frames := by
  unfold enter at h
  dsimp only at h
  split at h
  · cases h
    exact .opens fun _ => rfl
  · rename_i hactive
    have hlive : fs.active = true := by simpa using hactive
    split at h
    · cases h
      exact .opens (by simp [hlive])
    · cases h
      exact .opens fun _ => rfl
    · cases h

theorem moves_line (h : line flags fs word t body = .ok e) : Moves fs t word e.frames := by
  cases word with
  | opening => exact moves_enter h
  | alternative =>
    cases h
    exact moves_turn fs t
  | closing =>
    cases h
    cases fs with
    | nil => exact .keeps (by simp) fun _ => rfl
    | cons f rest => exact .closes rfl
  | error =>
    cases h
    unfold raise
    split <;> exact .keeps (by simp) (by simp)

theorem problem_of_evaluate {allowDefined : Bool} {location : Option Location} {d : Diagnostic}
    (h : Expr.evaluate flags allowDefined ts location = .error (.refused d)) :
    ∃ p, d.problem = .expression p := by
  unfold Expr.evaluate Expr.located at h
  generalize (if (Expr.content ts).isEmpty = true then _ else _ : Evaluation Constant) = r at h
  cases r with
  | ok c => cases h
  | error e =>
    cases e with
    | refused p =>
      cases h
      exact ⟨p, rfl⟩
    | failed f => cases h

/-- A line is wrong in its condition or in its place, and it is not what stays open. -/
theorem problem_of_line (h : line flags fs word t body = .ok e) {p : Problem} (hp : e.problem = some p) :
    (∃ x, p = .expression x) ∨ ∃ x, p = .condition x ∧ x ≠ .unterminated := by
  cases word with
  | opening =>
    simp only [line, enter] at h
    split at h
    · cases h
      cases hp
    · split at h
      · cases h
        cases hp
      · rename_i d hrefused
        cases h
        cases hp
        exact .inl (problem_of_evaluate hrefused)
      · cases h
  | alternative =>
    cases h
    unfold turn at hp
    split at hp
    · cases hp
      simp
    · split at hp <;> cases hp
      simp
  | closing =>
    cases h
    unfold leave at hp
    split at hp <;> cases hp
    simp
  | error =>
    cases h
    unfold raise at hp
    split at hp <;> cases hp
    simp

/-- A line that fails stands where tokens are seen. -/
theorem active_of_line {f : Failure} (h : line flags fs word t body = .error f) : fs.active = true := by
  cases word with
  | opening =>
    simp only [line, enter] at h
    split at h
    · cases h
    · rename_i ha
      simpa using ha
  | alternative => cases h
  | closing => cases h
  | error => cases h

/-- Where a drawing may stop: where tokens are seen, or at the end of the input. -/
structure Draw.Stops (d : Draw) : Prop where
  failed : ∀ f, d.found = .error f → d.frames.active = true
  seen : ∀ t, d.found = .ok (some t) → t.kind ≠ .eof → d.frames.active = true
  ended : ∀ o, d.found = .ok o → (∀ t, o = some t → t.kind = .eof) → d.rest = []

theorem Draws.stops (h : Draws flags sourceLine fs ts d) : d.Stops := by
  induction h with
  | nil => exact ⟨fun f hf => (by cases hf), fun t ht => (by cases ht), fun _ _ _ => rfl⟩
  | eof fs hk ts =>
    refine ⟨fun f hf => ?_, fun t ht hne => ?_, fun _ _ _ => finish_rest _ _ _⟩
    · rw [finish_found] at hf
      cases hf
    · rw [finish_found] at ht
      cases ht
      exact absurd hk hne
  | @seen fs t ht hw ha ts =>
    refine ⟨fun f hf => (by cases hf), fun _ _ _ => ha, fun o ho hk => ?_⟩
    cases ho
    exact absurd (hk t rfl) ht
  | skipped _ _ _ _ ih => exact ih
  | failed _ _ hf => exact ⟨fun _ _ => active_of_line hf, fun o ho => (by cases ho), fun o ho => (by cases ho)⟩
  | line _ _ _ _ ih => exact ⟨ih.failed, ih.seen, ih.ended⟩

/-- In front of a token that is drawn stand lines whose effect does not depend on it: whatever follows
them is drawn after the same effect. -/
theorem Draws.seen_append (h : Draws flags sourceLine fs ts d) (hfound : d.found = .ok (some t))
    (ht : t.kind ≠ .eof) :
    ConditionWord.ofToken? t = none ∧ ∃ c, ts = c ++ t :: d.rest ∧ ∀ q,
      draw flags sourceLine fs (c ++ q) = (draw flags sourceLine d.frames q).after d.errors d.notes := by
  induction h with
  | nil => cases hfound
  | eof fs hu ts =>
    rw [finish_found] at hfound
    cases hfound
    exact absurd hu ht
  | seen hu hw ha ts =>
    cases hfound
    exact ⟨hw, [], rfl, fun q => rfl⟩
  | @skipped fs u ts d hu hw ha _ ih =>
    obtain ⟨hword, c, hts, hall⟩ := ih hfound
    refine ⟨hword, u :: c, congrArg (u :: ·) hts, fun q => ?_⟩
    rw [List.cons_append, draw_plain_cons hu hw, if_neg ha]
    exact hall q
  | failed => cases hfound
  | @line fs u ts word effect d hu hw he _ ih =>
    obtain ⟨hword, c, hrest, hall⟩ := ih hfound
    obtain ⟨c', hts, hbehind⟩ := exists_behindLine hrest ht
    refine ⟨hword, u :: c', congrArg (u :: ·) hts, fun q => ?_⟩
    obtain ⟨htake, hq⟩ := hbehind q
    rw [List.cons_append, draw_line_cons hu hw (htake ▸ he), hq, hall q]
    simp [Draw.after]

/-- A token that is drawn before the last part of a stream does not depend on that part. -/
theorem draw_append {p q : List Token} {o : Option Token} (hq : q ≠ [])
    (h : (draw flags sourceLine fs (p ++ q)).found = .ok o)
    (hr : q.length ≤ (draw flags sourceLine fs (p ++ q)).rest.length) :
    ∃ r, (draw flags sourceLine fs (p ++ q)).rest = r ++ q ∧ ∀ q',
      draw flags sourceLine fs (p ++ q') =
        { draw flags sourceLine fs (p ++ q) with rest := r ++ q' } := by
  have hstops : (draw flags sourceLine fs (p ++ q)).Stops := (draws flags sourceLine fs (p ++ q)).stops
  have hpos : 0 < q.length := List.length_pos_iff.mpr hq
  -- at the end of the input nothing would be left
  have hseen : ∃ t, o = some t ∧ t.kind ≠ .eof := by
    refine Classical.byContradiction fun hnot => ?_
    have hended : ∀ t, o = some t → t.kind = .eof := fun t ht =>
      Classical.byContradiction fun hk => hnot ⟨t, ht, hk⟩
    rw [hstops.ended o h hended] at hr
    exact absurd hr (Nat.not_le.mpr hpos)
  obtain ⟨t, rfl, ht⟩ := hseen
  have hactive := hstops.seen t h ht
  obtain ⟨hword, c, hts, hall⟩ := (draws flags sourceLine fs (p ++ q)).seen_append h ht
  generalize draw flags sourceLine fs (p ++ q) = D at *
  have hsuffix : q <:+ D.rest := by
    refine List.suffix_of_suffix_length_le (List.suffix_append p q) ?_ hr
    rw [hts]
    exact (List.suffix_cons t _).trans (List.suffix_append c _)
  obtain ⟨r, hrest⟩ := hsuffix
  have hp : p = c ++ t :: r := by
    rw [← hrest, ← List.cons_append, ← List.append_assoc] at hts
    exact List.append_cancel_right hts
  refine ⟨r, hrest.symm, fun q' => ?_⟩
  rw [hp, List.append_assoc, List.cons_append, hall, draw_plain_cons ht hword, if_pos hactive]
  simp [Draw.after, h]

end Frames
end RecordView
