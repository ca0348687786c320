import RecordView.Proofs.Condition.Drawing

/-! How many errors the conditions of a description are: one for each of their lines at most, and one for
those that are not closed. -/
namespace RecordView.Frames

variable {fs fs' fs'' : Frames} {ts ts' ts'' : List Token} {errors errors' : List Diagnostic} {flags : Scope}

/-- Whether a condition is open or still to be opened. -/
def opens (fs : Frames) (ts : List Token) : Bool :=
  !fs.isEmpty || ts.any fun t => ConditionWord.ofToken? t = some .opening

/-- How many errors the conditions from here on may be: one for each of their lines, and one for those that
are open at the end. -/
def outstanding (fs : Frames) (ts : List Token) : Nat :=
  ts.countP (fun t => (ConditionWord.ofToken? t).isSome) + (opens fs ts).toNat

theorem opens_iff : opens fs ts = true ↔ fs ≠ [] ∨ ∃ t ∈ ts, ConditionWord.ofToken? t = some .opening := by
  cases fs <;> simp [opens]

theorem outstanding_le {n : Nat} (hopens : opens fs' ts' = true → opens fs ts = true)
    (hcount : n + ts'.countP (fun t => (ConditionWord.ofToken? t).isSome) ≤
      ts.countP fun t => (ConditionWord.ofToken? t).isSome) :
    n + outstanding fs' ts' ≤ outstanding fs ts := by
  have hle : (opens fs' ts').toNat ≤ (opens fs ts).toNat := by
    cases h : opens fs' ts' with
    | false => exact Nat.zero_le _
    | true => exact Nat.le_of_eq (by rw [hopens h])
  unfold outstanding
  omega

theorem outstanding_suffix (h : ts' <:+ ts) : outstanding fs ts' ≤ outstanding fs ts := by
  have hcount := h.sublist.countP_le (p := fun t => (ConditionWord.ofToken? t).isSome)
  have hle : 0 + outstanding fs ts' ≤ outstanding fs ts := by
    refine outstanding_le (fun hopens => ?_) (by omega)
    rcases opens_iff.mp hopens with hfs | ⟨t, ht, hword⟩
    · exact opens_iff.mpr (.inl hfs)
    · exact opens_iff.mpr (.inr ⟨t, h.subset ht, hword⟩)
  omega

/-- Only an opening line opens a condition. -/
theorem frames_ne_of_line {word : ConditionWord} {t : Token} {body : List Token} {effect : Effect}
    (h : line flags fs word t body = .ok effect) (hne : effect.frames ≠ []) : fs ≠ [] ∨ word = .opening := by
  have hmoves := moves_line h
  generalize effect.frames = fs' at hmoves hne
  cases hmoves with
  | opens => exact .inr rfl
  | turns top => exact .inl (by simp [top])
  | closes top => exact .inl (by simp [top])
  | keeps => exact .inl hne

/-- The line of a condition may be one error. -/
theorem line_outstanding {word : ConditionWord} {t : Token} {body : List Token} {effect : Effect}
    (hword : ConditionWord.ofToken? t = some word) (h : line flags fs word t body = .ok effect)
    (hrest : ts' <:+ ts) :
    effect.problem.toList.length + outstanding effect.frames ts' ≤ outstanding fs (t :: ts) := by
  have hone : effect.problem.toList.length ≤ 1 := by cases effect.problem <;> simp
  have hcount := hrest.sublist.countP_le (p := fun t => (ConditionWord.ofToken? t).isSome)
  refine outstanding_le (fun hopens => opens_iff.mpr ?_) ?_
  · rcases opens_iff.mp hopens with hframes | ⟨u, hu, hopening⟩
    · rcases frames_ne_of_line h hframes with hfs | rfl
      · exact .inl hfs
      · exact .inr ⟨t, List.mem_cons_self, hword⟩
    · exact .inr ⟨u, List.mem_cons_of_mem t (hrest.subset hu), hopening⟩
  · rw [List.countP_cons_of_pos (by rw [hword]; rfl)]
    omega

/-- What is drawn was outstanding. -/
theorem Draws.outstanding_le {sourceLine : Int → String} {d : Draw} (h : Draws flags sourceLine fs ts d) :
    d.errors.length + outstanding d.frames d.rest ≤ outstanding fs ts := by
  induction h with
  | nil => exact Nat.le_of_eq (Nat.zero_add _)
  | @eof fs t ht ts =>
    -- at the end of the input one error is for all that is open
    unfold finish
    cases h : fs.getLast? with
    | none => exact Nat.zero_le _
    | some f =>
      have hfs : fs ≠ [] := by
        rintro rfl
        cases h
      simp only [outstanding, opens_iff.mpr (.inl hfs)]
      exact Nat.le_add_left _ _
  | seen | failed =>
    rw [List.length_nil, Nat.zero_add]
    exact outstanding_suffix (List.suffix_cons _ _)
  | skipped _ _ _ _ ih => exact Nat.le_trans ih (outstanding_suffix (List.suffix_cons _ _))
  | @line fs t ts word effect d ht hw he _ ih =>
    have hline := line_outstanding hw he (behindLine_suffix ts)
    simp only [Draw.after, List.length_append, errorsAt, List.length_map]
    omega

/-! ## Many drawings -/

/-- From one place of the stream to another tokens are drawn, with these errors of the conditions on the
way. Each token is drawn under flags of its own. -/
inductive Drawn (fs : Frames) (ts : List Token) : List Diagnostic → Frames → List Token → Prop where
  | start : Drawn fs ts [] fs ts
  | next {errors : List Diagnostic} {fs' : Frames} {ts' : List Token} (flags : Scope)
      (sourceLine : Int → String) (before : Drawn fs ts errors fs' ts') :
      Drawn fs ts (errors ++ (draw flags sourceLine fs' ts').errors)
        (draw flags sourceLine fs' ts').frames (draw flags sourceLine fs' ts').rest

theorem Drawn.trans (h : Drawn fs ts errors fs' ts') (h' : Drawn fs' ts' errors' fs'' ts'') :
    Drawn fs ts (errors ++ errors') fs'' ts'' := by
  induction h' with
  | start => rwa [List.append_nil]
  | next flags sourceLine _ ih =>
    rw [← List.append_assoc]
    exact ih.next flags sourceLine

theorem Drawn.outstanding_le (h : Drawn fs ts errors fs' ts') :
    errors.length + outstanding fs' ts' ≤ outstanding fs ts := by
  induction h with
  | start => exact Nat.le_of_eq (Nat.zero_add _)
  | @next errors fs' ts' flags sourceLine _ ih =>
    have hdraw := (draws flags sourceLine fs' ts').outstanding_le
    rw [List.length_append]
    omega

end RecordView.Frames
