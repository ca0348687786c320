import RecordView.Proofs.Expression.Grammar

/-! Every derivation of a constant expression is read from the tokens that it spells. -/
namespace RecordView.Expr
open Grammar

variable {allowDefined : Bool} {p : Phrase} {k : Nat} {t : Token}

/-! ## What each reader gives, without the bound on the rest -/

def bare {ts : List Token} (r : Expr × Rest ts) : Expr × List Token := (r.1, r.2.1)

def choiceOf (allowDefined : Bool) (ts : List Token) : Expr × List Token :=
  bare (readChoice allowDefined ts)

def levelOf (allowDefined : Bool) (k : Nat) (ts : List Token) : Expr × List Token :=
  bare (readLevel allowDefined k ts)

def moreOf (allowDefined : Bool) (k : Nat) (left : Expr) (ts : List Token) : Expr × List Token :=
  bare (readMore allowDefined k left ts)

def unaryOf (allowDefined : Bool) (ts : List Token) : Expr × List Token :=
  bare (readUnary allowDefined ts)

def primaryOf (allowDefined : Bool) (t : Token) (r : List Token) : Expr × List Token :=
  bare (readPrimary allowDefined t r)

theorem levelOf_zero (allowDefined : Bool) (ts : List Token) :
    levelOf allowDefined 0 ts = unaryOf allowDefined ts := by
  unfold levelOf unaryOf
  rw [readLevel]

theorem levelOf_succ (k : Nat) (ts : List Token) :
    levelOf allowDefined (k + 1) ts =
      moreOf allowDefined k (levelOf allowDefined k ts).1 (levelOf allowDefined k ts).2 := by
  unfold levelOf moreOf
  rw [readLevel]
  rfl

theorem moreOf_nil (k : Nat) (left : Expr) : moreOf allowDefined k left [] = (left, []) := by
  unfold moreOf
  rw [readMore]
  rfl

theorem moreOf_none (left : Expr) (r : List Token) (h : binaryOp? (k + 1) t = none) :
    moreOf allowDefined k left (t :: r) = (left, t :: r) := by
  unfold moreOf
  rw [readMore, h]
  rfl

theorem moreOf_some {op : BinaryOp} (left : Expr) (r : List Token) (h : binaryOp? (k + 1) t = some op) :
    moreOf allowDefined k left (t :: r) =
      moreOf allowDefined k (.binary op left (levelOf allowDefined k r).1)
        (levelOf allowDefined k r).2 := by
  unfold moreOf levelOf
  rw [readMore, h]
  rfl

theorem unaryOf_nil : unaryOf allowDefined [] = (.fault .endOfExpression, []) := by
  unfold unaryOf
  rw [readUnary]
  rfl

theorem unaryOf_some {op : UnaryOp} (r : List Token) (h : unaryOp? t = some op) :
    unaryOf allowDefined (t :: r) =
      (.unary op (unaryOf allowDefined r).1, (unaryOf allowDefined r).2) := by
  unfold unaryOf
  rw [readUnary, h]
  rfl

theorem unaryOf_none (r : List Token) (h : unaryOp? t = none) :
    unaryOf allowDefined (t :: r) = primaryOf allowDefined t r := by
  unfold unaryOf primaryOf
  rw [readUnary, h]

theorem choiceOf_eq (ts : List Token) :
    choiceOf allowDefined ts =
      match levelOf allowDefined 10 ts with
      | (c, []) => (c, [])
      | (c, t :: r) =>
        if t.isSymbol "?" then
          match choiceOf allowDefined r with
          | (a, []) => (.choice c a (.fault .colonExpected), [])
          | (a, u :: s) =>
            if u.isSymbol ":" then
              (.choice c a (choiceOf allowDefined s).1, (choiceOf allowDefined s).2)
            else (.choice c a (.fault .colonExpected), [])
        else (c, t :: r) := by
  unfold choiceOf levelOf
  rw [readChoice]
  cases hl : readLevel allowDefined BinaryOp.loosest ts with
  | mk c l =>
    obtain ⟨l, hle⟩ := l
    have hl' : readLevel allowDefined 10 ts = (c, ⟨l, hle⟩) := hl
    rw [hl']
    cases l with
    | nil => rfl
    | cons t r =>
      dsimp only [bare]
      split
      · cases readChoice allowDefined r with
        | mk a q =>
          obtain ⟨q, hq⟩ := q
          cases q with
          | nil => rfl
          | cons u s =>
            dsimp only
            split
            · rfl
            · rfl
      · rfl

theorem primaryOf_eq (t : Token) (r : List Token) :
    primaryOf allowDefined t r =
      match t.kind with
      | .number => (.number t.text, r)
      | .string => (.text t.text, r)
      | .identifier =>
        if t.text = "true" then (.truth true, r)
        else if t.text = "false" then (.truth false, r)
        else if t.text = "defined" ∧ allowDefined then bare (readDefined r)
        else (.name t.text, r)
      | .leftParen =>
        match choiceOf allowDefined r with
        | (e, []) => (.broken e .closeExpected, [])
        | (e, u :: s) =>
          if u.isSymbol ")" then (.group e, s) else (.broken e .closeExpected, [])
      | _ => (.fault (.valueExpected t.text), []) := by
  unfold primaryOf choiceOf
  rw [readPrimary]
  cases t.kind with
  | identifier =>
    dsimp only
    split
    · rfl
    · split
      · rfl
      · split <;> rfl
  | leftParen =>
    cases readChoice allowDefined r with
    | mk e q =>
      obtain ⟨q, hq⟩ := q
      cases q with
      | nil => rfl
      | cons u s =>
        dsimp only [bare]
        split <;> rfl
  | _ => rfl

theorem unaryOp?_of_isContent (h : t.kind.isContent = true) : unaryOp? t = none := by
  simp [unaryOp?, h]

theorem unaryOp?_opening (t : Opening) : unaryOp? t.1.1 = none := by
  rw [Option.eq_none_iff_forall_ne_some]
  intro op h
  have := unaryOp?_eq_some_iff.mp h
  simp [t.2 op] at this

theorem readDefined_name {n : Token} (h : n.kind = .identifier) (r : List Token) :
    bare (readDefined (n :: r)) = (.defined n.text, r) := by
  simp [readDefined, not_isSymbol_of_name h, h, bare]

theorem readDefined_group {o n c : Token} (ho : o.isSymbol "(" = true) (hn : n.kind = .identifier)
    (hc : c.isSymbol ")" = true) (r : List Token) :
    bare (readDefined (o :: n :: c :: r)) = (.defined n.text, r) := by
  simp [readDefined, ho, hn, hc, bare]

/-! ## Derivations are read -/

/-- The tokens do not go on with a binary operator of the given level or a tighter one. -/
def Ends (k : Nat) (ts : List Token) : Prop := ∀ t ∈ ts.head?, ∀ j ≤ k, binaryOp? j t = none

theorem Ends.mono {j : Nat} {ts : List Token} (h : Ends k ts) (hj : j ≤ k) : Ends j ts :=
  fun t ht i hi => h t ht i (Nat.le_trans hi hj)

theorem ends_nil (k : Nat) : Ends k [] := by
  intro t ht
  cases ht

/-- A symbol that is no binary operator ends every level. -/
theorem ends_of_isSymbol {s : String} (k : Nat) (r : List Token) (h : t.isSymbol s = true)
    (hs : BinaryOp.ofText? s = none) : Ends k (t :: r) := by
  intro u hu j hj
  obtain rfl := Option.some.inj hu
  obtain ⟨hc, ht⟩ := isSymbol_iff.mp h
  simp [binaryOp?, hc, ht, hs]

/-- An operator ends all tighter levels. -/
theorem ends_of_mem_operators {op : BinaryOp} (r : List Token) (h : t.isSymbol op.symbol = true)
    (hop : op ∈ operators (k + 1)) : Ends k (t :: r) := by
  intro u hu j hj
  obtain rfl := Option.some.inj hu
  rw [Option.eq_none_iff_forall_ne_some]
  intro op' h'
  obtain ⟨hs', hop'⟩ := binaryOp?_eq_some_iff.mp h'
  have ht := (isSymbol_iff.mp h).2.symm.trans (isSymbol_iff.mp hs').2
  have he := (ofText?_binary.mpr rfl).symm.trans (ofText?_binary.mpr ht)
  obtain rfl := Option.some.inj he
  have := mem_operators_iff.mp hop
  have := mem_operators_iff.mp hop'
  omega

theorem moreOf_ends (left : Expr) {ts : List Token} (h : Ends (k + 1) ts) :
    moreOf allowDefined k left ts = (left, ts) := by
  cases ts with
  | nil => exact moreOf_nil k left
  | cons t r => exact moreOf_none left r (h t rfl (k + 1) (Nat.le_refl _))

/-- The phrase is read from its yield, whatever follows it, up to where it may go on. On a level of
binary operators the tokens that follow may be further operands. -/
def IsRead : {p : Phrase} → Derivation allowDefined p → Prop
  | .conditional, d =>
    ∀ rest, Ends 10 rest → (∀ t ∈ rest.head?, t.isSymbol "?" = false) →
      choiceOf allowDefined (d.yield ++ rest) = (d.expr, rest)
  | .level 0, d => ∀ rest, unaryOf allowDefined (d.yield ++ rest) = (d.expr, rest)
  | .level (k + 1), d =>
    ∀ rest, Ends k rest →
      levelOf allowDefined (k + 1) (d.yield ++ rest) = moreOf allowDefined k d.expr rest
  | .primary, d => ∀ rest, unaryOf allowDefined (d.yield ++ rest) = (d.expr, rest)

theorem IsRead.level {d : Derivation allowDefined (.level k)} (h : IsRead d) {rest : List Token}
    (hr : Ends k rest) : levelOf allowDefined k (d.yield ++ rest) = (d.expr, rest) := by
  cases k with
  | zero =>
    rw [levelOf_zero]
    exact h rest
  | succ k =>
    rw [h rest (hr.mono (Nat.le_succ k)), moreOf_ends d.expr hr]

theorem isRead (d : Derivation allowDefined p) : IsRead d := by
  induction d with
  | choice c question yes colon no ihc ihy ihn =>
    intro rest hr hq
    have hc := ihc.level
      (ends_of_isSymbol 10 (yes.yield ++ colon.1 :: (no.yield ++ rest)) question.2 rfl)
    have hy := ihy (colon.1 :: (no.yield ++ rest)) (ends_of_isSymbol 10 _ colon.2 rfl)
      (by rintro u ⟨⟩; exact not_isSymbol_of_ne colon.2 (by decide))
    have hn := ihn rest hr hq
    simp only [Derivation.yield, Derivation.expr, List.append_assoc, List.cons_append]
    rw [choiceOf_eq, hc]
    simp only [question.2, colon.2, hy, hn, if_true]
  | plain e ih =>
    intro rest hr hq
    rw [choiceOf_eq]
    simp only [Derivation.yield, Derivation.expr]
    rw [ih.level hr]
    cases rest with
    | nil => rfl
    | cons t r => simp [hq t rfl]
  | binary op left mark right ihl ihr =>
    intro rest hr
    have hm := binaryOp?_eq_some_iff.mpr ⟨mark.2, op.2⟩
    simp only [Derivation.yield, Derivation.expr, List.append_assoc, List.cons_append]
    rw [ihl _ (ends_of_mem_operators _ mark.2 op.2), moreOf_some _ _ hm, ihr.level hr]
  | tighter e ih =>
    intro rest hr
    simp only [Derivation.yield, Derivation.expr]
    rw [levelOf_succ, ih.level hr]
  | unary op mark e ih =>
    intro rest
    simp only [Derivation.yield, Derivation.expr, List.cons_append]
    rw [unaryOf_some _ (unaryOp?_eq_some_iff.mpr mark.2), ih rest]
  | atom e ih => exact ih
  | number t =>
    intro rest
    simp only [Derivation.yield, Derivation.expr, List.cons_append, List.nil_append]
    rw [unaryOf_none _ (unaryOp?_of_isContent (by simp [t.2, Token.Kind.isContent])), primaryOf_eq]
    simp only [t.2]
  | text t =>
    intro rest
    simp only [Derivation.yield, Derivation.expr, List.cons_append, List.nil_append]
    rw [unaryOf_none _ (unaryOp?_of_isContent (by simp [t.2, Token.Kind.isContent])), primaryOf_eq]
    simp only [t.2]
  | name t =>
    intro rest
    simp only [Derivation.yield, Derivation.expr, List.cons_append, List.nil_append]
    rw [unaryOf_none _ (unaryOp?_of_isContent (by simp [t.1.2, Token.Kind.isContent])), primaryOf_eq]
    simp only [t.1.2, if_neg t.2]
    split
    · rfl
    · split <;> rfl
  | group opening e closing ih =>
    intro rest
    have he := ih (closing.1 :: rest) (ends_of_isSymbol 10 rest closing.2 rfl)
      (by rintro u ⟨⟩; exact not_isSymbol_of_ne closing.2 (by decide))
    simp only [Derivation.yield, Derivation.expr, List.cons_append, List.append_assoc, List.nil_append]
    rw [unaryOf_none _ (unaryOp?_opening opening), primaryOf_eq]
    simp only [opening.1.2, he, closing.2, if_true]
  | definedName word n =>
    intro rest
    simp only [Derivation.yield, Derivation.expr, List.cons_append, List.nil_append]
    rw [unaryOf_none _ (unaryOp?_of_isContent (by simp [word.1.2, Token.Kind.isContent])),
      primaryOf_eq]
    simp only [word.1.2, word.2.1, word.2.2, readDefined_name n.2]
    rfl
  | definedGroup word opening n closing =>
    intro rest
    simp only [Derivation.yield, Derivation.expr, List.cons_append, List.nil_append]
    rw [unaryOf_none _ (unaryOp?_of_isContent (by simp [word.1.2, Token.Kind.isContent])),
      primaryOf_eq]
    simp only [word.1.2, word.2.1, word.2.2, readDefined_group opening.2 n.2 closing.2]
    rfl

theorem read_eq (ts : List Token) :
    read allowDefined ts =
      match choiceOf allowDefined ts with
      | (e, []) => e
      | (e, t :: _) => .broken e (.unexpected t.text) := by
  unfold read choiceOf
  cases readChoice allowDefined ts with
  | mk e q =>
    obtain ⟨q, hq⟩ := q
    cases q <;> rfl

theorem read_yield (d : Derivation allowDefined .conditional) :
    read allowDefined d.yield = d.expr := by
  have h : choiceOf allowDefined (d.yield ++ []) = (d.expr, []) :=
    isRead d [] (ends_nil 10) (by rintro u ⟨⟩)
  rw [List.append_nil] at h
  rw [read_eq, h]

end RecordView.Expr
