import RecordView.Proofs.Declaration.Progress
import RecordView.Proofs.Reader.Thinning

/-! Two readings of which the second one follows the first: what the one reads without an error, the
other reads without some comments. The rules are for sequences, choices, loops, tokens and expressions. -/
namespace RecordView.Declaration
open Reader

namespace Thinning

variable {α β : Type} {env : Env} {s s' u u' : State} {t c : Token} {P₁ : α → State → State → Prop}
  {Q : α → α → State → State → Prop} {Off : α → State → Prop} {step : β → Reader (Round β α)}

/-! ## Following -/

/-- From states that are related by `P`: if the first reading ends well and without an error, so does
the second, and `Q` relates the two values and states; or the first one has gone off the track, where
`Off` tells what it has then. -/
structure Follows (env : Env) (P : State → State → Prop) (m₁ m₂ : Reader α)
    (Q : α → α → State → State → Prop) (Off : α → State → Prop) : Prop where
  adv : Advancing m₁
  meets : ∀ {s u a s'}, P s u → m₁ env s = .ok a s' → s'.report.errors = [] →
    (∃ b u', m₂ env u = .ok b u' ∧ Q a b s' u') ∨ Off a s'

/-- The same value, and states that are related as the value says. -/
def Same (P : α → State → State → Prop) (a b : α) (s u : State) : Prop := a = b ∧ P a s u

/-- The first reading stays on the track. -/
def never (_ : α) (_ : State) : Prop := False

/-- The second reading does all that the first one does, and ends as that does. -/
abbrev Repeats (env : Env) (P : State → State → Prop) (m : Reader α) : Prop :=
  Follows env P m m (Same fun _ => Rel env) never

def Strays (env : Env) (A : State → Prop) (m : Reader α) (Off : α → State → Prop) : Prop :=
  ∀ {s a s'}, A s → m env s = .ok a s' → s'.report.errors = [] → Off a s'

section Combinators

variable {P P' : State → State → Prop} {m₁ m₂ : Reader α} {f₁ f₂ : α → Reader β}
  {Q : α → α → State → State → Prop} {Q' : β → β → State → State → Prop} {Off : α → State → Prop}
  {Off' : β → State → Prop}

protected theorem Follows.pure {a b : α} (h : ∀ s u, P s u → Q a b s u) :
    Follows env P (pure a) (pure b) Q Off := by
  refine ⟨fun _ s => .refl s, fun {s u _ _} hs heq _ => ?_⟩
  cases heq
  exact .inl ⟨b, u, rfl, h s u hs⟩

protected theorem Follows.throw (e : Halt Diagnostic) (m₂ : Reader α) :
    Follows env P (throw e : Reader α) m₂ Q Off := by
  refine ⟨fun _ s => .refl s, fun _ h _ => ?_⟩
  cases h

theorem strays_never (a : α) (m : Reader β) : Strays env (never a) m Off' := by
  intro _ _ _ h
  exact h.elim

theorem Follows.bind {R : α → α → Prop} (P₁ : α → State → State → Prop)
    (hm : Follows env P m₁ m₂ (fun a b s u => R a b ∧ P₁ a s u) Off) (hrefl : ∀ a, R a a)
    (hf : ∀ a b, R a b → Follows env (P₁ a) (f₁ a) (f₂ b) Q' Off')
    (hoff : ∀ a, Strays env (Off a) (f₁ a) Off') : Follows env P (m₁ >>= f₁) (m₂ >>= f₂) Q' Off' := by
  refine ⟨hm.adv.bind fun a => (hf a a (hrefl a)).adv, fun hs h hclean => ?_⟩
  obtain ⟨a, s₁, h₁, h₂⟩ := bind_ok.mp h
  have hclean₁ := ((hf a a (hrefl a)).adv.of_ok h₂).clean hclean
  rcases hm.meets hs h₁ hclean₁ with ⟨b, u₁, hu₁, hab, hs₁⟩ | hoff₁
  · rcases (hf a b hab).meets hs₁ h₂ hclean with ⟨b', u₂, hu₂, hs₂⟩ | hoff₂
    · exact .inl ⟨b', u₂, bind_ok.mpr ⟨b, u₁, hu₁, hu₂⟩, hs₂⟩
    · exact .inr hoff₂
  · exact .inr (hoff a hoff₁ h₂ hclean)

/-- What follows a value that is the same. -/
theorem Follows.seq (hm : Follows env P m₁ m₂ (Same P₁) Off)
    (hf : ∀ a, Follows env (P₁ a) (f₁ a) (f₂ a) Q' Off') (hoff : ∀ a, Strays env (Off a) (f₁ a) Off') :
    Follows env P (m₁ >>= f₁) (m₂ >>= f₂) Q' Off' := by
  refine .bind P₁ hm (fun _ => rfl) (fun a b hab => ?_) hoff
  cases hab
  exact hf a

/-- What follows a reading that stays on the track. -/
theorem Follows.chain (hm : Follows env P m₁ m₂ (Same P₁) never)
    (hf : ∀ a, Follows env (P₁ a) (f₁ a) (f₂ a) Q' Off') : Follows env P (m₁ >>= f₁) (m₂ >>= f₂) Q' Off' :=
  .seq hm hf fun a => strays_never a (f₁ a)

theorem Follows.map {P₁ : State → State → Prop} (hm : Follows env P m₁ m₂ (Same fun _ => P₁) never)
    (f : α → β) : Follows env P (f <$> m₁) (f <$> m₂) (Same fun _ => P₁) Off' := by
  rw [← bind_pure_comp, ← bind_pure_comp]
  exact .chain hm fun _ => .pure fun s u hs => ⟨rfl, hs⟩

theorem Follows.ite {c : Prop} [Decidable c] {n₁ n₂ : Reader α} (hm : Follows env P m₁ m₂ Q Off)
    (hn : Follows env P n₁ n₂ Q Off) :
    Follows env P (if c then m₁ else n₁) (if c then m₂ else n₂) Q Off := by
  split
  · exact hm
  · exact hn

theorem Follows.of_imp (hm : Follows env P m₁ m₂ Q Off) (hP : ∀ s u, P' s u → P s u) :
    Follows env P' m₁ m₂ Q Off := ⟨hm.adv, fun hs h hclean => hm.meets (hP _ _ hs) h hclean⟩

theorem Follows.imp {Q₁ : α → α → State → State → Prop} (hm : Follows env P m₁ m₂ Q Off)
    (hQ : ∀ a b s u, Q a b s u → Q₁ a b s u) : Follows env P m₁ m₂ Q₁ Off := by
  refine ⟨hm.adv, fun hs h hclean => ?_⟩
  rcases hm.meets hs h hclean with ⟨b, u', hu', hq⟩ | hoff
  · exact .inl ⟨b, u', hu', hQ _ _ _ _ hq⟩
  · exact .inr hoff

theorem Follows.weaken (hm : Follows env P m₁ m₂ Q never) : Follows env P m₁ m₂ Q Off := by
  refine ⟨hm.adv, fun hs h hclean => ?_⟩
  rcases hm.meets hs h hclean with hq | hoff
  · exact .inl hq
  · exact hoff.elim

/-- What was known before is known after. -/
theorem Follows.frame {C : Prop} (hm : Follows env P m₁ m₂ (Same P₁) Off) :
    Follows env (fun s u => C ∧ P s u) m₁ m₂ (Same fun a s u => C ∧ P₁ a s u) Off := by
  refine ⟨hm.adv, fun ⟨hC, hs⟩ h hclean => ?_⟩
  rcases hm.meets hs h hclean with ⟨b, u', hu', hsame, hs'⟩ | hoff
  · exact .inl ⟨b, u', hu', hsame, hC, hs'⟩
  · exact .inr hoff

/-- Where the first reading is refused, nothing is asked of the second. -/
protected theorem Follows.refuse (location : Location) (p : Problem) (k : β → Reader α) (m₂ : Reader α) :
    Follows env P (refuse location p >>= k) m₂ Q Off := by
  refine ⟨fun _ s => .refl s, fun _ h _ => ?_⟩
  cases h

/-- Where the first reading is refused in the end, too. -/
theorem Follows.refused {m : Reader β} (hm : Advancing m) (e : β → Halt Diagnostic) (m₂ : Reader α) :
    Follows env P (m >>= fun b => (throw (e b) : Reader α)) m₂ Q Off := by
  refine ⟨hm.bind fun _ _ s => .refl s, fun _ h _ => ?_⟩
  obtain ⟨_, _, -, h⟩ := bind_ok.mp h
  cases h

/-- A statement that goes on only if it is not refused. -/
theorem Follows.guard {c : Prop} [Decidable c] {location : Location} {p : Problem}
    {k₁ k₂ : Unit → Reader α} (hk : Follows env P (k₁ ()) (k₂ ()) Q Off) :
    Follows env P (if c then refuse location p >>= k₁ else k₁ ())
      (if c then refuse location p >>= k₂ else k₂ ()) Q Off :=
  .ite (.refuse location p k₁ _) hk

/-- A statement that is tried and leaves no error was not refused. -/
theorem ok_of_attempt {fallback a : α} {n : Nat} {commaEnds : Bool} {m : Reader α}
    (h : attempt t n commaEnds fallback m env s = .ok a s') (hclean : s'.report.errors = []) :
    m env s = .ok a s' := by
  rw [attempt, tryCatch_apply] at h
  cases h₁ : m env s with
  | ok b s₁ =>
    rw [h₁] at h
    exact h
  | error e s₁ =>
    rw [h₁] at h
    cases e with
    | failed f => cases h
    | refused d =>
      -- the error that was recorded is still there at the end
      have hrecorded : (s₁.report.add (located env d t)).errors = [] := by
        dsimp only at h
        rw [recover_refused] at h
        obtain ⟨_, s₂, hsync, hs₂⟩ := bind_ok.mp h
        cases hs₂
        exact ((tokenPath_advances.synchronize _ _ _).of_ok hsync).clean hclean
      simp [Report.add] at hrecorded

protected theorem Follows.attempt {fallback₁ fallback₂ : α} {n₁ n₂ : Nat} {commaEnds : Bool}
    (hm : Follows env P m₁ m₂ Q Off) :
    Follows env P (attempt t n₁ commaEnds fallback₁ m₁) (attempt t n₂ commaEnds fallback₂ m₂) Q Off := by
  refine ⟨hm.adv.tryCatch fun e => tokenPath_advances.recover _ _ _ _ e, fun {s u a s'} hs h hclean => ?_⟩
  rcases hm.meets hs (ok_of_attempt h hclean) hclean with ⟨b, u', hu', hq⟩ | hoff
  · refine .inl ⟨b, u', ?_, hq⟩
    rw [attempt, tryCatch_apply, hu']
  · exact .inr hoff

/-- A relation that a reading keeps which does not look at the stream. -/
structure Stays (P : State → State → Prop) : Prop where
  core : ∀ {s u}, P s u → Core s u
  keep : ∀ {s u s' u'}, P s u → Core s' u' → s'.report.errors = [] → SamePlace s' s → SamePlace u' u →
    P s' u'

theorem Follows.aside {m : Reader α} (hP : Stays P) (hm : Aside m) :
    Follows env P m m (Same fun _ => P) Off := by
  refine ⟨hm.adv, fun {s u a s'} hs h hclean => ?_⟩
  obtain ⟨u', hu', hcore⟩ := hm.alike (hP.core hs) h hclean
  exact .inl ⟨a, u', hu', rfl, hP.keep hs hcore hclean (samePlace_of_aside hm h) (samePlace_of_aside hm hu')⟩

/-- What is done may depend on what is declared and set. -/
protected theorem Follows.get (hP : Stays P) {k₁ k₂ : State → Reader α}
    (hk : ∀ s u, Core s u → Follows env P (k₁ s) (k₂ u) Q Off) :
    Follows env P (get >>= k₁) (get >>= k₂) Q Off := by
  refine ⟨fun env s => (hk s s (.refl s)).adv env s, fun {s u _ _} hs h hclean => ?_⟩
  rw [get_bind_apply] at h
  exact (hk s u (hP.core hs)).meets hs h hclean

/-- The numbers of tokens that were taken before a statement do not matter. -/
theorem Follows.taken {k₁ k₂ : Nat → Reader α} (hk : ∀ n₁ n₂, Follows env P (k₁ n₁) (k₂ n₂) Q Off) :
    Follows env P (get >>= fun s => k₁ s.taken) (get >>= fun s => k₂ s.taken) Q Off := by
  refine ⟨fun env s => (hk s.taken 0).adv env s, fun {s u _ _} hs h hclean => ?_⟩
  rw [get_bind_apply] at h
  exact (hk s.taken u.taken).meets hs h hclean

end Combinators

theorem stays_rel : Stays (Rel env) := by
  refine ⟨Rel.core, fun {s u s' u'} h hcore hclean hs hu => ?_⟩
  refine ⟨hcore, hclean, h.beside.move hs hu, hs.live h.live₁, hu.live h.live₂, ?_⟩
  rw [hs.ahead, hs.unread]
  exact h.named

theorem stays_even : Stays (Even env) :=
  ⟨fun h => h.core, fun h hcore hclean hs hu =>
    ⟨stays_rel.keep h.toRel hcore hclean hs hu, h.level.move hs hu⟩⟩

theorem stays_looked (t : Token) : Stays (Looked env t) :=
  ⟨fun h => h.core, fun h hcore hclean hs hu =>
    ⟨stays_even.keep h.toEven hcore hclean hs hu, by rw [hs.ahead, hs.eof, h.next]⟩⟩

/-! ## Tokens -/

protected theorem Follows.peek : Follows env (Rel env) peek peek (Same (Looked env)) fun t s => s.Facing t := by
  refine ⟨.peek, fun hs h hclean => ?_⟩
  rcases hs.peek h hclean with ⟨u', hu', hlooked⟩ | ⟨hfacing, -⟩
  · exact .inl ⟨_, u', hu', rfl, hlooked⟩
  · exact .inr hfacing

/-- What was looked at is looked at again. -/
theorem Follows.again {k₁ k₂ : Token → Reader α} (hk : ∀ t, Follows env (Looked env t) (k₁ t) (k₂ t) Q Off)
    (t : Token) : Follows env (Looked env t) (peek >>= k₁) (peek >>= k₂) Q Off := by
  refine ⟨Advancing.peek.bind fun t => (hk t).adv, fun {s u _ _} hs h hclean => ?_⟩
  rw [bind_apply, hs.peek₁] at h
  rw [bind_apply, hs.peek₂]
  exact (hk t).meets hs h hclean

protected theorem Follows.advance : Follows env (Looked env t) advance advance (Same fun _ => Even env) never := by
  refine ⟨.advance, fun {s u a s'} hs h _ => ?_⟩
  rw [advance_apply, hs.peek₁] at h
  rw [advance_apply, hs.peek₂]
  dsimp only at h ⊢
  split at h
  · rename_i ht
    cases h
    rw [if_pos ht]
    exact .inl ⟨_, _, rfl, rfl, hs.toEven⟩
  · rename_i ht
    cases h
    rw [if_neg ht]
    exact .inl ⟨_, _, rfl, rfl, Even.take hs⟩

/-- In front of a comment that only the first reading has. -/
def facing (b : Bool) (s : State) : Prop := b = false ∧ ∃ c, s.Facing c

protected theorem Follows.check (symbol : String) :
    Follows env (Rel env) (check symbol) (check symbol)
      (Same fun b s u => ∃ t, t.isSymbol symbol = b ∧ Looked env t s u) facing := by
  refine .seq .peek (fun t => .pure fun s u hs => ⟨rfl, t, rfl, hs⟩) ?_
  intro t s b s' hfacing h _
  cases h
  exact ⟨isSymbol_comment hfacing.1 symbol, t, hfacing⟩

theorem Follows.of_exists {P : Token → State → State → Prop} {m₁ m₂ : Reader α}
    (hm : ∀ t, Follows env (P t) m₁ m₂ Q Off) : Follows env (fun s u => ∃ t, P t s u) m₁ m₂ Q Off :=
  ⟨(hm endOfStream).adv, fun ⟨t, hs⟩ h hclean => (hm t).meets hs h hclean⟩

/-- What comes after a token was looked at. -/
theorem Follows.looked {C : Token → Prop} {m₁ m₂ : Reader α}
    (hm : ∀ t, Follows env (Looked env t) m₁ m₂ Q Off) :
    Follows env (fun s u => ∃ t, C t ∧ Looked env t s u) m₁ m₂ Q Off :=
  .of_exists fun t => (hm t).of_imp fun _ _ h => h.2

theorem accept_eq (symbol : String) : accept symbol = (do
    let t ← peek
    if t.isSymbol symbol then
      let _ ← advance
      return true
    else return false) := by
  simp only [accept, check, bind_assoc, pure_bind]

theorem Follows.accept_looked (symbol : String) (t : Token) : Repeats env (Looked env t) (accept symbol) := by
  rw [accept_eq]
  refine .again (fun t => .ite ?_ ?_) t
  · exact .chain .advance fun _ => .pure fun s u hs => ⟨rfl, hs.toRel⟩
  · exact .pure fun s u hs => ⟨rfl, hs.toRel⟩

protected theorem Follows.accept (symbol : String) :
    Follows env (Rel env) (accept symbol) (accept symbol) (Same fun _ => Rel env) facing := by
  rw [accept_eq]
  refine .seq .peek (fun t => .ite ?_ ?_) ?_
  · exact .chain .advance fun _ => .pure fun s u hs => ⟨rfl, hs.toRel⟩
  · exact .pure fun s u hs => ⟨rfl, hs.toRel⟩
  · intro c s a s' hfacing h _
    rw [isSymbol_comment hfacing.1] at h
    cases h
    exact ⟨rfl, c, hfacing⟩

theorem Follows.expectAs (symbol : String) (wanted : Wanted) :
    Follows env (Rel env) (expectAs symbol wanted) (expectAs symbol wanted) (Same fun _ => Even env)
      never := by
  refine .seq (.check symbol) (fun b => .looked fun t => .ite ?_ ?_) ?_
  · exact .advance
  · exact .again (fun t => .throw _ _) t
  · rintro b s a s' ⟨rfl, -⟩ h _
    obtain ⟨_, _, -, h⟩ := bind_ok.mp h
    cases h

theorem Follows.expectName (wanted : Wanted) :
    Follows env (Rel env) (expectName wanted) (expectName wanted) (Same fun _ => Even env) never := by
  refine .seq .peek (fun t => .ite .advance (.throw _ _)) ?_
  intro t s a s' hfacing h _
  rw [if_neg (by rw [hfacing.1]; decide)] at h
  cases h

/-! ## Loops -/

inductive Matches (env : Env) (R : β → β → Prop) (Q : α → α → State → State → Prop) :
    Round β α → Round β α → State → State → Prop where
  | again {b b' : β} {s u : State} (draft : R b b') (rel : Rel env s u) :
      Matches env R Q (.again b) (.again b') s u
  | done {a a' : α} {s u : State} (result : Q a a' s u) : Matches env R Q (.done a) (.done a') s u

/-- What a round of the first reading does: it takes a comment that the second one does not have and
leaves the draft as it is for that one, or the second one has such a round too. -/
inductive Paces (env : Env) (R : β → β → Prop) (Q : α → α → State → State → Prop)
    (step : β → Reader (Round β α)) (b : β) (u : State) : Round β α → State → Prop where
  | waits {b' : β} {s' : State} (draft : R b' b) (rel : Rel env s' u) :
      Paces env R Q step b u (.again b') s'
  | goes {r r' : Round β α} {s' u' : State} (round : step b env u = .ok r' u')
      (ends : Matches env R Q r r' s' u') : Paces env R Q step b u r s'

protected theorem Follows.rounds {R : β → β → Prop} (hcons : Consuming step)
    (hstep : ∀ {b₁ b₂ s u r s'}, R b₁ b₂ → Rel env s u → step b₁ env s = .ok r s' →
      s'.report.errors = [] → Paces env R Q step b₂ u r s')
    {b₁ b₂ : β} (hb : R b₁ b₂) : Follows env (Rel env) (rounds step b₁) (rounds step b₂) Q never := by
  refine ⟨Advancing.rounds hcons.adv b₁, fun {s u a s'} hs h hclean => .inl ?_⟩
  -- on what is left of the first stream, since the second reading may wait
  induction hn : s.left using Nat.strongRecOn generalizing b₁ b₂ s u with
  | ind n ih =>
    rw [rounds] at h
    cases hround : step b₁ env s with
    | error e s₁ =>
      rw [hround] at h
      cases h
    | ok r s₁ =>
      rw [hround] at h
      cases r with
      | done x =>
        cases h
        cases hstep hb hs hround hclean with
        | goes hround' ends =>
          cases ends with
          | done result =>
            refine ⟨_, _, ?_, result⟩
            rw [rounds, hround']
      | again b =>
        dsimp only at h
        split at h
        · rename_i hlt
          have hclean₁ := ((Advancing.rounds hcons.adv b).of_ok h).clean hclean
          cases hstep hb hs hround hclean₁ with
          | waits draft rel => exact ih _ (hn ▸ hlt) draft rel h rfl
          | goes hround' ends =>
            cases ends with
            | again draft rel =>
              obtain ⟨a', u', hu', hq⟩ := ih _ (hn ▸ hlt) draft rel h rfl
              refine ⟨a', u', ?_, hq⟩
              rw [rounds, hround']
              dsimp only
              rw [if_pos (hcons.left_lt hs.live₂ hround'), hu']
        · cases h

/-- A round that starts with a look at the next token. -/
theorem paces_peek {R : β → β → Prop} {k₁ k₂ : Token → Reader (Round β α)} {b : β} {r : Round β α}
    (hk : ∀ t, Follows env (Looked env t) (k₁ t) (k₂ t) (Matches env R Q) never)
    (hwait : ∀ {c s₁}, s₁.Facing c → Rel env (s₁.take c) u → k₁ c env s₁ = .ok r s' →
      Paces env R Q step b u r s')
    (hstep : step b env u = (Reader.peek >>= k₂) env u) (hs : Rel env s u)
    (h : (Reader.peek >>= k₁) env s = .ok r s') (hclean : s'.report.errors = []) :
    Paces env R Q step b u r s' := by
  obtain ⟨t, s₁, hpeek, h⟩ := bind_ok.mp h
  have hclean₁ := ((hk t).adv.of_ok h).clean hclean
  rcases hs.peek hpeek hclean₁ with ⟨u₁, hu₁, hlooked⟩ | ⟨hfacing, hrel⟩
  · rcases (hk t).meets hlooked h hclean with ⟨r', u', hu', hends⟩ | hoff
    · refine .goes ?_ hends
      rw [hstep]
      exact bind_ok.mpr ⟨t, u₁, hu₁, hu'⟩
    · exact hoff.elim
  · exact hwait hfacing hrel h

/-- A loop goes the same way from where its first round does. -/
theorem rounds_of_round (hcons : Consuming step) {b : β} (hadv : Advances s s') (hlive : s.Live)
    (hround : step b env s = step b env s') : rounds step b env s = rounds step b env s' := by
  rw [rounds, rounds, hround]
  cases h : step b env s' with
  | error e v => rfl
  | ok r v =>
    cases r with
    | done a => rfl
    | again b' =>
      obtain ⟨hlive', hspent⟩ := hadv.live hlive
      have hlt := hcons.left_lt hlive' h
      have htaken := hadv.taken
      have hle : s'.left ≤ s.left := by omega
      dsimp only
      rw [if_pos hlt, if_pos (Nat.lt_of_lt_of_le hlt hle)]

/-! ## Expressions -/

theorem Follows.advance_named : Follows env (Looked env t) advance advance
    (Same fun _ s u => Token.Named [t] ∧ Even env s u) never := by
  refine ⟨.advance, fun hs h hclean => ?_⟩
  rcases Follows.advance.meets hs h hclean with ⟨_, u', hu', rfl, heven⟩ | hoff
  · exact .inl ⟨_, u', hu', rfl, hs.named_next, heven⟩
  · exact hoff.elim

/-- The tokens of an expression that were taken, the second time without some comments. -/
structure Gathered (b₁ b₂ : Nat × List Token) : Prop where
  depth : b₁.1 = b₂.1
  thins : Thins b₁.2 b₂.2
  named : Token.Named b₁.2

protected theorem Follows.collect (stops : List String) :
    Follows env (Rel env) (collect stops) (collect stops)
      (fun ts us s u => Thins ts us ∧ Token.Named ts ∧ Rel env s u) never := by
  refine .rounds (R := Gathered) (.collectRound stops) ?_ ⟨rfl, .nil, .nil⟩
  rintro ⟨depth, ts⟩ ⟨_, us⟩ s u r s' ⟨rfl, hthins, hnamed⟩ hs h hclean
  refine paces_peek (fun t => ?_) (fun {c s₁} hfacing hrel h => ?_) rfl hs h hclean
  · refine .ite (.pure fun s u hs => .done ⟨hthins, hnamed, hs.toRel⟩)
      (.ite (.pure fun s u hs => .done ⟨hthins, hnamed, hs.toRel⟩) ?_)
    refine .chain .advance_named fun _ => .pure fun s u ⟨ht, hs⟩ => ?_
    exact .again ⟨rfl, hthins.append (.refl [t]), hnamed.append ht⟩ hs.toRel
  · have hcomment := hfacing.1
    have hany : ¬ (depth = 0 ∧ stops.any c.isSymbol = true) := by
      simp [isSymbol_comment hcomment]
    rw [if_neg (by simp [hcomment]), if_neg hany, bind_apply, advance_of_facing hfacing] at h
    simp only [isSymbol_comment hcomment] at h
    cases h
    refine .waits ⟨rfl, ?_, hnamed.append (.cons (by simp [hcomment]) .nil)⟩ hrel
    simpa using hthins.append (.drop hcomment .nil)

/-- What follows an expression. -/
theorem Follows.bind_collect {f₁ f₂ : List Token → Reader β} {Q : β → β → State → State → Prop}
    {Off : β → State → Prop} {m : Reader (List Token)}
    (hm : Follows env (Rel env) m m (fun ts us s u => Thins ts us ∧ Token.Named ts ∧ Rel env s u) never)
    (hf : ∀ ts us, Thins ts us →
      Follows env (fun s u => Token.Named ts ∧ Rel env s u) (f₁ ts) (f₂ us) Q Off) :
    Follows env (Rel env) (m >>= f₁) (m >>= f₂) Q Off :=
  .bind (fun ts s u => Token.Named ts ∧ Rel env s u) hm .refl hf
    fun ts => strays_never ts (f₁ ts)

/-- A look at the first token of an expression makes no difference. -/
theorem collect_of_peek {symbol : String} {stops : List String} {us : List Token} (hlive : s.Live) :
    (check symbol >>= fun _ => collect stops) env s = .ok us s' ↔ collect stops env s = .ok us s' := by
  have hsame {t : Token} {s₁ : State} (hpeek : peek env s = .ok t s₁) :
      collect stops env s = collect stops env s₁ := by
    refine rounds_of_round (.collectRound stops) (Advancing.peek.of_ok hpeek) hlive ?_
    rw [collectRound, bind_apply, bind_apply, hpeek, peek_peek hpeek]
  constructor
  · intro h
    obtain ⟨_, s₁, hcheck, h⟩ := bind_ok.mp h
    obtain ⟨t, _, hpeek, hcheck⟩ := bind_ok.mp hcheck
    cases hcheck
    rw [hsame hpeek, h]
  · intro h
    cases hpeek : peek env s with
    | error e s₁ =>
      rw [collect, rounds, collectRound, bind_apply, hpeek] at h
      cases h
    | ok t s₁ =>
      refine bind_ok.mpr ⟨t.isSymbol symbol, s₁, bind_ok.mpr ⟨t, s₁, hpeek, rfl⟩, ?_⟩
      rw [← hsame hpeek, h]

/-- An expression that was looked at, and what follows it. -/
theorem Follows.check_collect (symbol : String) {stops : List String} {f₁ f₂ : List Token → Reader β}
    {Q : β → β → State → State → Prop} {Off : β → State → Prop}
    (hf : ∀ ts us, Thins ts us →
      Follows env (fun s u => Token.Named ts ∧ Rel env s u) (f₁ ts) (f₂ us) Q Off) :
    Follows env (Rel env) (check symbol >>= fun _ => collect stops >>= f₁)
      (check symbol >>= fun _ => collect stops >>= f₂) Q Off := by
  have hcollect : Follows env (Rel env) (collect stops) (collect stops) _ never := .collect stops
  have hlook : Follows env (Rel env) (check symbol >>= fun _ => collect stops)
      (check symbol >>= fun _ => collect stops)
      (fun ts us s u => Thins ts us ∧ Token.Named ts ∧ Rel env s u) never := by
    refine ⟨Advancing.bind (tokenPath_advances.check symbol) fun _ => hcollect.adv, fun hs h hclean => ?_⟩
    rw [collect_of_peek hs.live₁] at h
    rcases hcollect.meets hs h hclean with ⟨us, u', hu', hq⟩ | hoff
    · exact .inl ⟨us, u', (collect_of_peek hs.live₂).mpr hu', hq⟩
    · exact hoff.elim
  have hall := Follows.bind_collect hlook hf
  simpa only [bind_assoc] using hall

end Thinning
end RecordView.Declaration
