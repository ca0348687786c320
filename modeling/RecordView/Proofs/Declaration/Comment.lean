import RecordView.Proofs.Declaration.Termination
import RecordView.Proofs.Declaration.Thinning

/-! Comments do not count: a description that is read without an error declares the same without some of
its comments. The two readings may part at the end of a declaration, where a comment hides the semicolon
from the first one; they meet again behind it. -/
namespace RecordView.Declaration
open Reader

namespace Thinning

variable {α : Type} {env : Env} {s s' u u' : State} {t c : Token} {P : State → State → Prop}

/-! ## Statements -/

/-- How the second reading goes on with a statement after which the first one is in the state `s'`. It
ends it likewise; or a semicolon may still follow for it, behind a comment at which the first one has
ended the statement. -/
inductive Ends (env : Env) (m : Reader Unit) (s' u : State) : Prop where
  | whole {u' : State} (ok : m env u = .ok () u') (rel : Rel env s' u')
  | short {q : Reader Unit} {c : Token} {u₁ u₂ : State} (aside : Aside q)
      (rest : m env u = (accept ";" >>= fun _ => q) env u₁) (done : q env u₁ = .ok () u₂)
      (facing : s'.Facing c) (rel : Rel env (s'.take c) u₂)

/-- A statement that both readings end, with or without the semicolon. -/
structure Closes (env : Env) (P : State → State → Prop) (m : Reader Unit) : Prop where
  adv : Advancing m
  ends : ∀ {s u s'}, P s u → m env s = .ok () s' → s'.report.errors = [] → Ends env m s' u

theorem Closes.of_follows {m : Reader Unit} (h : Repeats env P m) : Closes env P m := by
  refine ⟨h.adv, fun hs hok hclean => ?_⟩
  rcases h.meets hs hok hclean with ⟨_, u', hu', -, hrel⟩ | hoff
  · exact .whole hu' hrel
  · exact hoff.elim

theorem Closes.seq {m : Reader α} {f : α → Reader Unit} {P₁ : α → State → State → Prop}
    {Off : α → State → Prop} (hm : Follows env P m m (Same P₁) Off)
    (hf : ∀ a, Closes env (P₁ a) (f a)) (hoff : ∀ a, Strays env (Off a) (f a) never) :
    Closes env P (m >>= f) := by
  refine ⟨hm.adv.bind fun a => (hf a).adv, fun {s u s'} hs h hclean => ?_⟩
  obtain ⟨a, s₁, h₁, h₂⟩ := bind_ok.mp h
  have hclean₁ := ((hf a).adv.of_ok h₂).clean hclean
  rcases hm.meets hs h₁ hclean₁ with ⟨_, u₁, hu₁, rfl, hs₁⟩ | hoff₁
  · cases (hf a).ends hs₁ h₂ hclean with
    | whole ok rel => exact .whole (bind_ok.mpr ⟨a, u₁, hu₁, ok⟩) rel
    | short aside rest done facing rel =>
      refine .short aside ?_ done facing rel
      rw [bind_apply, hu₁]
      exact rest
  · exact (hoff a hoff₁ h₂ hclean).elim

theorem Closes.chain {m : Reader α} {f : α → Reader Unit} {P₁ : α → State → State → Prop}
    (hm : Follows env P m m (Same P₁) never) (hf : ∀ a, Closes env (P₁ a) (f a)) :
    Closes env P (m >>= f) := .seq hm hf fun a => strays_never a (f a)

theorem Closes.ite {p : Prop} [Decidable p] {m n : Reader Unit} (hm : Closes env P m)
    (hn : Closes env P n) : Closes env P (if p then m else n) := by
  split
  · exact hm
  · exact hn

theorem Closes.again {k : Token → Reader Unit} (hk : ∀ t, Closes env (Looked env t) (k t)) (t : Token) :
    Closes env (Looked env t) (peek >>= k) := by
  refine ⟨Advancing.peek.bind fun t => (hk t).adv, fun {s u s'} hs h hclean => ?_⟩
  rw [bind_apply, hs.peek₁] at h
  cases (hk t).ends hs h hclean with
  | whole ok rel => exact .whole (bind_ok.mpr ⟨t, u, hs.peek₂, ok⟩) rel
  | short aside rest done facing rel =>
    refine .short aside ?_ done facing rel
    rw [bind_apply, hs.peek₂]
    exact rest

theorem accept_of_peek (symbol : String) (h : peek env s = .ok t s') :
    accept symbol env s = accept symbol env s' := by
  rw [accept_eq, bind_apply, bind_apply, h, peek_peek h]

/-- The semicolon after a declaration. If the first reading comes to a comment there, it ends the
declaration before it. -/
protected theorem Closes.accept {q : Reader Unit} (hq : Aside q) :
    Closes env (Rel env) (accept ";" >>= fun _ => q) := by
  have haccept : Advancing (accept ";") := tokenPath_advances.accept ";"
  have hfollows : Repeats env (Rel env) q := .aside stays_rel hq
  refine ⟨haccept.bind fun _ => hq.adv, fun {s u s'} hs h hclean => ?_⟩
  obtain ⟨b, s₁, h₁, h₂⟩ := bind_ok.mp h
  have hclean₁ := (hq.adv.of_ok h₂).clean hclean
  obtain ⟨t, s₂, hpeek, -⟩ := bind_ok.mp (accept_eq ";" ▸ h₁)
  rw [accept_of_peek ";" hpeek] at h₁
  rcases hs.peek hpeek ((haccept.of_ok h₁).clean hclean₁) with ⟨u₂, hu₂, hlooked⟩ | ⟨hfacing, hrel⟩
  · rcases (Follows.accept_looked ";" t).meets hlooked h₁ hclean₁ with ⟨_, u₁, hu₁, rfl, hrel₁⟩ | hoff
    · rcases hfollows.meets hrel₁ h₂ hclean with ⟨_, u', hu', -, hrel'⟩ | hoff
      · refine .whole (bind_ok.mpr ⟨b, u₁, ?_, hu'⟩) hrel'
        rw [accept_of_peek ";" hu₂, hu₁]
      · exact hoff.elim
    · exact hoff.elim
  · rw [accept_of_facing hfacing] at h₁
    cases h₁
    -- what ends the declaration does the same in front of the comment and behind it
    obtain ⟨s₃, h₃, hcore⟩ := hq.alike (core_take s₁ t) h₂ hclean
    have hclean₃ : s₃.report.errors = [] := hcore.errors ▸ hclean
    have hplace := samePlace_of_aside hq h₂
    rcases hfollows.meets hrel h₃ hclean₃ with ⟨_, u₂, hu₂, -, hrel₂⟩ | hoff
    · refine .short hq rfl hu₂ (facing_of_samePlace hfacing hplace) ?_
      refine stays_rel.keep hrel₂ ?_ hclean ?_ (.refl u₂)
      · exact ((core_take s' t).symm.trans hcore).trans hrel₂.core
      · exact (hplace.take t).trans (samePlace_of_aside hq h₃).symm
    · exact hoff.elim

theorem Closes.closing (typedef : Bool) (x : Option Draft) : Closes env (Rel env) (closing typedef x) := by
  cases x with
  | none => exact .of_follows (.aside stays_rel .discardClass)
  | some d =>
    cases typedef with
    | false => exact .accept (.closeAggregate d)
    | true => exact .chain (.typedefName d) fun d' => .accept (.closeAggregate d')

theorem Closes.aggregate (form : Form) (typedef : Bool) (t : Token) :
    Closes env (Looked env t) (aggregate form typedef) :=
  .chain (.opening form typedef) fun d =>
    .chain (.members d) fun x => .closing typedef x

theorem Closes.enumeration (t : Token) : Closes env (Looked env t) enumeration := by
  refine .chain .enumOpening fun (keyword, e) => ?_
  refine .chain (.enumMembers keyword e) fun x => ?_
  cases x with
  | none => exact .of_follows (.pure fun s u hs => ⟨rfl, hs⟩)
  | some e =>
    refine .accept ?_
    cases e.name with
    | none => exact .pure ()
    | some name => exact .closeEnum e name

theorem Closes.refuse (location : Location) (p : Problem) :
    Closes env P (refuse location p : Reader Unit) := .of_follows (.throw _ _)

theorem Closes.typedef (t : Token) : Closes env (Looked env t) Reader.typedef := by
  refine .chain .advance fun _ => ?_
  refine .seq (Follows.peek.of_imp fun _ _ h => h.toRel) (fun t => ?_) fun c => ?_
  · exact .ite (.aggregate _ _ t) (.ite (.aggregate _ _ t) (.refuse _ _))
  · intro s a s' hfacing h _
    have hword (text : String) : c.isWord text = false := by
      simp [Token.isWord, hfacing.1]
    rw [hword, hword] at h
    cases h

theorem Closes.statement (t : Token) : Closes env (Looked env t) statement := by
  refine .again (fun t => ?_) t
  refine .ite ?_ (.ite (.of_follows .directive) (.ite ?_ ?_))
  · refine .of_follows (.chain .advance fun _ => ?_)
    exact (Follows.aside stays_even (.comment t)).imp fun _ _ _ _ h => ⟨h.1, h.2.toRel⟩
  · refine .of_follows (.chain .advance fun _ => ?_)
    exact .pure fun s u hs => ⟨rfl, hs.toRel⟩
  · refine .ite (.aggregate _ _ t) (.ite (.aggregate _ _ t) ?_)
    refine .ite (.enumeration t) (.ite (.typedef t) ?_)
    exact .ite (.refuse _ _) (.refuse _ _)

/-! ## Descriptions -/

theorem full_of_clean (h : Advances s s') (hclean : s'.report.errors = []) :
    s'.report.full = s.report.full := by
  rw [Report.full, Report.full, h.limit, hclean, h.clean hclean]

/-- A description goes on the same way after a look at the next token. -/
theorem description_of_peek (hpeek : peek env s = .ok t s') (hlive : s.Live)
    (hfull : s.report.full = false) (hclean : s'.report.errors = []) :
    description env s = description env s' := by
  have hadv := Advancing.peek.of_ok hpeek
  refine rounds_of_round .statementRound hadv hlive ?_
  rw [statementRound_at hfull hpeek,
    statementRound_at ((full_of_clean hadv hclean).trans hfull) (peek_peek hpeek)]

theorem description_of_statement (hpeek : peek env s = .ok t s) (ht : t.kind ≠ .eof) (hlive : s.Live)
    (hfull : s.report.full = false) (h : statement env s = .ok () s') :
    description env s = description env s' ∧ s'.left < s.left := by
  have hround : statementRound () env s = .ok (.again ()) s' := by
    rw [statementRound_attempt hfull hpeek ht]
    refine bind_ok.mpr ⟨(), s', ?_, rfl⟩
    rw [attempt, tryCatch_apply, h]
  have hlt := Consuming.statementRound.left_lt hlive hround
  refine ⟨?_, hlt⟩
  rw [description, rounds, hround]
  dsimp only
  rw [if_pos hlt]

theorem description_of_eof (hpeek : peek env s = .ok t s) (ht : t.kind = .eof)
    (hfull : s.report.full = false) : description env s = .ok () s := by
  have hround : statementRound () env s = .ok (.done ()) s := by
    rw [statementRound_at hfull hpeek, statementAt, if_pos ht]
    rfl
  rw [description, rounds, hround]

theorem description_of_full (hfull : s.report.full = true) : description env s = .ok () s := by
  have hround : statementRound () env s = .ok (.done ()) s := by
    rw [statementRound, get_bind_apply, if_pos hfull]
    rfl
  rw [description, rounds, hround]

/-- A description that goes on without an error reads a statement. -/
theorem statement_of_description {s₁ : State} (hpeek : peek env s = .ok t s) (ht : t.kind ≠ .eof)
    (hfull : s.report.full = false) (h : description env s = .ok () s₁)
    (hclean : s₁.report.errors = []) : ∃ s₂, statement env s = .ok () s₂ ∧
      description env s₂ = .ok () s₁ ∧ s₂.left < s.left ∧ s₂.report.errors = [] := by
  rw [description, rounds, statementRound_attempt hfull hpeek ht] at h
  cases hattempt : attempt t s.taken false () statement env s with
  | error e s₂ =>
    rw [bind_apply, hattempt] at h
    cases h
  | ok a s₂ =>
    rw [bind_apply, hattempt] at h
    change (if s₂.left < s.left then description env s₂ else _) = _ at h
    split at h
    · rename_i hlt
      have hclean₂ := ((Advancing.rounds Consuming.statementRound.adv ()).of_ok h).clean hclean
      exact ⟨s₂, ok_of_attempt hattempt hclean₂, h, hlt, hclean₂⟩
    · cases h

/-- An error in front of the next token is an error at the end. -/
theorem clean_of_description {s₁ : State} (hpeek : peek env s = .ok t s') (hfull : s.report.full = false)
    (h : description env s = .ok () s₁) (hclean : s₁.report.errors = []) : s'.report.errors = [] := by
  have hadv : Advancing (statementAt t s'.taken) :=
    .statementAt t s'.taken
  rw [description, rounds, statementRound_at hfull hpeek] at h
  cases hround : statementAt t s'.taken env s' with
  | error e s₂ =>
    rw [hround] at h
    cases h
  | ok r s₂ =>
    rw [hround] at h
    refine (hadv.of_ok hround).clean ?_
    cases r with
    | done a =>
      cases h
      exact hclean
    | again b =>
      dsimp only at h
      split at h
      · exact ((Advancing.rounds Consuming.statementRound.adv b).of_ok h).clean hclean
      · cases h

/-- A comment between declarations is passed. -/
theorem description_of_facing (env : Env) (h : s.Facing c) (hlive : s.Live) (hfull : s.report.full = false) :
    ∃ s', comment c env (s.take c) = .ok () s' ∧ description env s = description env s' ∧
      s'.left < s.left := by
  have hstatement : statement env s = comment c env (s.take c) := by
    rw [statement, bind_apply, peek_of_facing h]
    dsimp only
    rw [if_pos h.1, bind_apply, advance_of_facing h]
  have hne : c.kind ≠ .eof := by
    rw [h.1]
    decide
  exact ⟨_, rfl, description_of_statement (peek_of_facing h) hne hlive hfull hstatement⟩

/-- How the first reading of a description goes on, as far as the second one is concerned. -/
inductive Next (env : Env) (s u s₁ : State) : Prop where
  | looks {t : Token} {s' u' : State} (peek : peek env u = .ok t u') (looked : Looked env t s' u')
      (rest : description env s' = .ok () s₁) (le : s'.left ≤ s.left)
      (full : s'.report.full = false)
  | waits {s' : State} (rel : Rel env s' u) (rest : description env s' = .ok () s₁)
      (lt : s'.left < s.left) (full : s'.report.full = false)

theorem Rel.next {s₁ : State} (h : Rel env s u) (hfull : s.report.full = false)
    (hok : description env s = .ok () s₁) (hclean : s₁.report.errors = []) : Next env s u s₁ := by
  cases hpeek : Reader.peek env s with
  | error e s' =>
    rw [description, rounds, statementRound, get_bind_apply, hfull, if_neg Bool.false_ne_true,
      bind_apply, hpeek] at hok
    cases hok
  | ok t s' =>
    have hadv := Advancing.peek.of_ok hpeek
    have hclean' := clean_of_description hpeek hfull hok hclean
    have hfull' : s'.report.full = false := (full_of_clean hadv hclean').trans hfull
    have htaken := hadv.taken
    obtain ⟨hlive', hspent⟩ := hadv.live h.live₁
    rw [description_of_peek hpeek h.live₁ hfull hclean'] at hok
    rcases h.peek hpeek hclean' with ⟨u', hu', hlooked⟩ | ⟨hfacing, hrel⟩
    · exact .looks hu' hlooked hok (by omega) hfull'
    · obtain ⟨s₂, hnoted, hrest, hlt⟩ := description_of_facing env hfacing hlive' hfull'
      have hrel₂ := hrel.comment hnoted
      exact .waits hrel₂ (hrest ▸ hok) (by omega) (hrel₂.core.full.trans (h.core.full.symm.trans hfull))

/-! ## The semicolon behind a comment -/

theorem accept_taken {symbol : String} (hpeek : peek env s = .ok t s') (ht : t.isSymbol symbol = true)
    (hne : t.kind ≠ .eof) : accept symbol env s = .ok true (s'.take t) := by
  rw [accept_eq, bind_apply, hpeek]
  dsimp only
  rw [if_pos ht, bind_apply, advance_apply, peek_peek hpeek]
  dsimp only
  rw [if_neg hne]
  rfl

theorem accept_left {symbol : String} (hpeek : peek env s = .ok t s')
    (ht : ¬ (t.isSymbol symbol = true ∧ t.kind ≠ .eof)) : ∃ b, accept symbol env s = .ok b s' := by
  rw [accept_eq, bind_apply, hpeek]
  dsimp only
  split
  · rename_i hsymbol
    have heof : t.kind = .eof := Classical.not_not.mp fun hne => ht ⟨hsymbol, hne⟩
    rw [bind_apply, advance_apply, peek_peek hpeek]
    dsimp only
    rw [if_pos heof]
    exact ⟨true, rfl⟩
  · exact ⟨false, rfl⟩

/-- A semicolon between declarations is passed. -/
theorem statement_semicolon (hpeek : peek env s = .ok t s) (ht : t.isSymbol ";" = true)
    (hne : t.kind ≠ .eof) (h : statement env s = .ok () s') : s' = s.take t := by
  have hcomment : t.kind ≠ .comment := by
    intro hc
    rw [isSymbol_comment hc] at ht
    cases ht
  have htext : t.text = ";" := by
    simp only [Token.isSymbol, Bool.and_eq_true, beq_iff_eq] at ht
    exact ht.2
  have hadvance : advance env s = .ok t (s.take t) := by
    rw [advance_apply, hpeek]
    dsimp only
    rw [if_neg hne]
  rw [statement, bind_apply, hpeek] at h
  dsimp only at h
  rw [if_neg hcomment] at h
  split at h
  · -- no directive is spelled so
    rename_i hkind
    have hdirective : t.directive? ≠ some "pragma" := by
      rw [Token.directive?, if_pos hkind, htext]
      decide
    rw [directive, bind_apply, hadvance] at h
    dsimp only at h
    rw [if_pos hdirective] at h
    cases h
  · rw [bind_apply, hadvance] at h
    cases h
    rfl

/-- What is read from here without an error is read without some comments, too. -/
def Carried (env : Env) (s : State) : Prop :=
  ∀ {u s₁}, Rel env s u → description env s = .ok () s₁ → s₁.report.errors = [] →
    ∃ u₁, description env u = .ok () u₁ ∧ Core s₁ u₁

/-- The same, where the second reading has not yet ended a declaration that the first one has. -/
def Owed (env : Env) (s : State) : Prop :=
  ∀ {q u u' s₁}, Aside q → q env u = .ok () u' → Rel env s u' → s.report.full = false →
    description env s = .ok () s₁ → s₁.report.errors = [] →
    ∃ u₂ u₁, (accept ";" >>= fun _ => q) env u = .ok () u₂ ∧ description env u₂ = .ok () u₁ ∧ Core s₁ u₁

theorem carried_step (ih : ∀ s', s'.left < s.left → Carried env s' ∧ Owed env s') : Carried env s := by
  intro u s₁ hs hok hclean
  cases hfull : s.report.full with
  | true =>
    rw [description_of_full hfull] at hok
    cases hok
    exact ⟨u, description_of_full (hs.core.full ▸ hfull), hs.core⟩
  | false =>
    cases hs.next hfull hok hclean with
    | waits rel rest lt full => exact (ih _ lt).1 rel rest hclean
    | @looks t s' u' hpeek looked rest le full =>
      have hfull' : u'.report.full = false := looked.core.full ▸ full
      have hclean' : u'.report.errors = [] := looked.core.errors ▸ looked.clean
      rw [description_of_peek hpeek hs.live₂ (hs.core.full ▸ hfull) hclean']
      by_cases ht : t.kind = .eof
      · rw [description_of_eof looked.peek₁ ht full] at rest
        cases rest
        exact ⟨u', description_of_eof looked.peek₂ ht hfull', looked.core⟩
      · obtain ⟨s₂, hstatement, rest₂, hlt, hclean₂⟩ :=
          statement_of_description looked.peek₁ ht full rest hclean
        have hlt₂ : s₂.left < s.left := Nat.lt_of_lt_of_le hlt le
        have hcloses : Closes env (Looked env t) statement := .statement t
        cases hcloses.ends looked hstatement hclean₂ with
        | whole ok rel =>
          rw [(description_of_statement looked.peek₂ ht looked.live₂ hfull' ok).1]
          exact (ih s₂ hlt₂).1 rel rest₂ hclean
        | short aside behind done facing rel =>
          have hadv := hcloses.adv.of_ok hstatement
          have hfull₂ : s₂.report.full = false := (full_of_clean hadv hclean₂).trans full
          obtain ⟨s₃, hnoted, heq, hlt₃⟩ :=
            description_of_facing env facing (hadv.live looked.live₁).1 hfull₂
          have hrel₃ := rel.comment hnoted
          have hfull₃ : s₃.report.full = false :=
            (full_of_clean ((Aside.comment _).adv.of_ok hnoted) hrel₃.clean).trans hfull₂
          obtain ⟨u₂, u₁, hrest, hu₁, hends⟩ := (ih s₃ (Nat.lt_trans hlt₃ hlt₂)).2 aside done hrel₃ hfull₃
            (heq ▸ rest₂) hclean
          rw [(description_of_statement looked.peek₂ ht looked.live₂ hfull' (behind.trans hrest)).1]
          exact ⟨u₁, hu₁, hends⟩

/-- What ends a declaration is done elsewhere: at a place where another state is on the track. -/
theorem Rel.ended {q : Reader Unit} {v w : State} (h : Rel env s w) (hq : Aside q)
    (hdone : q env u = .ok () u') (hclean : u'.report.errors = []) (hv : Core u v) (hw : Core u' w)
    (hplace : SamePlace v w) : ∃ v', q env v = .ok () v' ∧ Rel env s v' := by
  obtain ⟨v', hv', hcore⟩ := hq.alike hv hdone hclean
  refine ⟨v', hv', stays_rel.keep h ?_ h.clean (.refl s) ?_⟩
  · exact h.core.trans (hw.symm.trans hcore)
  · exact (samePlace_of_aside hq hv').trans hplace

theorem owed_step (hcarried : ∀ s', s'.left ≤ s.left → Carried env s')
    (ih : ∀ s', s'.left < s.left → Owed env s') : Owed env s := by
  intro q u u' s₁ hq hdone hs hfull hok hclean
  cases hs.next hfull hok hclean with
  | waits rel rest lt full => exact ih _ lt hq hdone rel full rest hclean
  | @looks t s' u'' hpeek looked rest le full =>
    have hcleanu : u'.report.errors = [] := hs.core.errors ▸ hs.clean
    have hclean' : u''.report.errors = [] := looked.core.errors ▸ looked.clean
    obtain ⟨u₁, hu₁, hplace, hcore', hcore⟩ := (samePlace_of_aside hq hdone).peek hpeek hclean'
    by_cases hsemicolon : t.isSymbol ";" = true ∧ t.kind ≠ .eof
    · -- the second reading takes it for the end of the declaration, the first one for a statement
      have haccept : accept ";" env u = .ok true (u₁.take t) :=
        accept_taken hu₁ hsemicolon.1 hsemicolon.2
      obtain ⟨s₂, hstatement, rest₂, hlt, -⟩ :=
        statement_of_description looked.peek₁ hsemicolon.2 full rest hclean
      cases statement_semicolon looked.peek₁ hsemicolon.1 hsemicolon.2 hstatement
      obtain ⟨v, hv, hrel⟩ := (Even.take looked).toRel.ended hq hdone hcleanu
        (hcore.trans (core_take u₁ t)) (hcore'.trans (core_take u'' t)) (hplace.symm.take t)
      obtain ⟨u₂, hu₂, hends⟩ := hcarried _ (Nat.le_trans (Nat.le_of_lt hlt) le) hrel rest₂ hclean
      exact ⟨v, u₂, bind_ok.mpr ⟨true, _, haccept, hv⟩, hu₂, hends⟩
    · obtain ⟨b, haccept⟩ := accept_left hu₁ hsemicolon
      obtain ⟨v, hv, hrel⟩ := looked.toRel.ended hq hdone hcleanu hcore hcore' hplace.symm
      obtain ⟨u₂, hu₂, hends⟩ := hcarried s' le hrel rest hclean
      exact ⟨v, u₂, bind_ok.mpr ⟨b, u₁, haccept, hv⟩, hu₂, hends⟩

/-- Both by induction on what is left to the first reading: a declaration that it ends at a comment leads
from the one to the other, and the next token that is no such comment leads back. -/
theorem carried_and_owed (env : Env) (s : State) : Carried env s ∧ Owed env s := by
  induction hn : s.left using Nat.strongRecOn generalizing s with
  | ind n ih =>
    have hless (s' : State) (hlt : s'.left < n) : Carried env s' ∧ Owed env s' := ih _ hlt s' rfl
    have hcarried (s' : State) (hle : s'.left ≤ n) : Carried env s' :=
      carried_step fun v hv => hless v (Nat.lt_of_lt_of_le hv hle)
    exact ⟨hcarried s (Nat.le_of_eq hn), owed_step (fun s' hle => hcarried s' (hn ▸ hle))
      fun s' hlt => (hless s' (hn ▸ hlt)).2⟩

end Thinning

/-! ## Whole readings -/

theorem Thinning.rel_start (env : Env) {ts us : List Token} (hthins : Thins ts us)
    (hnamed : Token.Named ts) (settings : Settings) (script : Script) (limit : Int) :
    Thinning.Rel env { unread := ts, settings, script, report := { limit } }
      { unread := us, settings, script, report := { limit } } :=
  ⟨⟨rfl, rfl, rfl, rfl, rfl, rfl, rfl⟩, rfl, .level ⟨rfl, rfl, rfl, hthins⟩,
    ⟨fun e he => (by cases he), fun _ => rfl⟩, ⟨fun e he => (by cases he), fun _ => rfl⟩, hnamed⟩

/-- Comments do not count. If a description is read to its end without an error, so it is without any of
its comments, wherever they stand; and then the same types and constants are declared, with the same
settings at the end. The one thing that is asked of the tokens, that no name is spelled `0`, holds of the
tokens of every text. -/
theorem comments_leave_declarations (env : Env) (settings : Settings) (script : Script) (limit : Int) :
    let run (ts : List Token) := read env { unread := ts, settings, script, report := { limit } }
    (∀ ts us, Thins ts us → Token.Named ts → (run ts).2 = none → (run ts).1.report.errors = [] →
      (run us).2 = none ∧ (run us).1.report.errors = [] ∧ (run us).1.registry = (run ts).1.registry ∧
        (run us).1.constants = (run ts).1.constants ∧ (run us).1.settings = (run ts).1.settings) ∧
    ∀ file source ts, Token.scan file source = .ok ts → Token.Named ts := by
  intro run
  refine ⟨fun ts us hthins hnamed hnone hclean => ?_, fun file source ts => Token.named_of_scan⟩
  have hrel := Thinning.rel_start env hthins hnamed settings script limit
  obtain ⟨u₁, hu₁, hends⟩ :=
    (Thinning.carried_and_owed env _).1 hrel (description_of_unfailed hnone) hclean
  have hread : run us = (u₁, none) := by
    show read env _ = _
    unfold read
    rw [hu₁]
  rw [hread]
  exact ⟨rfl, hends.errors.symm.trans hclean, hends.registry.symm, hends.constants.symm,
    hends.settings.symm⟩

/-- A description with comments at many places: before and after a setting, in the body of an enum, in
expressions, in a condition, in front of a member, and between a brace and its semicolon. -/
def commentedText : String :=
  "/**/\n#pragma pack(1) /**/\nenum E \x7b /**/\nA = 1 /**/ + 1, B \x7d /**/ ;\n" ++
    "#if 1 == /**/ 1\nstruct S \x7b\nuint16_t x[/**/ A];\n/**/ uint32_t y;\n\x7d /**/ ;\n#endif\n"

def commentedTokens : List Token :=
  [⟨.comment, "/**/", "", 1, 1⟩, ⟨.directive, "#pragma", "", 2, 1⟩, ⟨.identifier, "pack", "", 2, 9⟩,
   ⟨.blob, "1", "", 2, 13⟩, ⟨.comment, "/**/", "", 2, 17⟩, ⟨.newline, "\n", "", 2, 21⟩,
   ⟨.identifier, "enum", "", 3, 1⟩, ⟨.identifier, "E", "", 3, 6⟩, ⟨.leftBrace, "\x7b", "", 3, 8⟩,
   ⟨.comment, "/**/", "", 3, 10⟩, ⟨.identifier, "A", "", 4, 1⟩, ⟨.assign, "=", "", 4, 3⟩,
   ⟨.number, "1", "", 4, 5⟩, ⟨.comment, "/**/", "", 4, 7⟩, ⟨.operator, "+", "", 4, 12⟩,
   ⟨.number, "1", "", 4, 14⟩, ⟨.comma, ",", "", 4, 15⟩, ⟨.identifier, "B", "", 4, 17⟩,
   ⟨.rightBrace, "\x7d", "", 4, 19⟩, ⟨.comment, "/**/", "", 4, 21⟩, ⟨.semicolon, ";", "", 4, 26⟩,
   ⟨.directive, "#if", "", 5, 1⟩, ⟨.number, "1", "", 5, 5⟩, ⟨.operator, "==", "", 5, 7⟩,
   ⟨.comment, "/**/", "", 5, 10⟩, ⟨.number, "1", "", 5, 15⟩, ⟨.newline, "\n", "", 5, 16⟩,
   ⟨.identifier, "struct", "", 6, 1⟩, ⟨.identifier, "S", "", 6, 8⟩, ⟨.leftBrace, "\x7b", "", 6, 10⟩,
   ⟨.identifier, "uint16_t", "", 7, 1⟩, ⟨.identifier, "x", "", 7, 10⟩, ⟨.leftBracket, "[", "", 7, 11⟩,
   ⟨.comment, "/**/", "", 7, 12⟩, ⟨.identifier, "A", "", 7, 17⟩, ⟨.rightBracket, "]", "", 7, 18⟩,
   ⟨.semicolon, ";", "", 7, 19⟩, ⟨.comment, "/**/", "", 8, 1⟩, ⟨.identifier, "uint32_t", "", 8, 6⟩,
   ⟨.identifier, "y", "", 8, 15⟩, ⟨.semicolon, ";", "", 8, 16⟩, ⟨.rightBrace, "\x7d", "", 9, 1⟩,
   ⟨.comment, "/**/", "", 9, 3⟩, ⟨.semicolon, ";", "", 9, 8⟩, ⟨.directive, "#endif", "", 10, 1⟩,
   ⟨.newline, "\n", "", 10, 7⟩, ⟨.eof, "", "", 11, 1⟩]

/-- Nine comments are dropped. The struct has an array of two numbers and a number after it. -/
theorem comments_leave_declarations_everywhere :
    let run (ts : List Token) := read ⟨"__", fun _ => ""⟩
      { unread := ts, settings := {}, script := {}, report := { limit := 20 } }
    let bare := commentedTokens.filter (·.kind ≠ .comment)
    Token.scan "" commentedText = .ok commentedTokens ∧ Token.Named commentedTokens ∧
      Thins commentedTokens bare ∧ commentedTokens.length = bare.length + 9 ∧
      (run commentedTokens).2 = none ∧ (run commentedTokens).1.report.errors = [] ∧
      (run commentedTokens).1.registry.types.map
          (fun t => (t.name, t.fields.map fun f => (f.name, f.offset))) =
        [("E", []), ("S", [("x", 0), ("y", 4)])] ∧
      (run bare).2 = none ∧ (run bare).1.report.errors = [] ∧
      (run bare).1.registry = (run commentedTokens).1.registry ∧
      (run bare).1.constants = (run commentedTokens).1.constants ∧
      (run bare).1.settings = (run commentedTokens).1.settings := by
  intro run bare
  have hscan : Token.scan "" commentedText = .ok commentedTokens := by
    have htokens : (Token.scan "" commentedText).toOption = some commentedTokens := by decide +kernel
    generalize Token.scan "" commentedText = r at htokens ⊢
    cases r with
    | error d => cases htokens
    | ok ts => rw [Option.some.inj htokens]
  have h := comments_leave_declarations ⟨"__", fun _ => ""⟩ {} {} 20
  have hnamed := h.2 "" commentedText commentedTokens hscan
  have hnone : (run commentedTokens).2 = none := by decide +kernel
  have hclean : (run commentedTokens).1.report.errors = [] := by decide +kernel
  exact ⟨hscan, hnamed, .filter _, by decide +kernel, hnone, hclean, by decide +kernel,
    h.1 commentedTokens bare (.filter _) hnamed hnone hclean⟩

end RecordView.Declaration
