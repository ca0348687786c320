import RecordView.Proofs.Layout.Relabel
import RecordView.Proofs.Reader.Triple

/-! Two readings side by side, and what the first one keeps by itself. What holds of every step holds of
a whole reading: this is said here once, for all that may be compared or kept. -/
namespace RecordView.Declaration
open Reader

/-- What is compared. In the states with `rel` the two readings are at the same point of statements that
started after so many tokens; in those with `keep` the first one goes on by itself. -/
structure Comparison where
  env₁ : Env
  env₂ : Env
  rel : Nat × Nat → State → State → Prop
  keep : State → Prop
  /-- How the first reading may fail by itself. -/
  fails : Failure → State → Prop
  /-- Whether the first one may fail where the second one does not. -/
  loose₁ : Prop
  /-- Whether the second one may fail where the first one does not. -/
  loose₂ : Prop
  refusal : Diagnostic → Diagnostic → Prop
  /-- How the places of the first reading are changed to those of the second. -/
  labels : Relabeling
  /-- What is known of the place of every token. -/
  place : Location → Prop
  /-- What is known of two states where settings, types and constants are looked up. -/
  alike : State → State → Prop
  around : Surroundings → Surroundings → Prop
  draft : Draft → Draft → Prop
  type : TypeInfo → TypeInfo → Prop
  /-- What is known of every constant. -/
  value : Constant → Prop

namespace Comparison

variable (C : Comparison) {α β : Type}

inductive Outcome (i : Nat × Nat) (V : α → α → Prop) :
    EStateM.Result (Halt Diagnostic) State α → EStateM.Result (Halt Diagnostic) State α → Prop where
  | ok {a a' : α} {s s' : State} (value : V a a') (rel : C.rel i s s') : Outcome i V (.ok a s) (.ok a' s')
  | refused {d d' : Diagnostic} {s s' : State} (refusal : C.refusal d d') (rel : C.rel i s s') :
      Outcome i V (.error (.refused d) s) (.error (.refused d') s')
  | failed (f : Failure) {s s' : State} (rel : C.rel i s s') :
      Outcome i V (.error (.failed f) s) (.error (.failed f) s')
  | apart {r r' : EStateM.Result (Halt Diagnostic) State α}
      (kept : Expected (fun a s => C.keep s ∧ ∃ a', V a a') (fun d s => C.keep s ∧ ∃ d', C.refusal d d')
        C.fails r) : Outcome i V r r'
  | failed₁ {f : Failure} {s : State} {r : EStateM.Result (Halt Diagnostic) State α} (loose : C.loose₁) :
      Outcome i V (.error (.failed f) s) r
  | failed₂ {f : Failure} {s : State} {r : EStateM.Result (Halt Diagnostic) State α} (loose : C.loose₂) :
      Outcome i V r (.error (.failed f) s)

/-- The two readings do alike, with values that are related by `V`, and the first one keeps what it has to
keep. -/
structure Judge (i : Nat × Nat) (V : α → α → Prop) (m m' : Reader α) : Prop where
  kept : Triple C.env₁ C.keep m (fun a s => C.keep s ∧ ∃ a', V a a')
    (fun d s => C.keep s ∧ ∃ d', C.refusal d d') C.fails
  meets : ∀ {s s'}, C.rel i s s' → C.Outcome i V (m C.env₁ s) (m' C.env₂ s')

def Corresponds (t t' : Token) : Prop := t' = t.relabel C.labels ∧ C.place t.location

def Restates (f f' : FieldStatement) : Prop :=
  f' = f.relabel C.labels ∧ C.place f.type.location ∧ C.place f.name.location

/-- A loop stalls only where the first reading may fail so. -/
def Goes (step : β → Reader (Round β α)) : Prop :=
  ∀ b s b' s', (C.keep s ∨ ∃ i u, C.rel i s u) → C.keep s' → step b C.env₁ s = .ok (.again b') s' →
    ¬ s'.left < s.left → C.fails .stalled s'

inductive RoundRel (W : β → β → Prop) (V : α → α → Prop) : Round β α → Round β α → Prop where
  | again {b b' : β} (h : W b b') : RoundRel W V (.again b) (.again b')
  | done {a a' : α} (h : V a a') : RoundRel W V (.done a) (.done a')

variable {C} {i j : Nat × Nat} {V V' : α → α → Prop} {W : β → β → Prop} {m m' n n' : Reader α}
  {f f' : α → Reader β} {step step' : β → Reader (Round β α)}

theorem Outcome.of_rel {r r' : EStateM.Result (Halt Diagnostic) State α} (h : C.Outcome j V r r')
    (hrel : ∀ {s s'}, C.rel j s s' → C.rel i s s') : C.Outcome i V r r' := by
  cases h with
  | ok value rel => exact .ok value (hrel rel)
  | refused refusal rel => exact .refused refusal (hrel rel)
  | failed f rel => exact .failed f (hrel rel)
  | apart kept => exact .apart kept
  | failed₁ loose => exact .failed₁ loose
  | failed₂ loose => exact .failed₂ loose

namespace Judge

/-! ## Sequences -/

theorem pure {a a' : α} (h : V a a') : C.Judge i V (pure a) (pure a') :=
  ⟨Triple.pure fun _ hs => ⟨hs, a', h⟩, fun hs => .ok h hs⟩

theorem bind (hm : C.Judge i V m m') (hf : ∀ a a', V a a' → C.Judge i W (f a) (f' a')) :
    C.Judge i W (m >>= f) (m' >>= f') := by
  have hrest (a : α) : Triple C.env₁ (fun s => C.keep s ∧ ∃ a', V a a') (f a) _ _ _ :=
    fun s ⟨hs, a', h⟩ => (hf a a' h).kept s hs
  refine ⟨Triple.bind hm.kept hrest, fun {s s'} hs => ?_⟩
  have h := hm.meets hs
  rw [bind_apply, bind_apply]
  generalize m C.env₁ s = r at h ⊢
  generalize m' C.env₂ s' = r' at h ⊢
  cases h with
  | ok value rel => exact (hf _ _ value).meets rel
  | refused refusal rel => exact .refused refusal rel
  | failed f rel => exact .failed f rel
  | failed₁ loose => exact .failed₁ loose
  | failed₂ loose => exact .failed₂ loose
  | apart kept =>
    -- what comes after the first reading is by itself is by itself
    refine .apart ?_
    cases r with
    | ok a s₁ => exact hrest a s₁ kept
    | error e s₁ => cases e <;> exact kept

/-- What follows a value that is the same. -/
theorem seq (hm : C.Judge i Eq m m') (hf : ∀ a, C.Judge i W (f a) (f' a)) :
    C.Judge i W (m >>= f) (m' >>= f') := by
  refine hm.bind fun a a' h => ?_
  subst h
  exact hf a

/-- What follows a value that nothing depends on. -/
theorem after {k k' : Reader β} (hm : C.Judge i V m m') (hk : C.Judge i W k k') :
    C.Judge i W (m >>= fun _ => k) (m' >>= fun _ => k') := hm.bind fun _ _ _ => hk

/-- Each branch knows which way the condition went. -/
theorem cases {c : Prop} [Decidable c] (hm : c → C.Judge i V m m') (hn : ¬ c → C.Judge i V n n') :
    C.Judge i V (if c then m else n) (if c then m' else n') := by
  split
  · rename_i hc
    exact hm hc
  · rename_i hc
    exact hn hc

theorem ite {c : Prop} [Decidable c] (hm : C.Judge i V m m') (hn : C.Judge i V n n') :
    C.Judge i V (if c then m else n) (if c then m' else n') := cases (fun _ => hm) fun _ => hn

theorem refused {d d' : Diagnostic} (h : C.refusal d d') :
    C.Judge i V (throw (.refused d)) (throw (.refused d')) :=
  ⟨fun _ hs => ⟨hs, d', h⟩, fun hs => .refused h hs⟩

theorem forM {v : α → α} {f f' : α → Reader PUnit} (as : List α)
    (hf : ∀ a ∈ as, C.Judge i Eq (f a) (f' (v a))) : C.Judge i Eq (as.forM f) ((as.map v).forM f') := by
  induction as with
  | nil => exact pure rfl
  | cons a as ih =>
    exact (hf a List.mem_cons_self).seq fun _ => ih fun b hb => hf b (List.mem_cons_of_mem a hb)

/-! ## Loops -/

theorem kept_rounds (hgoes : C.Goes step)
    (hstep : ∀ b b', W b b' → C.Judge i (RoundRel W V) (step b) (step' b')) (b : β) :
    Triple C.env₁ (fun s => C.keep s ∧ ∃ b', W b b') (Reader.rounds step b)
      (fun a s => C.keep s ∧ ∃ a', V a a') (fun d s => C.keep s ∧ ∃ d', C.refusal d d') C.fails := by
  refine Triple.rounds (I := fun b s => C.keep s ∧ ∃ b', W b b') (fun b s ⟨hs, b', hb⟩ => ?_)
    (fun b s b₁ s₁ ⟨hs, b', hb⟩ hround hleft => ?_) b
  · refine ((hstep b b' hb).kept.imp (fun _ h => h) (fun r s₁ hr => ?_) fun _ _ h => h) s hs
    obtain ⟨hs₁, _, hr⟩ := hr
    cases hr with
    | again h => exact ⟨hs₁, _, h⟩
    | done h => exact ⟨hs₁, _, h⟩
  · exact hgoes b s b₁ s₁ (.inl hs) ((hstep b b' hb).kept.of_ok hs hround).1 hround hleft

theorem rounds (hleft : ∀ {s s' u u'}, C.rel i s s' → C.rel i u u' → (u.left < s.left ↔ u'.left < s'.left))
    (hgoes : C.Goes step) (hstep : ∀ b b', W b b' → C.Judge i (RoundRel W V) (step b) (step' b')) {b b' : β}
    (hb : W b b') : C.Judge i V (Reader.rounds step b) (Reader.rounds step' b') := by
  refine ⟨fun s hs => kept_rounds hgoes hstep b s ⟨hs, b', hb⟩, fun {s s'} hs => ?_⟩
  -- on the tokens that are left, of which each round that goes on takes one
  induction hn : s.left using Nat.strongRecOn generalizing b b' s s' with
  | ind n ih =>
  have h := (hstep b b' hb).meets hs
  rw [Reader.rounds, Reader.rounds]
  generalize hr : step b C.env₁ s = r at h ⊢
  generalize step' b' C.env₂ s' = r' at h ⊢
  cases h with
  | refused refusal rel => exact .refused refusal rel
  | failed f rel => exact .failed f rel
  | failed₁ loose => exact .failed₁ loose
  | failed₂ loose => exact .failed₂ loose
  | @ok x x' s₁ s₁' value rel =>
    cases value with
    | done h => exact .ok h rel
    | again h =>
      dsimp only
      by_cases hlt : s₁.left < s.left
      · rw [if_pos hlt, if_pos ((hleft hs rel).mp hlt)]
        exact ih s₁.left (hn ▸ hlt) h rel rfl
      · rw [if_neg hlt, if_neg (mt (hleft hs rel).mpr hlt)]
        exact .failed _ rel
  | apart kept =>
    refine .apart ?_
    cases r with
    | error e s₁ => cases e <;> exact kept
    | ok x s₁ =>
      obtain ⟨hs₁, _, hx⟩ := kept
      cases hx with
      | done h => exact ⟨hs₁, _, h⟩
      | again h =>
        dsimp only
        split
        · exact kept_rounds hgoes hstep _ s₁ ⟨hs₁, _, h⟩
        · rename_i hlt
          exact hgoes b s _ s₁ (.inr ⟨i, s', hs⟩) hs₁ hr hlt

end Judge

/-! ## Tokens -/

/-- No loop stalls where the first reading may not fail so. -/
structure Loops (C : Comparison) : Prop where
  collect : ∀ stops, C.Goes (collectRound stops)
  skip : ∀ line commaEnds, C.Goes (skipRound line commaEnds)
  comment : C.Goes commentRound
  nested : C.Goes nestedRound
  member : C.Goes memberRound
  enum : ∀ keyword, C.Goes (enumRound keyword)
  statement : C.Goes statementRound

theorem Loops.of_fails (h : ∀ s, C.keep s → C.fails .stalled s) : C.Loops := by
  have hgoes {α β : Type} (step : β → Reader (Round β α)) : C.Goes step :=
    fun _ _ _ s' _ hs' _ _ => h s' hs'
  exact ⟨fun _ => hgoes _, fun _ _ => hgoes _, hgoes _, hgoes _, hgoes _, fun _ => hgoes _, hgoes _⟩

structure SameShape (d d' : Draft) : Prop where
  name : d.name = d'.name
  form : d.form = d'.form
  discarded : d.discarded = d'.discarded
  inUnion : d.inUnion = d'.inUnion
  inAnonymousUnion : d.inAnonymousUnion = d'.inAnonymousUnion

structure SameSize (t t' : TypeInfo) : Prop where
  name : t.name = t'.name
  form : t.form = t'.form
  byteLength : t.byteLength = t'.byteLength
  alignment : t.alignment = t'.alignment

structure Agrees (C : Comparison) : Prop where
  left : ∀ {i s s' u u'}, C.rel i s s' → C.rel i u u' → (u.left < s.left ↔ u'.left < s'.left)
  full : ∀ {i s s'}, C.rel i s s' → C.keep s ∨ s.report.full = s'.report.full
  start : ∀ {i s s'}, C.rel i s s' → C.rel (s.taken, s'.taken) s s'
  back : ∀ {i s s' u u'}, C.rel i s s' → C.rel (s.taken, s'.taken) u u' → C.rel i u u'
  untouched : ∀ {i s s'}, C.rel i s s' → (s.taken = i.1 ↔ s'.taken = i.2)
  last : ∀ {i s s'} commaEnds, C.rel i s s' → s.taken ≠ i.1 →
    s.last.any (endsStatement commaEnds) = s'.last.any (endsStatement commaEnds)
  later : ∀ m n, C.labels.line m < C.labels.line n ↔ m < n
  alike_self : ∀ {s}, C.keep s → C.alike s s
  alike_rel : ∀ {i s s'}, C.rel i s s' → C.alike s s'
  constants : ∀ {s s'}, C.alike s s' → s.constants = s'.constants
  taken : ∀ {s s'} name, C.alike s s' → s.registry.taken name = s'.registry.taken name
  shape : ∀ {d d'}, C.draft d d' → SameShape d d'
  place : ∀ {d d'}, C.draft d d' → d'.location = C.labels.place d.location
  size : ∀ {t t'}, C.type t t' → SameSize t t'
  finish : ∀ {s s' d d'} name, C.alike s s' → C.draft d d' →
    Option.Rel C.type (d.finish s.settings name) (d'.finish s'.settings name)
  finishEnum : ∀ {s s'} e name, C.alike s s' →
    C.type (EnumDraft.finish s.settings e name) (EnumDraft.finish s'.settings e name)

structure Tokens (C : Comparison) : Prop extends Agrees C where
  loops : C.Loops
  peek : ∀ {i}, C.Judge i C.Corresponds peek peek
  peekSecond : ∀ {i}, C.Judge i (fun t t' => t' = t.relabel C.labels) peekSecond peekSecond
  advance : ∀ {i}, C.Judge i C.Corresponds advance advance
  log : ∀ {i} n, C.Judge i Eq (log n) (log (n.relabel C.labels))
  refusal : ∀ {l} p, C.place l →
    C.refusal ⟨p, some l, none⟩ ⟨p.relabel C.labels, some (C.labels.place l), none⟩
  surroundings : ∀ {i}, C.Judge i C.around surroundings surroundings
  evaluate : ∀ {i u u' l} ts, C.around u u' → C.place l →
    C.Judge i (fun c c' => c = c' ∧ C.value c) (orThrow (Expr.evaluate u.scope false ts (some l)))
      (orThrow (Expr.evaluate u'.scope false (ts.map (·.relabel C.labels)) (some (C.labels.place l))))
  int : ∀ n, C.value (.int n)

namespace Tokens

variable (hC : C.Tokens) {t : Token}
include hC

/-- What follows the next token. -/
theorem look {f f' : Token → Reader α}
    (hf : ∀ t, C.place t.location → C.Judge i V (f t) (f' (t.relabel C.labels))) :
    C.Judge i V (Reader.peek >>= f) (Reader.peek >>= f') :=
  hC.peek.bind fun t _ ht => ht.1 ▸ hf t ht.2

theorem take {f f' : Token → Reader α}
    (hf : ∀ t, C.place t.location → C.Judge i V (f t) (f' (t.relabel C.labels))) :
    C.Judge i V (Reader.advance >>= f) (Reader.advance >>= f') :=
  hC.advance.bind fun t _ ht => ht.1 ▸ hf t ht.2

theorem refuse (ht : C.place t.location) (p : Problem) :
    C.Judge i V (Reader.refuse t.location p)
      (Reader.refuse (t.relabel C.labels).location (p.relabel C.labels)) := by
  rw [t.location_relabel]
  exact .refused (hC.refusal p ht)

/-- A statement that goes on only if it is not refused. -/
theorem guard {c : Prop} [Decidable c] (ht : C.place t.location) (p : Problem)
    {k k' : Unit → Reader α} (hk : C.Judge i V (k ()) (k' ())) :
    C.Judge i V (if c then Reader.refuse t.location p >>= k else k ())
      (if c then Reader.refuse (t.relabel C.labels).location (p.relabel C.labels) >>= k' else k' ()) :=
  .ite ((hC.refuse (V := Eq) ht p).seq fun _ => hk) hk

theorem lookup {k k' : State → Reader α} (hk : ∀ s s', C.alike s s' → C.Judge i V (k s) (k' s')) :
    C.Judge i V (get >>= k) (get >>= k') :=
  ⟨fun s hs => (hk s s (hC.alike_self hs)).kept s hs, fun hs => (hk _ _ (hC.alike_rel hs)).meets hs⟩

/-- A loop whose values are the same. -/
theorem loop (hgoes : C.Goes step) (hstep : ∀ b, C.Judge i (RoundRel Eq V) (step b) (step' b)) (b : β) :
    C.Judge i V (rounds step b) (rounds step' b) :=
  .rounds hC.left hgoes (fun b _ hb => hb ▸ hstep b) rfl

theorem check (symbol : String) : C.Judge i Eq (Reader.check symbol) (Reader.check symbol) :=
  hC.look fun _ _ => .pure rfl

theorem accept (symbol : String) : C.Judge i Eq (Reader.accept symbol) (Reader.accept symbol) :=
  (hC.check symbol).seq fun _ => .ite (hC.advance.after (.pure rfl)) (.pure rfl)

theorem unexpected (ht : C.place t.location) (wanted : Wanted) :
    C.Judge i V (Reader.unexpected t wanted) (Reader.unexpected (t.relabel C.labels) wanted) :=
  hC.refuse ht _

theorem expectAs (symbol : String) (wanted : Wanted) :
    C.Judge i C.Corresponds (Reader.expectAs symbol wanted) (Reader.expectAs symbol wanted) :=
  (hC.check symbol).seq fun _ => .ite hC.advance (hC.look fun _ ht => hC.unexpected ht wanted)

theorem expectName (wanted : Wanted) :
    C.Judge i C.Corresponds (Reader.expectName wanted) (Reader.expectName wanted) :=
  hC.look fun _ ht => .ite hC.advance (hC.unexpected ht wanted)

theorem collect (stops : List String) :
    C.Judge i (fun ts ts' => ts' = ts.map (·.relabel C.labels)) (Reader.collect stops)
      (Reader.collect stops) := by
  refine .rounds (W := fun b b' => b' = (b.1, b.2.map (·.relabel C.labels))) hC.left
    (hC.loops.collect stops) ?_ rfl
  rintro ⟨depth, ts⟩ _ rfl
  refine hC.look fun t _ => .ite (.pure (.done rfl)) (.ite (.pure (.done rfl)) ?_)
  refine hC.advance.after (.pure (.again ?_))
  rw [List.map_append]
  rfl

theorem skipStatement (line : Nat) (commaEnds : Bool) :
    C.Judge i Eq (Reader.skipStatement line commaEnds)
      (Reader.skipStatement (C.labels.line line) commaEnds) := by
  refine .rounds (W := Eq) hC.left (hC.loops.skip line commaEnds) (fun _ _ _ => hC.look fun t _ => ?_) rfl
  have hlater : (C.labels.line line < (t.relabel C.labels).line) = (line < t.line) :=
    propext (hC.later line t.line)
  simp only [hlater]
  refine .ite (.pure (.done rfl)) (.ite ?_ (.ite (.pure (.done rfl)) ?_))
  · exact hC.advance.after (.pure (.done rfl))
  · exact hC.advance.after (.pure (.again rfl))

theorem synchronize (line : Nat) (commaEnds : Bool) :
    C.Judge i Eq (Reader.synchronize line i.1 commaEnds)
      (Reader.synchronize (C.labels.line line) i.2 commaEnds) := by
  have hskip := hC.skipStatement (i := i) line commaEnds
  have hskipped := hC.advance.after hskip
  refine ⟨fun s hs => ?_, fun {s s'} hs => ?_⟩
  · rw [Reader.synchronize, get_bind_apply]
    exact (Judge.ite hskipped (.ite (.pure rfl) hskip)).kept s hs
  · rw [Reader.synchronize, Reader.synchronize, get_bind_apply, get_bind_apply]
    by_cases h : s.taken = i.1
    · rw [if_pos h, if_pos ((hC.untouched hs).mp h)]
      exact hskipped.meets hs
    · rw [if_neg h, if_neg (mt (hC.untouched hs).mpr h), ← hC.last commaEnds hs h]
      exact (Judge.ite (.pure rfl) hskip).meets hs

/-- What follows the number of tokens that were taken: the start of a statement. -/
theorem fromStart {k k' : Nat → Reader α} (hk : ∀ j : Nat × Nat, C.Judge j V (k j.1) (k' j.2)) :
    C.Judge i V (get >>= fun s => k s.taken) (get >>= fun s => k' s.taken) := by
  refine ⟨fun s hs => (hk (s.taken, 0)).kept s hs, fun {s s'} hs => ?_⟩
  exact ((hk (s.taken, s'.taken)).meets (hC.start hs)).of_rel (hC.back hs)

/-- Whether there are too many errors. -/
theorem unlessFull (hm : C.Judge i V m m') (hn : C.Judge i V n n') :
    C.Judge i V (get >>= fun s => if s.report.full then m else n)
      (get >>= fun s => if s.report.full then m' else n') := by
  have hkept (s : State) : Triple C.env₁ C.keep (if s.report.full then m else n) _ _ _ :=
    (Judge.ite hm hn).kept
  refine ⟨fun s hs => hkept s s hs, fun {s s'} hs => ?_⟩
  rw [get_bind_apply, get_bind_apply]
  rcases hC.full hs with h | h
  · exact .apart (hkept s s h)
  · rw [h]
    exact (Judge.ite hm hn).meets hs

end Tokens

structure Reports (C : Comparison) : Prop extends Tokens C where
  report : ∀ {i l} p, C.place l →
    C.Judge i Eq (report l p) (report (C.labels.place l) (p.relabel C.labels))
  record : ∀ {i d d' t}, C.refusal d d' → C.place t.location →
    C.Judge i Eq (record d t) (record d' (t.relabel C.labels))

namespace Reports

variable (hC : C.Reports) {t : Token}
include hC

theorem reportAt (ht : C.place t.location) (p : Problem) :
    C.Judge i Eq (Reader.report t.location p)
      (Reader.report (t.relabel C.labels).location (p.relabel C.labels)) := by
  rw [t.location_relabel]
  exact hC.report p ht

theorem attempt (ht : C.place t.location) (commaEnds : Bool) {fallback fallback' : α}
    (hfallback : V fallback fallback') (hm : C.Judge i V m m') :
    C.Judge i V (Reader.attempt t i.1 commaEnds fallback m)
      (Reader.attempt (t.relabel C.labels) i.2 commaEnds fallback' m') := by
  have hrecover {d d' : Diagnostic} (hd : C.refusal d d') :
      C.Judge i V (recover t i.1 commaEnds fallback (.refused d))
        (recover (t.relabel C.labels) i.2 commaEnds fallback' (.refused d')) :=
    (hC.record hd ht).after ((hC.synchronize t.line commaEnds).after (.pure hfallback))
  refine ⟨Triple.tryCatch hm.kept (fun d s ⟨hs, d', hd⟩ => (hrecover hd).kept s hs) fun _ _ hg => hg,
    fun {s s'} hs => ?_⟩
  have h := hm.meets hs
  rw [Reader.attempt, Reader.attempt, tryCatch_apply, tryCatch_apply]
  generalize m C.env₁ s = r at h ⊢
  generalize m' C.env₂ s' = r' at h ⊢
  cases h with
  | ok value rel => exact .ok value rel
  | refused refusal rel => exact (hrecover refusal).meets rel
  | failed f rel => exact .failed f rel
  | failed₁ loose => exact .failed₁ loose
  | failed₂ loose => exact .failed₂ loose
  | apart kept =>
    refine .apart ?_
    cases r with
    | ok a s₁ => exact kept
    | error e s₁ =>
      cases e with
      | failed f => exact kept
      | refused d =>
        obtain ⟨hs₁, d', hd⟩ := kept
        exact (hrecover hd).kept s₁ hs₁

end Reports
end Comparison
end RecordView.Declaration
