import RecordView.Proofs.Condition.Outstanding
import RecordView.Proofs.Declaration.Class

/-! How many errors are recorded from one state of a reading to another: those of the conditions that are
drawn, and of the reading itself one for a member and for what stands behind a body, and two for a heading. -/
namespace RecordView.Declaration
open Reader

variable {α β γ : Type} {env : Env} {n k start : Nat} {s s' s'' s₀ s₁ s₂ : State} {t : Token} {x : Diagnostic}
  {m : Reader α}

/-! ## Errors from one state to another -/

/-- From one state to the other the reading itself records no more than `n` errors; all others are of
conditions that are drawn. -/
structure Adds (n : Nat) (s s' : State) : Prop where
  limit : s'.report.limit = s.report.limit
  errors : ∃ own drawn, own.length ≤ n ∧
    Frames.Drawn s.frames s.unread drawn s'.frames s'.unread ∧
    s'.report.errors.Perm (s.report.errors ++ own ++ drawn)

/-- Nothing is drawn and nothing is recorded. -/
theorem adds_of_eq (hunread : s'.unread = s.unread) (hframes : s'.frames = s.frames)
    (hlimit : s'.report.limit = s.report.limit) (herrors : s'.report.errors = s.report.errors) :
    Adds 0 s s' := by
  refine ⟨hlimit, [], [], Nat.le_refl _, ?_, ?_⟩
  · rw [hunread, hframes]
    exact .start
  · rw [herrors, List.append_nil, List.append_nil]

theorem Adds.mono (h : Adds n s s') (hle : n ≤ k) : Adds k s s' := by
  obtain ⟨own, drawn, hown, hdrawn, hperm⟩ := h.errors
  exact ⟨h.limit, own, drawn, Nat.le_trans hown hle, hdrawn, hperm⟩

theorem Adds.trans (h : Adds n s s') (h' : Adds k s' s'') : Adds (n + k) s s'' := by
  obtain ⟨own, drawn, hown, hdrawn, hperm⟩ := h.errors
  obtain ⟨own', drawn', hown', hdrawn', hperm'⟩ := h'.errors
  refine ⟨h'.limit.trans h.limit, own ++ own', drawn ++ drawn', ?_, hdrawn.trans hdrawn', ?_⟩
  · rw [List.length_append]
    omega
  · have hall : s''.report.errors.Perm (s.report.errors ++ own ++ drawn ++ own' ++ drawn') :=
      hperm'.trans ((hperm.append_right own').append_right drawn')
    have hmove : (drawn ++ (own' ++ drawn')).Perm (own' ++ (drawn ++ drawn')) :=
      List.perm_append_comm_assoc drawn own' drawn'
    refine hall.trans ?_
    simp only [List.append_assoc]
    exact (hmove.append_left own).append_left s.report.errors

theorem adds_report (s : State) (d : Diagnostic) : Adds 1 s { s with report := s.report.add d } := by
  refine ⟨rfl, [d], [], Nat.le_refl _, .start, ?_⟩
  rw [List.append_nil]
  rfl

theorem adds_drawNext (env : Env) (s : State) : Adds 0 s (finalState (s.drawNext env)) := by
  have hdrawn : Frames.Drawn s.frames s.unread (s.draw env).errors (s.draw env).frames (s.draw env).rest :=
    Frames.Drawn.start.next s.settings.flags env.sourceLine
  obtain ⟨ts, e, hdraw⟩ := finalState_drawNext env s
  rw [hdraw]
  refine ⟨rfl, [], (s.draw env).errors, Nat.le_refl _, hdrawn, ?_⟩
  rw [List.append_nil]
  rfl

theorem isPath_adds : IsPath (Adds 0) := ⟨fun _ => adds_of_eq rfl rfl rfl rfl, fun h h' => h.trans h'⟩

theorem takingPath_adds : TakingPath (Adds 0) := by
  refine .of_draw isPath_adds (fun n env s => ?_) (fun _ _ => adds_of_eq rfl rfl rfl rfl)
    fun _ _ => adds_of_eq rfl rfl rfl rfl
  rw [← finalState_eq, draw_apply]
  split
  · exact adds_drawNext env s
  · exact adds_of_eq rfl rfl rfl rfl

theorem adds_bind {f : α → Reader β} (hm : Along (Adds n) m) (hf : ∀ a, Along (Adds k) (f a)) :
    Along (Adds (n + k)) (m >>= f) := by
  intro env s
  cases h : m env s with
  | ok a s₁ =>
    rw [after_bind_ok h]
    exact (hm.of_ok h).trans (hf a env s₁)
  | error e s₁ =>
    rw [after_bind_error h]
    exact (hm.of_error h).mono (Nat.le_add_right n k)

theorem adds_seq {f : α → Reader β} (hm : Along (Adds 0) m) (hf : ∀ a, Along (Adds n) (f a)) :
    Along (Adds n) (m >>= f) := by
  have h := adds_bind hm hf
  rwa [Nat.zero_add] at h

theorem adds_comment (t : Token) : Along (Adds 0) (comment t) := fun _ _ => adds_of_eq rfl rfl rfl rfl

theorem adds_applySetting (name value : String) : Along (Adds 0) (applySetting name value) :=
  .applySetting isPath_adds (fun _ => adds_of_eq rfl rfl rfl rfl) fun _ _ _ => adds_of_eq rfl rfl rfl rfl

theorem adds_write (f : State → Except Failure Script) : Along (Adds 0) (write f) :=
  .write isPath_adds fun _ _ _ => adds_of_eq rfl rfl rfl rfl

theorem adds_register (t : TypeInfo) : Along (Adds 0) (register t) :=
  .register isPath_adds fun _ _ _ => adds_of_eq rfl rfl rfl rfl

theorem adds_perform (steps : List Step) : Along (Adds 0) (perform steps) :=
  takingPath_adds.perform (fun _ => adds_write _) steps

theorem adds_member (d : Draft) : Along (Adds 0) (member d) :=
  takingPath_adds.member (fun _ => adds_write _) adds_comment adds_applySetting d

theorem adds_enumMember (e : EnumDraft) : Along (Adds 0) (enumMember e) :=
  takingPath_adds.enumMember (fun _ _ _ _ => adds_of_eq rfl rfl rfl rfl) adds_comment adds_applySetting e

theorem adds_reporting (location : Location) (p : Problem) : Along (Adds 1) (report location p) :=
  fun _ s => adds_report s _

/-- A refused statement is one error. -/
theorem adds_recovered {commaEnds : Bool}
    (h : synchronize t.line start commaEnds env { s with report := s.report.add (located env x t) } =
      .ok () s') :
    Adds 1 s s' :=
  (adds_report s _).trans ((takingPath_adds.synchronize _ _ _).of_ok h)

theorem adds_attempt {commaEnds : Bool} {fallback a : α} (hm : Along (Adds 0) m)
    (h : attempt t start commaEnds fallback m env s = .ok a s') : Adds 1 s s' := by
  rcases attempt_ok h with hok | ⟨-, x, s₁, herror, hsync⟩
  · exact (hm.of_ok hok).mono (Nat.zero_le 1)
  · exact (hm.of_error herror).trans (adds_recovered hsync)

/-! ## Rounds -/

/-- A loop of which each round starts with a test of the limit. If it is reached, the loop ends there;
otherwise a round records at most one error, and none if it is the last one and gives a result. -/
def Limited (env : Env) (step : β → Reader (Round β (Option γ))) : Prop :=
  ∀ b r s s', step b env s = .ok r s' →
    (s.report.full = true ∧ r = .done none ∧ s' = s) ∨
      (s.report.full = false ∧ Adds 1 s s' ∧ ∀ c, r = .done (some c) → Adds 0 s s')

theorem adds_closeUnion {d d' : Draft} (h : closeUnion d t start env s = .ok d' s') : Adds 1 s s' := by
  rw [closeUnion, get_bind_apply] at h
  obtain ⟨_, s₁, hperform, h⟩ := bind_ok.mp h
  obtain ⟨_, s₂, hattempt, h⟩ := bind_ok.mp h
  cases h
  have hends : Along (Adds 0) (unionEnd t (d.closeUnion s.settings).2) :=
    takingPath_adds.bind (takingPath_adds.expectAs _ _) fun _ =>
      .ite (takingPath_adds.throw _) (takingPath_adds.pure _)
  exact ((adds_perform _).of_ok hperform).trans (adds_attempt hends hattempt)

theorem limited_memberRound (env : Env) : Limited env memberRound := by
  intro d r s s' h
  cases memberRound_turn h with
  | full full => exact .inl ⟨full, rfl, rfl⟩
  | ended going next reported =>
    have hnext : Adds 0 s _ := takingPath_adds.peek.of_ok next
    refine .inr ⟨going, hnext.trans ((adds_reporting _ _).of_ok reported), fun c hc => ?_⟩
    cases hc
  | unionEnd going next _ _ taken _ closed =>
    have hnext : Adds 0 s _ := takingPath_adds.peek.of_ok next
    have htaken : Adds 0 s _ := hnext.trans (takingPath_adds.advance.of_ok taken)
    refine .inr ⟨going, htaken.trans (adds_closeUnion closed), fun c hc => ?_⟩
    cases hc
  | bodyEnd going next _ taken _ placed =>
    have hnext : Adds 0 s _ := takingPath_adds.peek.of_ok next
    have htaken : Adds 0 s _ := hnext.trans (takingPath_adds.advance.of_ok taken)
    have hlast : Adds 0 s s' := htaken.trans ((adds_perform _).of_ok placed)
    exact .inr ⟨going, hlast.mono (Nat.zero_le 1), fun _ _ => hlast⟩
  | member going next _ read =>
    have hnext : Adds 0 s _ := takingPath_adds.peek.of_ok next
    refine .inr ⟨going, hnext.trans (adds_attempt (adds_member d) read), fun c hc => ?_⟩
    cases hc

theorem limited_enumRound (env : Env) (keyword : Token) : Limited env (enumRound keyword) := by
  intro e r s s' h
  cases turn_of_enumRound h with
  | full full => exact .inl ⟨full, rfl, rfl⟩
  | ended going next reported =>
    have hnext : Adds 0 s _ := takingPath_adds.peek.of_ok next
    refine .inr ⟨going, hnext.trans ((adds_reporting _ _).of_ok reported), fun c hc => ?_⟩
    cases hc
  | bodyEnd going next taken =>
    have htaken : Adds 0 s s' :=
      (takingPath_adds.peek.of_ok next).trans (takingPath_adds.advance.of_ok taken)
    exact .inr ⟨going, htaken.mono (Nat.zero_le 1), fun _ _ => htaken⟩
  | member going next _ read =>
    have hnext : Adds 0 s _ := takingPath_adds.peek.of_ok next
    refine .inr ⟨going, hnext.trans (adds_attempt (adds_enumMember e) read), fun c hc => ?_⟩
    cases hc

/-! ## Headings -/

/-- A reading that records up to `n` errors if it gives a result, and up to `k` if it is refused. -/
structure Records (n k : Nat) (m : Reader α) : Prop where
  ok : ∀ {env s a s'}, m env s = .ok a s' → Adds n s s'
  refused : ∀ {env s x s'}, m env s = .error (.refused x) s' → Adds k s s'

namespace Records

variable {i j : Nat} {m : Reader α} {f : α → Reader β}

theorem of_along (hm : Along (Adds n) m) : Records n n m := ⟨hm.of_ok, hm.of_error⟩

theorem of_unrefused (hm : Along (Adds n) m) (hu : Unrefused m) : Records n 0 m :=
  ⟨hm.of_ok, fun h => absurd h (hu _ _ _ _)⟩

theorem bind (hm : Records n k m) (hf : ∀ a, Records i j (f a)) :
    Records (n + i) (max k (n + j)) (m >>= f) := by
  constructor
  · intro env s b s' h
    obtain ⟨a, s₁, hfirst, hrest⟩ := bind_ok.mp h
    exact (hm.ok hfirst).trans ((hf a).ok hrest)
  · intro env s x s' h
    rcases bind_error.mp h with hfirst | ⟨a, s₁, hfirst, hrest⟩
    · exact (hm.refused hfirst).mono (Nat.le_max_left _ _)
    · exact ((hm.ok hfirst).trans ((hf a).refused hrest)).mono (Nat.le_max_right _ _)

/-- What comes before takes tokens. -/
theorem seq (hm : Along (Adds 0) m) (hf : ∀ a, Records n k (f a)) : Records n k (m >>= f) := by
  have h := (of_along hm).bind hf
  rwa [Nat.zero_add, Nat.zero_add, Nat.max_eq_right (Nat.zero_le k)] at h

end Records

theorem adds_reports (errors : List (Location × Problem)) :
    Along (Adds errors.length) (errors.forM fun (location, p) => report location p) := by
  induction errors with
  | nil => exact takingPath_adds.pure _
  | cons e errors ih =>
    rw [List.length_cons, Nat.add_comm]
    exact adds_bind (adds_reporting e.1 e.2) fun _ => ih

theorem adds_logs (notes : List Note) : Along (Adds 0) (notes.forM log) := by
  induction notes with
  | nil => exact takingPath_adds.pure _
  | cons n notes ih => exact takingPath_adds.bind (takingPath_adds.log n) fun _ => ih

/-- The errors of a heading are recorded behind its brace, where it is no longer refused. -/
theorem records_opening (form : Form) (typedef : Bool) : Records 2 0 (opening form typedef) := by
  have path := takingPath_adds
  refine .seq path.advance fun keyword => .seq path.declaredName fun name => ?_
  refine .seq path.parentName fun parent => .seq (path.expectAs _ _) fun _ => ?_
  refine .seq (fun _ _ => adds_of_eq rfl rfl rfl rfl) fun _ => .seq path.get fun s => ?_
  have hheader : (Header.of s.registry form typedef keyword name parent).Proper (fun _ => True) parent 2 :=
    Header.proper_of trivial (fun _ _ => trivial) (fun _ _ => trivial) s.registry form typedef
  refine .of_unrefused ?_ ?_
  · intro env s'
    refine Adds.mono (adds_bind (adds_reports _) (fun _ => path.bind (adds_logs _) fun _ => ?_) env s')
      hheader.count
    refine path.bind (fun _ _ => adds_of_eq rfl rfl rfl rfl) fun _ => ?_
    exact path.bind (path.log _) fun _ => path.pure _
  · refine .bind (.forM (fun (l, p) => .report l p) _) fun _ => ?_
    refine .bind (.forM .log _) fun _ => ?_
    refine .bind (.modify _) fun _ => ?_
    exact .bind (.log _) fun _ => .pure _

theorem adds_backingType : Along (Adds 1) backingType := by
  have path := takingPath_adds
  have hnone (p : Primitive) : Along (Adds 1) (pure p : Reader Primitive) :=
    fun _ s => (path.refl s).mono (Nat.zero_le 1)
  refine adds_seq (path.accept _) fun _ => .ite ?_ (hnone _)
  refine adds_seq (path.expectName _) fun t => ?_
  have last : Along (Adds 1) (replaceBacking t) := adds_bind (adds_reporting _ _) fun _ => path.pure _
  dsimp only
  split
  · exact .ite (hnone _) last
  · exact last

/-- The type behind the colon of an enum may be one error more, before its brace. -/
theorem records_enumOpening : Records 2 1 enumOpening := by
  have path := takingPath_adds
  refine .seq path.advance fun keyword => .seq path.declaredName fun name => ?_
  refine (Records.of_along adds_backingType).bind (i := 1) (j := 0) fun backing => ?_
  refine .seq (path.expectAs _ _) fun _ => .seq (fun _ _ => adds_of_eq rfl rfl rfl rfl) fun _ => ?_
  refine .seq path.get fun s => ?_
  dsimp only
  split
  · refine .of_unrefused (adds_bind (adds_reporting _ _) fun _ => path.pure _) ?_
    exact .bind (.report _ _) fun _ => .pure _
  · exact .of_unrefused (fun _ s => (path.refl s).mono (Nat.zero_le 1)) (.pure _)

/-! ## Closings -/

theorem adds_warnOfPadding (d : Draft) (t : TypeInfo) : Along (Adds 0) (warnOfPadding d t) := by
  have path := takingPath_adds
  refine .ite ?_ (path.pure _)
  exact path.bind (fun _ _ => adds_of_eq rfl rfl rfl rfl) fun _ => path.log _

theorem adds_discardClass : Along (Adds 0) discardClass := fun _ _ => adds_of_eq rfl rfl rfl rfl

theorem adds_closeAggregate (d : Draft) : Along (Adds 0) (closeAggregate d) := by
  have path := takingPath_adds
  unfold closeAggregate
  split
  · refine path.bind path.get fun s => ?_
    split
    · exact path.bind adds_discardClass fun _ => path.throw _
    · refine path.bind (adds_register _) fun _ => path.bind (adds_write _) fun _ => ?_
      exact path.bind (path.log _) fun _ => path.bind (adds_warnOfPadding d _) fun _ => path.log _
  · exact adds_discardClass

/-- A typedef that has no name or a name that is taken is one error, and is discarded. -/
theorem adds_typedefName {d d' : Draft} (h : typedefName d env s = .ok d' s') :
    Adds 0 s s' ∨ (d'.discarded = true ∧ Adds 1 s s') := by
  have path := takingPath_adds
  obtain ⟨t, s₁, next, h⟩ := bind_ok.mp h
  have hnext : Adds 0 s s₁ := path.peek.of_ok next
  split at h
  · obtain ⟨_, s₂, hreport, h⟩ := bind_ok.mp h
    have hadds : Adds 1 s s₂ := hnext.trans ((adds_reporting _ _).of_ok hreport)
    cases h
    exact .inr ⟨rfl, hadds⟩
  · obtain ⟨_, s₂, taken, h⟩ := bind_ok.mp h
    have htaken : Adds 0 s s₂ := hnext.trans (path.advance.of_ok taken)
    rw [get_bind_apply] at h
    split at h
    · obtain ⟨_, s₃, hreport, h⟩ := bind_ok.mp h
      have hadds : Adds 1 s s₃ := htaken.trans ((adds_reporting _ _).of_ok hreport)
      cases h
      exact .inr ⟨rfl, hadds⟩
    · cases h
      exact .inl htaken

theorem Unrefused.typedefName (d : Draft) : Unrefused (typedefName d) := by
  refine .bind .peek fun t => .ite ?_ ?_
  · exact .bind (.report _ _) fun _ => .pure _
  · refine .bind .advance fun _ => .bind .get fun s => ?_
    refine .ite ?_ (.pure _)
    exact .bind (.report _ _) fun _ => .pure _

/-- A draft that is discarded is not refused. -/
theorem Unrefused.closeAggregate {d : Draft} (h : d.discarded = true) : Unrefused (closeAggregate d) := by
  unfold Reader.closeAggregate
  rw [h]
  exact .modify _

/-- What stands behind a body is one error at most, recorded there or when the declaration is refused. -/
theorem records_closing (typedef : Bool) (d : Draft) : Records 1 0 (closing typedef (some d)) := by
  have path := takingPath_adds
  have hlast (d : Draft) : Along (Adds 0) (bodyEnd d) :=
    path.bind (path.accept _) fun _ => adds_closeAggregate d
  cases typedef with
  | false =>
    have hall : Along (Adds 0) (closing false (some d)) := path.bind (path.pure d) hlast
    exact ⟨fun h => (hall.of_ok h).mono (Nat.zero_le 1), hall.of_error⟩
  | true =>
    constructor
    · intro env s u s' h
      obtain ⟨d', s₁, hname, h⟩ := bind_ok.mp h
      rcases adds_typedefName hname with hadds | ⟨-, hadds⟩
      · exact (hadds.trans ((hlast d').of_ok h)).mono (Nat.zero_le 1)
      · exact hadds.trans ((hlast d').of_ok h)
    · intro env s x s' h
      rcases bind_error.mp h with h | ⟨d', s₁, hname, h⟩
      · exact absurd h (Unrefused.typedefName d _ _ _ _)
      rcases adds_typedefName hname with hadds | ⟨hdiscarded, -⟩
      · exact hadds.trans ((hlast d').of_error h)
      · have hu : Unrefused (bodyEnd d') := .bind (.accept _) fun _ => .closeAggregate hdiscarded
        exact absurd h (hu _ _ _ _)

theorem adds_enumClosing (e : Option EnumDraft) : Along (Adds 0) (enumClosing e) := by
  have path := takingPath_adds
  cases e with
  | none => exact path.pure _
  | some e =>
    refine path.bind (path.accept _) fun _ => ?_
    cases e.name with
    | none => exact path.pure _
    | some name =>
      refine path.bind path.get fun s => path.bind (adds_register _) fun _ => ?_
      exact path.bind (adds_write _) fun _ => path.bind (path.log _) fun _ => path.log _

/-! ## Conditions -/

theorem Trail.outstanding_le {drawn taken : List Token} (h : Trail s drawn taken s') :
    Frames.outstanding s'.frames s'.unread ≤ Frames.outstanding s.frames s.unread := by
  induction h with
  | start => exact Nat.le_refl _
  | @draw _ _ s' env _ _ ih =>
    obtain ⟨own, drawn, -, hdrawn, -⟩ := (adds_drawNext env s').errors
    have hle := hdrawn.outstanding_le
    omega
  | take _ _ ih => exact ih
  | stay _ same ih =>
    simp only [State.stream, Prod.mk.injEq] at same
    obtain ⟨hunread, hframes, -⟩ := same
    rwa [hunread, hframes]

end RecordView.Declaration
