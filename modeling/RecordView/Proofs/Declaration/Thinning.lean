import RecordView.Proofs.Layout.Thinning
import RecordView.Proofs.Reader.Following

/-! The parts of declarations, read with and without some of their comments: directives, field
statements, the bodies of structs and unions, and enums. -/
namespace RecordView.Declaration
open Reader

namespace Thinning

variable {env : Env} {s s' u u' : State} {t c : Token} {d : Draft}

/-! ## Comments and directives -/

/-- What a comment changes does not count. -/
theorem Rel.comment (h : Rel env s u) (hcomment : Reader.comment c env s = .ok () s') : Rel env s' u := by
  have hplace := samePlace_of_aside (.comment c) hcomment
  cases hcomment
  refine stays_rel.keep h { h.core with current := ?_ } h.clean hplace (.refl u)
  rw [← h.core.current]
  dsimp only
  split
  · exact isSome_verbatim s.script c.text
  · rfl

/-- A result when no token is looked at. -/
theorem Follows.result {α : Type} {Off : α → State → Prop} (a : α) :
    Follows env (Even env) (pure a) (pure a) (Same fun _ => Rel env) Off :=
  .pure fun _ _ hs => ⟨rfl, hs.toRel⟩

theorem Follows.applySetting (name value : String) :
    Follows env (Even env) (applySetting name value) (applySetting name value) (Same fun _ => Even env)
      never := by
  refine ⟨bodyPath_advances.setting name value, fun {s u a s'} hs h hclean => .inl ?_⟩
  have hcore := hs.core
  rw [applySetting_eq, get_bind_apply] at h ⊢
  split at h
  · rename_i hinject
    cases h
    rw [if_pos hinject]
    refine ⟨(), _, rfl, rfl, stays_even.keep hs { hcore with current := ?_ } hclean ⟨rfl, rfl, rfl, rfl, rfl⟩
      ⟨rfl, rfl, rfl, rfl, rfl⟩⟩
    rw [isSome_verbatim, isSome_verbatim, hcore.current]
  · rename_i hinject
    cases happly : s.settings.apply name value s.declared with
    | error r =>
      rw [happly] at h
      cases h
    | ok settings =>
      rw [happly] at h
      cases h
      rw [hcore.settings, hcore.declared] at happly
      rw [if_neg hinject, happly]
      have hlevel : Level { s with settings } { u with settings } := { hs.level with }
      exact ⟨(), _, rfl, rfl, ⟨{ hcore with settings := rfl }, hclean, .level hlevel, hs.live₁, hs.live₂,
        hs.named⟩, hlevel⟩

theorem Follows.endOfDirective : Repeats env (Rel env) endOfDirective := by
  have hcomments : Repeats env (Rel env) (rounds commentRound ()) := by
    refine .rounds (R := fun _ _ => True) .commentRound ?_ trivial
    intro _ _ s u r s' _ hs h hclean
    refine paces_peek (fun t => .ite ?_ ?_) (fun {c s₁} hfacing hrel h => ?_) rfl hs h hclean
    · exact .chain .advance fun _ => .pure fun s u hs => .again trivial hs.toRel
    · exact .pure fun s u hs => .done ⟨rfl, hs.toRel⟩
    · rw [if_pos hfacing.1, bind_apply, advance_of_facing hfacing] at h
      cases h
      exact .waits trivial hrel
  refine .chain hcomments fun _ => ?_
  refine .seq .peek (fun t => .ite ?_ (.ite ?_ ?_)) ?_
  · exact .chain .advance fun _ => .result _
  · exact .throw _ _
  · exact .pure fun s u hs => ⟨rfl, hs.toRel⟩
  · intro c s a s' hfacing h _
    rw [if_neg (by simp [hfacing.1]), if_pos (by simp [hfacing.1])] at h
    cases h

theorem Follows.settingValue (mark name value : Token) :
    Repeats env (Looked env value) (settingValue mark name value) := by
  unfold Reader.settingValue
  refine .guard (.chain .advance fun _ => ?_)
  refine .chain (.applySetting _ _) fun _ => ?_
  refine .chain (.aside stays_even (.log _)) fun _ => ?_
  exact Follows.endOfDirective.of_imp fun _ _ h => h.toRel

/-- A comment between the mark, the name and the value of a directive is an error. -/
theorem Follows.directive : Repeats env (Looked env t) directive := by
  refine .chain .advance fun mark => .guard ?_
  refine .seq (Follows.peek.of_imp fun _ _ h => h.toRel) (fun name => .guard ?_) ?_
  · refine .chain .advance fun _ => ?_
    refine .seq (Follows.peek.of_imp fun _ _ h => h.toRel) (fun value => ?_) ?_
    · refine .ite ?_ (.settingValue mark name value)
      exact .chain .advance fun _ => .refuse _ _ _ _
    · intro c s a s' hfacing h _
      rw [if_neg (by simp [hfacing.1])] at h
      unfold Reader.settingValue at h
      rw [if_pos (by simp [hfacing.1])] at h
      cases h
  · intro c s a s' hfacing h _
    rw [if_pos (by simp [hfacing.1])] at h
    cases h

/-! ## Field statements -/

theorem Follows.leadingWidth (type : Token) :
    Follows env (Rel env) (leadingWidth type) (leadingWidth type)
      (fun w v s u => Option.Rel Thins w v ∧ Rel env s u)
      fun w s => (w = none ∧ ∃ c, s.Facing c) ∨ ∃ c, c.kind = .comment ∧ w = some [c] := by
  refine .ite (.pure fun s u hs => ⟨.none, hs⟩) ?_
  refine .seq (.accept ":") (fun b => .ite ?_ ?_) ?_
  · refine .seq (.check "(") (fun b => .looked fun t => .ite ?_ ?_) ?_
    · refine .chain .advance fun opening => ?_
      refine (Follows.bind_collect (.collect _) fun inner inner' hinner => ?_).of_imp
        fun _ _ h => h.toRel
      refine .chain ((Follows.expectAs _ _).of_imp fun _ _ h => h.2) fun closing => ?_
      exact .pure fun s u hs => ⟨.some (.keep opening (hinner.append (.refl [closing]))), hs.toRel⟩
    · exact .chain .advance fun _ => .pure fun s u hs => ⟨.some (.refl _), hs.toRel⟩
    · rintro b s a s' ⟨rfl, c, hfacing⟩ h _
      rw [if_neg Bool.false_ne_true, bind_apply, advance_of_facing hfacing] at h
      cases h
      exact .inr ⟨c, hfacing.1, rfl⟩
  · exact .pure fun s u hs => ⟨.none, hs⟩
  · rintro b s a s' ⟨rfl, hfacing⟩ h _
    cases h
    exact .inl ⟨rfl, hfacing⟩

def Counted (f : FieldStatement) : Prop := ∀ ts, f.count = some ts → Token.Named ts

/-- A width in front of the name stays the width. -/
theorem bits_of_fieldRest {type : Token} {ts : List Token} {f : FieldStatement}
    (h : fieldRest type (some ts) env s = .ok f s') : f.bits = some ts := by
  obtain ⟨name, s₁, -, h⟩ := bind_ok.mp h
  obtain ⟨array, s₂, -, h⟩ := bind_ok.mp h
  obtain ⟨bits, s₃, -, h⟩ := bind_ok.mp h
  have hend {g : FieldStatement} {v : State} (h : fieldEnd g env v = .ok f s') : f = g := by
    obtain ⟨_, _, -, h⟩ := bind_ok.mp h
    cases h
    rfl
  split at h
  · obtain ⟨count, s₄, -, h⟩ := bind_ok.mp h
    obtain ⟨_, s₅, -, h⟩ := bind_ok.mp h
    rw [hend (g := ⟨type, name, some count, some ts⟩) h]
  split at h
  · obtain ⟨_, s₄, -, h⟩ := bind_ok.mp h
    cases h
  · rw [hend (g := ⟨type, name, none, some ts⟩) h]

theorem Follows.fieldEnd {f g : FieldStatement} {Off : FieldStatement → State → Prop} (hfg : f.Thinned g) :
    Follows env (fun s u => Counted f ∧ Rel env s u) (fieldEnd f) (fieldEnd g)
      (fun f g s u => f.Thinned g ∧ Counted f ∧ Rel env s u) Off := by
  have hname : f.name = g.name := by
    cases hfg
    rfl
  unfold Reader.fieldEnd
  rw [hname]
  refine .chain (Follows.expectAs _ _).frame fun _ => ?_
  exact .pure fun s u hs => ⟨hfg, hs.1, hs.2.toRel⟩

theorem fieldEnd_of_facing {f g : FieldStatement} (h : s.Facing c) : fieldEnd f env s ≠ .ok g s' := by
  intro hok
  obtain ⟨_, _, hexpect, -⟩ := bind_ok.mp hok
  exact expectAs_of_facing h _ _ hexpect

theorem Follows.fieldRest (type : Token) {w v : Option (List Token)} (hw : Option.Rel Thins w v) :
    Follows env (Rel env) (fieldRest type w) (fieldRest type v)
      (fun f g s u => f.Thinned g ∧ Counted f ∧ Rel env s u) never := by
  refine .chain (.expectName _) fun name => ?_
  refine .seq ((Follows.accept "[").of_imp fun _ _ h => h.toRel) (fun array => ?_) ?_
  · cases array with
    | true =>
      simp only [if_true]
      refine .check_collect ":" fun count count' hcount => ?_
      refine .chain (Follows.expectAs "]" _).frame fun _ => ?_
      refine (Follows.fieldEnd (.intro type name (.some hcount) hw)).of_imp fun s u hs => ⟨?_, hs.2.toRel⟩
      rintro _ ⟨⟩
      exact hs.1
    | false =>
      simp only [Bool.false_eq_true, if_false]
      have uncounted {bits : Option (List Token)} : Counted ⟨type, name, none, bits⟩ := by
        intro ts hts
        cases hts
      refine .seq (.check ":") (fun b => .looked fun t => .ite ?_ ?_) ?_
      · cases hw with
        | none =>
          refine .chain .advance fun _ => ?_
          refine (Follows.bind_collect (.collect _) fun bits bits' hbits => ?_).of_imp
            fun _ _ h => h.toRel
          exact (Follows.fieldEnd (.intro type name .none (.some hbits))).of_imp
            fun s u hs => ⟨uncounted, hs.2⟩
        | some _ => exact .again (fun t => .refuse _ _ _ _) t
      · exact (Follows.fieldEnd (.intro type name .none hw)).of_imp fun s u hs => ⟨uncounted, hs.toRel⟩
      · rintro b s a s' ⟨rfl, c, hfacing⟩ h _
        rw [if_neg Bool.false_ne_true] at h
        exact fieldEnd_of_facing (f := ⟨type, name, none, w⟩) hfacing h
  · rintro b s a s' ⟨rfl, c, hfacing⟩ h _
    rw [bind_apply, check_of_facing hfacing] at h
    dsimp only at h
    rw [if_neg Bool.false_ne_true, if_neg Bool.false_ne_true] at h
    exact fieldEnd_of_facing (f := ⟨type, name, none, w⟩) hfacing h

/-- A field statement. Only a comment that stands for a width is not passed over. -/
theorem Follows.fieldStatement :
    Follows env (Looked env t) fieldStatement fieldStatement
      (fun f g s u => f.Thinned g ∧ Counted f ∧ Rel env s u)
      fun f _ => ∃ c, c.kind = .comment ∧ f.bits = some [c] := by
  refine .chain .advance fun type => ?_
  refine .bind (fun _ => Rel env) ((Follows.leadingWidth type).of_imp fun _ _ h => h.toRel)
    Thins.option (fun w v hw => (Follows.fieldRest type hw).weaken) fun w => ?_
  rintro s f s' (⟨rfl, c, hfacing⟩ | ⟨c, hc, rfl⟩) h _
  · obtain ⟨_, _, hname, -⟩ := bind_ok.mp h
    exact absurd hname (expectName_of_facing hfacing _)
  · exact ⟨c, hc, bits_of_fieldRest h⟩

theorem surroundings_apply (env : Env) (s : State) :
    surroundings env s = .ok ⟨s.settings, s.registry, s.constants, env.padding⟩ s := rfl

theorem Follows.surroundings {P : State → State → Prop} (hP : Stays P) :
    Follows env P surroundings surroundings (Same fun _ => P) never := by
  refine ⟨fun _ s => .refl s, fun {s u a s'} hs h _ => ?_⟩
  have hcore := hP.core hs
  rw [surroundings_apply] at h
  cases h
  refine .inl ⟨_, u, surroundings_apply env u, ?_, hs⟩
  rw [hcore.settings, hcore.registry, hcore.constants]

theorem Follows.orThrow {α : Type} {P : State → State → Prop} {x y : Except (Halt Diagnostic) α}
    (h : ∀ s u a, P s u → x = .ok a → y = .ok a) :
    Follows env P (orThrow x) (orThrow y) (Same fun _ => P) never := by
  cases x with
  | error e => exact .throw e _
  | ok a =>
    refine ⟨fun _ s => .refl s, fun {s u a s'} hs hok _ => ?_⟩
    cases hok
    rw [h s u a hs rfl]
    exact .inl ⟨a, u, rfl, rfl, hs⟩

theorem Follows.field (d : Draft) : Repeats env (Looked env t) (field d) := by
  refine .bind (fun f s u => Counted f ∧ Rel env s u) .fieldStatement .refl
    (fun f g hfg => ?_) fun f => ?_
  · refine .chain (Follows.surroundings stays_rel).frame fun a => ?_
    refine .chain (.orThrow fun s u d' hs => hfg.declare_eq hs.1) fun d' => ?_
    refine .chain ((Follows.aside stays_rel (.advanceTo d d')).of_imp fun _ _ h => h.2) fun _ => ?_
    exact .pure fun s u hs => ⟨rfl, hs⟩
  · rintro s d' s' ⟨c, hc, hbits⟩ h _
    obtain ⟨a, s₁, -, h⟩ := bind_ok.mp h
    obtain ⟨d₁, s₂, hdeclare, -⟩ := bind_ok.mp h
    cases hd : f.declare a d with
    | error e =>
      rw [hd] at hdeclare
      cases hdeclare
    | ok d₂ => exact absurd hd (FieldStatement.declare_of_comment hc hbits)

/-! ## Members -/

theorem Follows.startsUnion (ht : t.kind ≠ .eof) :
    Follows env (Looked env t) (startsUnion t) (startsUnion t)
      (Same fun b s u => Looked env t s u ∧ (b = true → ∃ v, LookedOn env t v s u))
      fun b _ => b = false ∧ t.text = "union" := by
  unfold Reader.startsUnion
  split
  · rename_i hunion
    refine ⟨Advancing.bind tokenPath_advances.peekSecond fun _ => .pure _,
      fun {s u b s'} hs h hclean => ?_⟩
    obtain ⟨v, s₁, hpeek, h⟩ := bind_ok.mp h
    cases h
    rcases hs.peekSecond ht hpeek hclean with ⟨u', hu', hon⟩ | hv
    · exact .inl ⟨_, u', bind_ok.mpr ⟨v, u', hu', rfl⟩, rfl, hon.toLooked, fun _ => ⟨v, hon⟩⟩
    · exact .inr ⟨isSymbol_comment hv _, hunion⟩
  · exact .pure fun s u hs => ⟨rfl, hs, fun h => by cases h⟩

/-- The keyword and brace of an anonymous union were both looked at. -/
theorem Follows.advance_on {v : Token} (ht : t.kind ≠ .eof) :
    Follows env (LookedOn env t v) advance advance (Same fun _ => Looked env v) never := by
  refine ⟨.advance, fun {s u a s'} hs h _ => .inl ?_⟩
  rw [advance_apply, hs.peek₁] at h
  rw [advance_apply, hs.peek₂]
  dsimp only at h ⊢
  rw [if_neg ht] at h ⊢
  cases h
  refine ⟨t, _, rfl, rfl, Even.take hs.toLooked, ?_⟩
  obtain ⟨vs, hahead⟩ := hs.exists_ahead ht
  have hsecond := hs.second
  rw [hahead] at hsecond
  simpa [State.take, hahead] using hsecond

theorem Follows.openUnion {v : Token} (ht : t.kind ≠ .eof) (d : Draft) :
    Repeats env (LookedOn env t v) (openUnion d) := by
  refine .chain (.advance_on ht) fun keyword => .chain .advance fun _ => ?_
  refine .guard (.get stays_even fun s u hcore => ?_)
  dsimp only
  rw [hcore.settings]
  refine .chain (.aside stays_even (.advanceTo _ _)) fun _ => ?_
  exact .result _

theorem Follows.member (d : Draft) : Repeats env (Looked env t) (member d) := by
  refine .again (fun t => ?_) t
  refine .ite ?_ (.ite ?_ (.ite ?_ (.ite (.throw _ _) ?_)))
  · refine .chain .advance fun _ => ?_
    refine .chain (.aside stays_even (.comment t)) fun _ => ?_
    exact .result _
  · exact .chain .directive fun _ => .pure fun s u hs => ⟨rfl, hs⟩
  · exact .chain .advance fun _ => .result _
  · split
    · exact .throw _ _
    · rename_i hname
      have ht : t.kind ≠ .eof := by
        rw [Classical.not_not.mp hname]
        decide
      refine .seq (.startsUnion ht) (fun b => ?_) fun b => ?_
      · cases b with
        | true =>
          rw [if_pos rfl]
          exact (Follows.of_exists fun v => .openUnion ht d).of_imp fun _ _ h => h.2 rfl
        | false =>
          rw [if_neg Bool.false_ne_true]
          refine .ite ?_ ((Follows.field d).of_imp fun _ _ h => h.1)
          exact .refused tokenPath_advances.skipNested _ _
      · -- the brace is not seen, and so this is taken for a union inside
        rintro s a s' ⟨rfl, hunion⟩ h _
        rw [if_neg Bool.false_ne_true, if_pos (by rw [hunion]; rfl)] at h
        obtain ⟨_, _, -, h⟩ := bind_ok.mp h
        cases h

/-- A body is read in rounds that look at the next token. A comment leaves the draft as it is. -/
theorem Follows.body {β : Type} {step : β → Reader (Round β (Option β))}
    {k : β → Token → Nat → Reader (Round β (Option β))} (hcons : Consuming step)
    (heq : ∀ b, step b = do
      if (← get).report.full then return .done none
      let t ← peek
      k b t (← get).taken)
    (hk : ∀ b t n₁ n₂, Follows env (Looked env t) (k b t n₁) (k b t n₂)
      (Matches env Eq (Same fun _ => Rel env)) never)
    (hcomment : ∀ {b c n s r s'}, s.Facing c → k b c n env s = .ok r s' →
      r = .again b ∧ comment c env (s.take c) = .ok () s')
    (b : β) : Repeats env (Rel env) (rounds step b) := by
  refine .rounds (R := Eq) hcons ?_ rfl
  rintro b _ s u r s' rfl hs h hclean
  rw [heq, get_bind_apply] at h
  split at h
  · rename_i hfull
    cases h
    have hfull' : u.report.full = true := hs.core.full ▸ hfull
    have hround : step b env u = .ok (.done none) u := by
      rw [heq, get_bind_apply, if_pos hfull']
      rfl
    exact .goes hround (.done ⟨rfl, hs⟩)
  · rename_i hfull
    have hfull' : ¬ u.report.full = true := hs.core.full ▸ hfull
    refine paces_peek (fun t => .taken (hk b t)) (fun {c s₁} hfacing hrel h => ?_) ?_ hs h hclean
    · obtain ⟨rfl, hnoted⟩ := hcomment hfacing h
      exact .waits rfl (hrel.comment hnoted)
    · rw [heq, get_bind_apply, if_neg hfull']

/-- A round in front of a comment passes it. -/
theorem round_of_facing {β : Type} {m : Reader β} {b fallback : β} {n : Nat} {commaEnds : Bool}
    {r : Round β (Option β)} {k₁ k₂ : Reader (Round β (Option β))} (hfacing : s.Facing c)
    (hm : m env s = (comment c >>= fun _ => pure b) env (s.take c))
    (h : (if c.kind = .eof then k₁ else if c.isSymbol "\x7d" then k₂ else
      attempt c n commaEnds fallback m >>= fun b => pure (.again b)) env s = .ok r s') :
    r = .again b ∧ comment c env (s.take c) = .ok () s' := by
  rw [if_neg (by rw [hfacing.1]; decide), if_neg (by simp [isSymbol_comment hfacing.1])] at h
  obtain ⟨a, s₁, hattempt, h⟩ := bind_ok.mp h
  cases h
  rw [attempt, tryCatch_apply, hm] at hattempt
  cases hattempt
  exact ⟨rfl, rfl⟩

theorem member_of_facing (h : s.Facing c) :
    member d env s = (comment c >>= fun _ => pure d) env (s.take c) := by
  rw [member, bind_apply, peek_of_facing h]
  dsimp only
  rw [if_pos h.1, bind_apply, advance_of_facing h]

theorem Follows.closeUnion (d : Draft) (brace : Token) (n₁ n₂ : Nat) :
    Follows env (Rel env) (closeUnion d brace n₁) (closeUnion d brace n₂) (Same fun _ => Rel env)
      never := by
  refine .get stays_rel fun s u hcore => ?_
  dsimp only
  rw [hcore.settings]
  refine .chain (.aside stays_rel (.advanceTo _ _)) fun _ => ?_
  have hend (filled : Bool) : Repeats env (Rel env) (unionEnd brace filled) := by
    refine .chain (.expectAs _ _) fun _ => .ite (.throw _ _) ?_
    exact .result _
  refine .chain (.attempt (hend _)) fun _ => ?_
  exact .pure fun s u hs => ⟨rfl, hs⟩

theorem Follows.members (d : Draft) : Repeats env (Rel env) (members d) := by
  refine .body .memberRound (fun _ => rfl) (fun d t n₁ n₂ => ?_)
    (fun {d c n s r s'} hfacing h => ?_) d
  · refine .ite ?_ (.ite ?_ ?_)
    · refine .chain (.aside (stays_looked t) (.report _ _)) fun _ => ?_
      exact .pure fun s u hs => .done ⟨rfl, hs.toRel⟩
    · refine .chain .advance fun _ => .ite ?_ (.get stays_even fun s u hcore => ?_)
      · refine .chain ((Follows.closeUnion d t n₁ n₂).of_imp fun _ _ h => h.toRel) fun d' => ?_
        exact .pure fun s u hs => .again rfl hs
      · dsimp only
        rw [hcore.settings]
        refine .chain (.aside stays_even (.advanceTo _ _)) fun _ => ?_
        exact .pure fun s u hs => .done ⟨rfl, hs.toRel⟩
    · refine .chain (.attempt (.member d)) fun d' => ?_
      exact .pure fun s u hs => .again rfl hs
  · exact round_of_facing hfacing (member_of_facing hfacing) h

/-! ## Structs and unions -/

theorem Follows.declaredName :
    Follows env (Rel env) declaredName declaredName (Same fun _ => Rel env) fun _ s => ∃ c, s.Facing c := by
  refine .seq .peek (fun t => .ite ?_ ?_) ?_
  · exact .map (Follows.advance.imp fun _ _ _ _ h => ⟨h.1, h.2.toRel⟩) some
  · exact .pure fun s u hs => ⟨rfl, hs.toRel⟩
  · intro c s a s' hfacing h _
    rw [if_neg (by rw [hfacing.1]; decide)] at h
    cases h
    exact ⟨c, hfacing⟩

theorem Follows.parentName :
    Follows env (Rel env) parentName parentName (Same fun _ => Rel env) fun _ s => ∃ c, s.Facing c := by
  refine .seq (.accept ":") (fun b => .ite ?_ ?_) ?_
  · exact .map ((Follows.expectName _).imp fun _ _ _ _ h => ⟨h.1, h.2.toRel⟩) some
  · exact .pure fun s u hs => ⟨rfl, hs⟩
  · rintro b s a s' ⟨rfl, hfacing⟩ h _
    cases h
    exact hfacing

theorem parentName_of_facing (h : s.Facing c) : parentName env s = .ok none s := by
  rw [parentName, bind_apply, accept_of_facing h]
  rfl

theorem aside_declared : Aside (modify fun s => { s with declared := true } : Reader PUnit) :=
  .modify (fun _ => rfl) (fun _ _ => rfl) (fun _ => rfl) fun h => { h with declared := rfl }

theorem aside_openClass (name : Option String) :
    Aside (modify fun s => { s with script := s.script.openClass name } : Reader PUnit) :=
  .modify (fun _ => rfl) (fun _ _ => rfl) (fun _ => rfl) fun h => { h with current := rfl }

/-- The head of a declaration, in which something may be left out: before a comment there is no brace. -/
theorem Follows.headed {β γ : Type} {x : Reader β} {k : Token → Option Token → β → Reader γ}
    (hx : Follows env (Rel env) x x (Same fun _ => Rel env) fun _ s => ∃ c, s.Facing c)
    (hnone : ∀ {s c}, s.Facing c → ∃ b, x env s = .ok b s)
    (hk : ∀ keyword name b, Repeats env (Even env) (k keyword name b)) :
    Repeats env (Looked env t) (advance >>= fun t => headed x (k t)) := by
  refine .chain .advance fun keyword => ?_
  refine .seq (Follows.declaredName.of_imp fun _ _ h => h.toRel) (fun name => ?_) ?_
  · refine .seq hx (fun b => ?_) ?_
    · refine .chain (.expectAs _ _) fun _ => ?_
      exact .chain (.aside stays_even aside_declared) fun _ => hk keyword name b
    · rintro b s a s' ⟨c, hfacing⟩ h _
      obtain ⟨_, _, hexpect, -⟩ := bind_ok.mp h
      exact absurd hexpect (expectAs_of_facing hfacing _ _)
  · rintro o s a s' ⟨c, hfacing⟩ h _
    obtain ⟨b, hb⟩ := hnone hfacing
    rw [bind_apply, hb] at h
    obtain ⟨_, _, hexpect, -⟩ := bind_ok.mp h
    exact absurd hexpect (expectAs_of_facing hfacing _ _)

theorem Follows.opening (form : Form) (typedef : Bool) :
    Repeats env (Looked env t) (opening form typedef) := by
  refine .headed .parentName (fun h => ⟨none, parentName_of_facing h⟩)
    fun keyword name parent => .get stays_even fun s u hcore => ?_
  dsimp only
  rw [hcore.registry]
  generalize Header.of u.registry form typedef keyword name parent = header
  refine .chain (.aside stays_even ?_) fun _ => ?_
  · exact .forM (fun (l, p) => .report l p) _
  refine .chain (.aside stays_even (.forM .log _)) fun _ => ?_
  refine .chain (.aside stays_even (aside_openClass _)) fun _ => ?_
  refine .chain (.aside stays_even (.log _)) fun _ => ?_
  exact .result _

theorem Follows.typedefName (d : Draft) : Repeats env (Rel env) (typedefName d) := by
  refine .seq .peek (fun t => .ite ?_ ?_) ?_
  · refine .chain (.aside (stays_looked t) (.report _ _)) fun _ => ?_
    exact .pure fun s u hs => ⟨rfl, hs.toRel⟩
  · refine .chain .advance fun _ => .get stays_even fun s u hcore => ?_
    rw [hcore.registry]
    refine .ite ?_ (.result _)
    refine .chain (.aside stays_even (.report _ _)) fun _ => ?_
    exact .result _
  · intro c s a s' hfacing h hclean
    rw [if_pos (by simp [hfacing.1])] at h
    obtain ⟨_, s₁, hreport, h⟩ := bind_ok.mp h
    cases h
    cases hreport
    simp [Report.add] at hclean

/-! ## Enums -/

theorem Follows.backingType :
    Follows env (Rel env) backingType backingType (Same fun _ => Rel env) fun _ s => ∃ c, s.Facing c := by
  refine .seq (.accept ":") (fun b => .ite ?_ ?_) ?_
  · refine .chain (.expectName _) fun t => ?_
    have last : Follows env (Even env) (replaceBacking t) (replaceBacking t) (Same fun _ => Rel env)
        fun _ s => ∃ c, s.Facing c :=
      .chain (.aside stays_even (.report _ _)) fun _ =>
        .result _
    dsimp only
    split
    · exact .ite (.result _) last
    · exact last
  · exact .pure fun s u hs => ⟨rfl, hs⟩
  · rintro b s a s' ⟨rfl, hfacing⟩ h _
    cases h
    exact hfacing

theorem backingType_of_facing (h : s.Facing c) : backingType env s = .ok .int32 s := by
  rw [backingType, bind_apply, accept_of_facing h]
  rfl

theorem Follows.enumOpening : Repeats env (Looked env t) enumOpening := by
  refine .headed .backingType (fun h => ⟨_, backingType_of_facing h⟩)
    fun keyword name backing => .get stays_even fun s u hcore => ?_
  dsimp only
  rw [hcore.registry]
  split
  · exact .chain (.aside stays_even (.report _ _)) fun _ => .result _
  · exact .result _

theorem Follows.memberValue (e : EnumDraft) (name : Token) :
    Follows env (Rel env) (memberValue e name) (memberValue e name) (Same fun _ => Rel env)
      fun _ s => ∃ c, s.Facing c := by
  refine .seq (.accept "=") (fun b => .ite ?_ ?_) ?_
  · refine .bind_collect (.collect _) fun ts us hthins => ?_
    refine .chain ((Follows.surroundings stays_rel).of_imp fun _ _ h => h.2) fun a => ?_
    rw [hthins.evaluate_eq]
    exact (Follows.orThrow fun _ _ _ _ h => h).weaken
  · cases e.next with
    | some n => exact .pure fun s u hs => ⟨rfl, hs⟩
    | none => exact .throw _ _
  · rintro b s a s' ⟨rfl, hfacing⟩ h _
    rw [if_neg Bool.false_ne_true] at h
    cases hnext : e.next with
    | some n =>
      rw [hnext] at h
      cases h
      exact hfacing
    | none =>
      rw [hnext] at h
      cases h

/-- In front of a comment there is neither a comma nor a brace. -/
theorem constantEnd_of_facing {e e' : EnumDraft} {name : Token} {value : Constant} (h : s.Facing c) :
    constantEnd e name value env s ≠ .ok e' s' := by
  intro hok
  rw [constantEnd, bind_apply, accept_of_facing h] at hok
  obtain ⟨_, _, hcheck, hok⟩ := bind_ok.mp hok
  rw [check_of_facing h] at hcheck
  cases hcheck
  obtain ⟨_, _, -, hok⟩ := bind_ok.mp hok
  cases hok

theorem Follows.constantEnd (e : EnumDraft) (name : Token) (value : Constant) :
    Repeats env (Rel env) (constantEnd e name value) := by
  have last : Repeats env (Rel env) (addConstant e name value) := by
    refine .chain (.aside stays_rel ?_) fun _ => .pure fun s u hs => ⟨rfl, hs⟩
    exact .modify (fun _ => rfl) (fun _ _ => rfl) (fun _ => rfl) fun h =>
      { h with constants := congrArg (·.set name.text value) h.constants }
  refine .seq (.accept ",") (fun comma => .ite ?_ last) fun comma => ?_
  · refine .seq (.check "\x7d") (fun b => .looked fun t => .ite ?_ ?_) ?_
    · exact .again (fun t => .refuse _ _ _ _) t
    · exact last.of_imp fun _ _ h => h.toRel
    · rintro b s a s' ⟨rfl, hfacing⟩ h _
      obtain ⟨_, _, -, h⟩ := bind_ok.mp h
      cases h
  · rintro s a s' ⟨rfl, c, hfacing⟩ h _
    obtain ⟨_, _, hcheck, h⟩ := bind_ok.mp h
    rw [check_of_facing hfacing] at hcheck
    cases hcheck
    obtain ⟨_, _, -, h⟩ := bind_ok.mp h
    cases h

theorem Follows.enumerator (e : EnumDraft) : Repeats env (Rel env) (enumerator e) := by
  refine .chain (.expectName _) fun name => .get stays_even fun s u hcore => ?_
  rw [hcore.constants]
  refine .guard ?_
  refine .seq ((Follows.memberValue e name).of_imp fun _ _ h => h.toRel)
    (fun value => .constantEnd e name value) fun value => ?_
  rintro s a s' ⟨c, hfacing⟩ h _
  exact constantEnd_of_facing hfacing h

theorem Follows.enumMember (e : EnumDraft) : Repeats env (Looked env t) (enumMember e) := by
  refine .again (fun t => .ite ?_ (.ite ?_ ?_)) t
  · refine .chain .advance fun _ => ?_
    refine .chain (.aside stays_even (.comment t)) fun _ => ?_
    exact .result _
  · exact .chain .directive fun _ => .pure fun s u hs => ⟨rfl, hs⟩
  · exact (Follows.enumerator e).of_imp fun _ _ h => h.toRel

theorem enumMember_of_facing {e : EnumDraft} (h : s.Facing c) :
    enumMember e env s = (comment c >>= fun _ => pure e) env (s.take c) := by
  rw [enumMember, bind_apply, peek_of_facing h]
  dsimp only
  rw [if_pos h.1, bind_apply, advance_of_facing h]

theorem Follows.enumMembers (keyword : Token) (e : EnumDraft) :
    Repeats env (Rel env) (enumMembers keyword e) := by
  refine .body (.enumRound keyword) (fun _ => rfl) (fun e t n₁ n₂ => ?_)
    (fun {e c n s r s'} hfacing h => ?_) e
  · refine .ite ?_ (.ite ?_ ?_)
    · refine .chain (.aside (stays_looked t) (.report _ _)) fun _ => ?_
      exact .pure fun s u hs => .done ⟨rfl, hs.toRel⟩
    · exact .chain .advance fun _ => .pure fun s u hs => .done ⟨rfl, hs.toRel⟩
    · refine .chain (.attempt (.enumMember e)) fun e' => ?_
      exact .pure fun s u hs => .again rfl hs
  · exact round_of_facing hfacing (enumMember_of_facing hfacing) h

end Thinning
end RecordView.Declaration
