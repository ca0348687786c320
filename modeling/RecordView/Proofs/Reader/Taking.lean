import RecordView.Proofs.Declaration.Comparison
import RecordView.Proofs.Reader.Trail

/-! Where a reading leads: a relation between states that holds along the taking of tokens, along comments
and settings and along each field that is written holds along all the members of a body. -/
namespace RecordView.Declaration
open Reader

variable {α β : Type} {R : State → State → Prop} {m : Reader α}

/-- A reading goes, from the states that `s₀` leads to, to such states. -/
def along (R : State → State → Prop) (env : Env) (s₀ : State) : Discipline where
  env := env
  keep := R s₀
  fails _ := R s₀
  refusal _ := True
  place _ := True
  around _ := True
  draft _ := True
  value _ := True

namespace Reader
namespace Along

variable {env : Env} {s₀ : State} {i : Nat × Nat} {m' : Reader α} {V : α → α → Prop}

theorem holds (hR : IsPath R) (hm : Along R m) : (along R env s₀).Holds (fun _ => True) m := by
  constructor
  intro s hs
  have h := hR.trans hs (hm env s)
  unfold after at h
  show Expected _ _ _ (m env s)
  cases hend : m env s with
  | ok a s' =>
    rw [hend] at h
    exact ⟨h, trivial⟩
  | error e s' =>
    rw [hend] at h
    cases e with
    | refused d => exact ⟨h, trivial⟩
    | failed f => exact h

theorem judge (hR : IsPath R) (hm : Along R m) (hV : ∀ a, ∃ a', V a a') :
    (along R env s₀).comparison.Judge i V m m' := (hm.holds hR).judge fun a _ => hV a

theorem same (hR : IsPath R) (hm : Along R m) : (along R env s₀).comparison.Judge i Eq m m' :=
  hm.judge hR fun a => ⟨a, rfl⟩

theorem of_judge (hR : IsPath R) (i : Nat × Nat) {V : Env → State → α → α → Prop}
    {m' : Env → State → Reader α} (h : ∀ env s, (along R env s).comparison.Judge i (V env s) m (m' env s)) :
    Along R m := by
  intro env s
  have hend := (h env s).kept s (hR.refl s)
  change Expected _ _ _ (m env s) at hend
  unfold after
  cases hm : m env s with
  | ok a s' =>
    rw [hm] at hend
    exact hend.1
  | error e s' =>
    rw [hm] at hend
    cases e with
    | refused d => exact hend.1
    | failed f => exact hend

end Along
end Reader

/-! ## Tokens -/

/-- A relation that holds along the taking of tokens, while no error is recorded. -/
structure TakingPath (R : State → State → Prop) : Prop extends IsPath R where
  peek : Along R peek
  peekSecond : Along R peekSecond
  advance : Along R advance
  log : ∀ n, Along R (log n)

namespace TakingPath

/-- Tokens are drawn, then they are taken one after another. -/
theorem of_draw (hR : IsPath R) (draw : ∀ n, Along R (draw n)) (take : ∀ s t, R s (s.take t))
    (note : ∀ (s : State) n, R s { s with notes := s.notes ++ [n] }) : TakingPath R := by
  have hahead (n : Nat) : Along R (ahead n) := fun _ s => hR.refl s
  have hpeek : Along R Reader.peek := .bind hR (draw 0) fun _ => hahead 0
  refine ⟨hR, hpeek, .bind hR (draw 0) fun _ => .bind hR (draw 1) fun _ => hahead 1, ?_, fun n => ?_⟩
  · refine .bind hR hpeek fun t => .ite ?_ fun _ s => hR.refl s
    exact .bind hR (fun _ s => take s t) fun _ _ s => hR.refl s
  · exact .ite (fun _ s => note s n) fun _ s => hR.refl s

variable (hR : TakingPath R)
include hR

theorem bind {f : α → Reader β} (hm : Along R m) (hf : ∀ a, Along R (f a)) : Along R (m >>= f) :=
  .bind hR.toIsPath hm hf

theorem pure (a : α) : Along R (Pure.pure a : Reader α) := fun _ s => hR.refl s

theorem throw (e : Halt Diagnostic) : Along R (throw e : Reader α) := fun _ s => hR.refl s

theorem get : Along R (MonadState.get : Reader State) := fun _ s => hR.refl s

theorem surroundings : Along R Reader.surroundings := fun _ s => hR.refl s

theorem orThrow (x : Except (Halt Diagnostic) α) : Along R (Reader.orThrow x) := by
  cases x with
  | ok a => exact hR.pure a
  | error e => exact hR.throw e

theorem advance_bind_pure (a : α) : Along R (do
    let _ ← Reader.advance
    return a) := hR.bind hR.advance fun _ => hR.pure a

theorem tokens (env : Env) (s₀ : State) : (along R env s₀).comparison.Tokens where
  toAgrees := (along R env s₀).agrees
  loops := .of_fails fun _ hs => hs
  peek := hR.peek.judge hR.toIsPath fun t => ⟨t, rfl, trivial⟩
  peekSecond := hR.peekSecond.judge hR.toIsPath fun t => ⟨t, rfl⟩
  advance := hR.advance.judge hR.toIsPath fun t => ⟨t, rfl, trivial⟩
  log n := (hR.log n).same hR.toIsPath
  refusal _ _ := trivial
  surroundings := hR.surroundings.judge hR.toIsPath fun u => ⟨u, trivial⟩
  evaluate _ _ _ := (hR.orThrow _).judge hR.toIsPath fun c => ⟨c, rfl, trivial⟩
  int _ := trivial

/-- What every comparison of tokens does leads where their taking leads. -/
theorem of_tokens {V : Comparison → α → α → Prop} {m' : Comparison → Reader α}
    (h : ∀ {C : Comparison}, C.Tokens → C.Judge (0, 0) (V C) m (m' C)) : Along R m :=
  .of_judge hR.toIsPath (0, 0) fun env s => h (hR.tokens env s)

theorem check (symbol : String) : Along R (Reader.check symbol) := hR.of_tokens fun hC => hC.check symbol

theorem accept (symbol : String) : Along R (Reader.accept symbol) := hR.of_tokens fun hC => hC.accept symbol

theorem expectAs (symbol : String) (wanted : Wanted) : Along R (Reader.expectAs symbol wanted) :=
  hR.of_tokens fun hC => hC.expectAs symbol wanted

theorem expectName (wanted : Wanted) : Along R (Reader.expectName wanted) :=
  hR.of_tokens fun hC => hC.expectName wanted

theorem collect (stops : List String) : Along R (Reader.collect stops) :=
  hR.of_tokens fun hC => hC.collect stops

theorem skipStatement (line : Nat) (commaEnds : Bool) : Along R (Reader.skipStatement line commaEnds) :=
  hR.of_tokens fun hC => hC.skipStatement line commaEnds

theorem synchronize (line start : Nat) (commaEnds : Bool) :
    Along R (Reader.synchronize line start commaEnds) :=
  .of_judge hR.toIsPath (start, 0) fun env s => (hR.tokens env s).synchronize line commaEnds

theorem declaredName : Along R Reader.declaredName := hR.of_tokens fun hC => hC.declaredName

theorem parentName : Along R Reader.parentName := hR.of_tokens fun hC => hC.parentName

theorem skipNested : Along R Reader.skipNested := hR.of_tokens fun hC => hC.skipNested

theorem startsUnion (t : Token) : Along R (Reader.startsUnion t) :=
  hR.of_tokens fun hC => hC.startsUnion t

theorem fieldStatement : Along R Reader.fieldStatement := hR.of_tokens fun hC => hC.fieldStatement

/-- What stands after the type of a field statement. -/
theorem fieldStatement_eq : ∃ k : Token → Reader FieldStatement,
    Reader.fieldStatement = (Reader.advance >>= k) ∧ ∀ type, Along R (k type) := by
  obtain ⟨k, heq, hk⟩ := Comparison.Tokens.fieldStatement_eq
  exact ⟨k, heq, fun type => .of_judge hR.toIsPath (0, 0) fun env s => hk (hR.tokens env s) type trivial⟩

theorem memberValue (e : EnumDraft) (name : Token) : Along R (Reader.memberValue e name) :=
  .of_judge hR.toIsPath (0, 0) fun env s => (hR.tokens env s).memberValue e trivial

/-! ## Directives and members -/

section Setting

variable (setting : ∀ name value, Along R (applySetting name value))
include setting

/-- What stands after the mark of a directive leads where settings lead. -/
theorem directive_eq : ∃ k : Token → Reader Unit, Reader.directive = (Reader.advance >>= k) ∧
    ∀ mark, Along R (k mark) := by
  obtain ⟨k, heq, hk⟩ := Comparison.Tokens.directive_eq
  exact ⟨k, heq, fun mark => .of_judge hR.toIsPath (0, 0) fun env s =>
    hk (hR.tokens env s) (fun name value => (setting name value).same hR.toIsPath) mark trivial⟩

theorem directive : Along R Reader.directive := by
  obtain ⟨k, heq, hk⟩ := hR.directive_eq setting
  rw [heq]
  exact hR.bind hR.advance hk

theorem asides (comment : ∀ t, Along R (comment t)) (env : Env) (s₀ : State) :
    (along R env s₀).comparison.Asides where
  toTokens := hR.tokens env s₀
  comment _ := (comment _).same hR.toIsPath
  setting name value := (setting name value).same hR.toIsPath

end Setting

section Field

variable (field : ∀ f, Along R (write fun s => s.script.addField s.settings f))
include field

theorem perform (steps : List Step) : Along R (Reader.perform steps) := by
  induction steps with
  | nil => exact hR.pure _
  | cons step steps ih =>
    refine hR.bind ?_ fun _ => ih
    cases step with
    | field f => exact field f
    | note n => exact hR.log n

theorem fields (env : Env) (s₀ : State) : (along R env s₀).comparison.Fields where
  toTokens := hR.tokens env s₀
  declare _ _ _ := (hR.orThrow _).judge hR.toIsPath fun d => ⟨d, rfl, trivial⟩
  advanceTo _ _ := (hR.perform field _).same hR.toIsPath
  openUnion hs hd _ := ⟨by rw [hs, hd.1], trivial⟩
  closeUnion hs hd _ := ⟨⟨by rw [hs, hd.1], trivial⟩, by rw [hs, hd.1]⟩
  flush hs hd := ⟨by rw [hs, hd.1], trivial⟩

theorem fieldMember (d : Draft) : Along R (Reader.field d) :=
  .of_judge hR.toIsPath (0, 0) fun env s => (hR.fields field env s).field ⟨rfl, trivial⟩

theorem openUnion (d : Draft) : Along R (Reader.openUnion d) :=
  .of_judge hR.toIsPath (0, 0) fun env s => (hR.fields field env s).unionMember ⟨rfl, trivial⟩

/-- A member leads where comments, settings and fields lead. -/
theorem member (comment : ∀ t, Along R (comment t))
    (setting : ∀ name value, Along R (applySetting name value)) (d : Draft) : Along R (Reader.member d) := by
  have hmembers (env : Env) (s : State) : (along R env s).comparison.Members :=
    { hR.asides setting comment env s, hR.fields field env s with }
  exact .of_judge hR.toIsPath (0, 0) fun env s => (hmembers env s).member ⟨rfl, trivial⟩

end Field

end TakingPath

/-! ## Bodies -/

/-- A relation that holds along the taking of tokens and the recording of errors. -/
structure TokenPath (R : State → State → Prop) : Prop extends TakingPath R where
  report : ∀ location p, Along R (report location p)
  record : ∀ d t, Along R (record d t)
  warnOfPadding : ∀ d t, Along R (warnOfPadding d t)

namespace TokenPath

variable (hR : TokenPath R)
include hR

theorem reports (env : Env) (s₀ : State) : (along R env s₀).comparison.Reports where
  toTokens := hR.tokens env s₀
  report p _ := (hR.report _ p).same hR.toIsPath
  record _ _ := (hR.record _ _).same hR.toIsPath

theorem typedefName (d : Draft) : Along R (typedefName d) :=
  .of_judge hR.toIsPath (0, 0) fun env s => (hR.reports env s).typedefName ⟨rfl, trivial⟩ fun _ =>
    ⟨rfl, trivial⟩

theorem backingType : Along R backingType :=
  .of_judge hR.toIsPath (0, 0) fun env s => (hR.reports env s).backingType

theorem recover (t : Token) (start : Nat) (commaEnds : Bool) (fallback : α) (e : Halt Diagnostic) :
    Along R (recover t start commaEnds fallback e) := by
  cases e with
  | failed f => exact hR.throw _
  | refused d => exact hR.bind (hR.record d t) fun _ => hR.bind (hR.synchronize _ _ _) fun _ => hR.pure _

theorem attempt (t : Token) (start : Nat) (commaEnds : Bool) (fallback : α) (hm : Along R m) :
    Along R (attempt t start commaEnds fallback m) :=
  .tryCatch hR.toIsPath hm fun e => hR.recover t start commaEnds fallback e

/-- A refused statement is recorded and skipped. -/
theorem after_attempt {env : Env} {s s₁ : State} (t : Token) (start : Nat) (commaEnds : Bool) (fallback : α)
    (h : R s (after m env s₁)) : R s (after (Reader.attempt t start commaEnds fallback m) env s₁) := by
  cases hm : m env s₁ with
  | ok a s₂ =>
    rw [after_of_ok hm] at h
    rwa [after_of_ok (by rw [Reader.attempt, tryCatch_apply, hm])]
  | error e s₂ =>
    have heq : Reader.attempt t start commaEnds fallback m env s₁ =
        Reader.recover t start commaEnds fallback e env s₂ := by
      rw [Reader.attempt, tryCatch_apply, hm]
    rw [after_of_error hm] at h
    rw [after_congr heq]
    exact hR.trans h (hR.recover t start commaEnds fallback e env s₂)

end TokenPath

/-- A relation that holds along what may stand between declarations and inside them. -/
structure AsidePath (R : State → State → Prop) : Prop extends TokenPath R where
  comment : ∀ t, Along R (comment t)
  setting : ∀ name value, Along R (applySetting name value)

theorem AsidePath.directive (hR : AsidePath R) : Along R directive := hR.toTakingPath.directive hR.setting

structure FieldPath (R : State → State → Prop) : Prop extends TokenPath R where
  field : ∀ f, Along R (write fun s => s.script.addField s.settings f)

namespace FieldPath

variable (hR : FieldPath R)
include hR

theorem perform (steps : List Step) : Along R (perform steps) := hR.toTakingPath.perform hR.field steps

theorem fieldMember (d : Draft) : Along R (Reader.field d) := hR.toTakingPath.fieldMember hR.field d

theorem openUnion (d : Draft) : Along R (openUnion d) := hR.toTakingPath.openUnion hR.field d

theorem closeUnion (d : Draft) (brace : Token) (start : Nat) : Along R (closeUnion d brace start) := by
  refine .get_bind fun env s => hR.bind (hR.perform _) (fun _ => hR.bind ?_ fun _ => hR.pure _) env s
  refine hR.attempt _ _ _ _ (hR.bind (hR.expectAs _ _) fun _ => ?_)
  exact .ite (hR.throw _) (hR.pure _)

end FieldPath

structure BodyPath (R : State → State → Prop) : Prop extends AsidePath R, FieldPath R

namespace BodyPath

variable (hR : BodyPath R)
include hR

theorem bodies (env : Env) (s₀ : State) : (along R env s₀).comparison.Bodies :=
  { hR.asides hR.setting hR.comment env s₀, hR.fields hR.field env s₀, hR.reports env s₀ with
    location := fun _ => trivial }

theorem memberRound (d : Draft) : Along R (memberRound d) :=
  .of_judge hR.toIsPath (0, 0) fun env s => (hR.bodies env s).memberRound ⟨rfl, trivial⟩

theorem members (d : Draft) : Along R (members d) := .rounds hR.toIsPath hR.memberRound d

end BodyPath

/-! ## Headers -/

/-- A relation that holds along what stands in front of the members of declarations. -/
structure OpeningPath (R : State → State → Prop) : Prop extends TokenPath R where
  opened : ∀ s : State, R s { s with declared := true }
  openClass : ∀ (s : State) name, R s { s with script := s.script.openClass name }

namespace OpeningPath

variable (hR : OpeningPath R)
include hR

theorem openings (env : Env) (s₀ : State) : (along R env s₀).comparison.Openings where
  toReports := hR.reports env s₀
  header _ _ hs _ hname hparent := Discipline.heads hs hname hparent trivial fun _ _ => trivial
  opened := Along.same hR.toIsPath fun _ s => hR.opened s
  openClass name := Along.same hR.toIsPath fun _ s => hR.openClass s name

theorem bodyHead (form : Form) (typedef : Bool) (keyword : Token) :
    Along R (headed parentName (openBody form typedef keyword)) :=
  .of_judge hR.toIsPath (0, 0) fun env s => (hR.openings env s).bodyHead form typedef trivial

theorem enumHead (keyword : Token) : Along R (headed backingType (openEnum keyword)) :=
  .of_judge hR.toIsPath (0, 0) fun env s => (hR.openings env s).enumHead trivial

theorem opening (form : Form) (typedef : Bool) : Along R (opening form typedef) :=
  .of_judge hR.toIsPath (0, 0) fun env s => (hR.openings env s).opening form typedef

theorem enumOpening : Along R enumOpening :=
  .of_judge hR.toIsPath (0, 0) fun env s => (hR.openings env s).enumOpening

end OpeningPath

/-! ## Descriptions -/

namespace AsidePath

variable (hR : AsidePath R) (aggregate : ∀ form typedef, Along R (aggregate form typedef))
  (enumeration : Along R enumeration)
include hR aggregate enumeration

theorem statements (env : Env) (s₀ : State) : (along R env s₀).comparison.Statements :=
  { hR.asides hR.setting hR.comment env s₀, hR.reports env s₀ with
    aggregate := fun form typedef => (aggregate form typedef).same hR.toIsPath
    enumeration := enumeration.same hR.toIsPath }

theorem statementAt (t : Token) (start : Nat) : Along R (statementAt t start) :=
  .of_judge hR.toIsPath (start, 0) fun env s => (hR.statements aggregate enumeration env s).statementAt trivial

theorem statementRound : Along R (statementRound ()) :=
  .of_judge hR.toIsPath (0, 0) fun env s => (hR.statements aggregate enumeration env s).statementRound

theorem description : Along R description :=
  .rounds hR.toIsPath (fun _ => hR.statementRound aggregate enumeration) ()

end AsidePath
end RecordView.Declaration
