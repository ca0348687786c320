import RecordView.Proofs.Reader.Taking

/-! Which parts of the state the functions of the reading leave alone: taking tokens touches no
declaration and no setting, members touch no declaration. -/
namespace RecordView
namespace Script

def Item.isDecl : Item → Bool
  | .verbatim _ => false
  | _ => true

/-- The classes and enums of a script, without the text that is taken over as it is. -/
def decls (s : Script) : List Item := s.items.filter Item.isDecl

theorem decls_verbatim (s : Script) (text : String) : (s.verbatim text).decls = s.decls := by
  unfold verbatim
  split
  · rfl
  · simp [decls, Item.isDecl]

section
variable {s s' : Script} {u : Settings}

/-- A field is written as its accessor in the open class; padding, and a field outside a class, is not
written. -/
theorem addField_eq_ok_iff {f : Field} :
    s.addField u f = .ok s' ↔
      (s.current = none ∨ f.padding = true) ∧ s' = s ∨
        ∃ o a, s.current = some o ∧ f.padding = false ∧ accessor u f = .ok a ∧
          s' = s.addAccessor o a := by
  unfold addField
  cases s.current with
  | none => simp [@eq_comm _ s']
  | some o =>
    cases f.padding with
    | true => simp [@eq_comm _ s']
    | false => simp [bind_eq_ok_iff, pure, Except.pure, @eq_comm _ s']

theorem closeClass_eq_ok_iff {r : Registry} {t : TypeInfo} :
    s.closeClass u r t = .ok s' ↔
      s.current = none ∧ s' = s ∨
        ∃ o, s.current = some o ∧ Decimal.writable t.byteLength ∧
          s' = { s with
            current := none
            items := s.items ++ [.classDecl (classOf u r t o)]
            exports := s.exportsWith u t.name } := by
  unfold closeClass
  cases s.current with
  | none => simp [@eq_comm _ s']
  | some o => by_cases hw : Decimal.writable t.byteLength <;> simp [hw, @eq_comm _ s']

theorem decls_addField {f : Field} (h : s.addField u f = .ok s') : s'.decls = s.decls := by
  rcases addField_eq_ok_iff.mp h with ⟨-, rfl⟩ | ⟨o, a, -, -, -, rfl⟩
  · rfl
  · rfl

end

end Script

variable {γ α : Type}

namespace Declaration
open Reader

/-- A state without what the taking of tokens changes. -/
def State.held (s : State) : State :=
  { s with
    unread := [], frames := [], ahead := [], eof := none, last := none, taken := 0,
    report := {}, notes := [] }

/-- The settings, what is declared, and what is written for it: the meaning of a field statement
depends on no more than this. -/
def State.context (s : State) : Settings × Registry × Scope × List Script.Item :=
  (s.settings, s.registry, s.constants, s.script.decls)

def State.declarations (s : State) : Registry × Scope × List Script.Item :=
  (s.registry, s.constants, s.script.decls)

def State.output (s : State) : Registry × List Script.Item := (s.registry, s.script.decls)

variable {π : State → γ} {m : Reader α}

namespace Reader

/-! ## Taking tokens -/

theorem Keeps.refuse (location : Location) (p : Problem) :
    Keeps π (refuse location p : Reader α) := .throw _

theorem Keeps.orThrow (x : Except (Halt Diagnostic) α) : Keeps π (orThrow x) := by
  cases x with
  | ok a => exact .pure a
  | error e => exact .throw e

theorem held_log (n : Note) : Keeps State.held (log n) :=
  .ite (.modify fun _ => rfl) (.throw _)

theorem held_report (location : Location) (p : Problem) : Keeps State.held (report location p) :=
  .bind .read fun _ => .modify fun _ => rfl

theorem held_draw (n : Nat) : Keeps State.held (draw n) := by
  refine .bind .read fun env => .get_bind fun env' s => ?_
  split
  · -- what is drawn decides only which of the token fields is set
    dsimp only
    cases (Frames.draw s.settings.flags env.sourceLine s.frames s.unread).found with
    | error f => rfl
    | ok t =>
      cases t with
      | none => rfl
      | some t =>
        change State.held (after (if t.kind = .eof then (set _ : Reader Unit) else set _) env' _) = _
        split <;> rfl
  · rfl

theorem held_warnOfPadding (d : Draft) (t : TypeInfo) : Keeps State.held (warnOfPadding d t) := by
  refine .ite ?_ (.pure _)
  exact .bind (.modify fun _ => rfl) fun _ => held_log _

end Reader

/-- A relation that holds where only tokens were taken holds along their taking. -/
theorem TokenPath.of_held {R : State → State → Prop} (hR : IsPath R)
    (tokens : ∀ {s s'}, s'.held = s.held → R s s') : TokenPath R where
  toTakingPath := .of_draw hR (fun n => .of_keeps (held_draw n) fun _ _ => tokens) (fun _ _ => tokens rfl)
    fun _ _ => tokens rfl
  report location p := .of_keeps (held_report location p) fun _ _ => tokens
  record _ _ := .of_keeps (.bind .read fun _ => .modify fun _ => rfl) fun _ _ => tokens
  warnOfPadding d t := .of_keeps (held_warnOfPadding d t) fun _ _ => tokens

namespace Reader

/-- What the taking of tokens leaves alone stays the same. -/
theorem tokenPath_keeps (f : State → γ) : TokenPath fun s s' => f s'.held = f s.held :=
  .of_held (isPath_keeps fun s => f s.held) fun h => congrArg f h

theorem tokenPath_held : TokenPath fun s s' => s'.held = s.held := tokenPath_keeps id

theorem held_peek : Keeps State.held peek := tokenPath_held.peek

theorem held_advance : Keeps State.held advance := tokenPath_held.advance

theorem held_check (symbol : String) : Keeps State.held (check symbol) := tokenPath_held.check symbol

theorem held_accept (symbol : String) : Keeps State.held (accept symbol) := tokenPath_held.accept symbol

theorem held_expectAs (symbol : String) (wanted : Wanted) :
    Keeps State.held (expectAs symbol wanted) := tokenPath_held.expectAs symbol wanted

theorem held_expectName (wanted : Wanted) : Keeps State.held (expectName wanted) :=
  tokenPath_held.expectName wanted

theorem held_startsUnion (t : Token) : Keeps State.held (startsUnion t) := tokenPath_held.startsUnion t

theorem held_fieldStatement : Keeps State.held fieldStatement := tokenPath_held.fieldStatement

/-! ## Members -/

theorem Keeps.context (hm : Keeps State.held m) : Keeps State.context m := hm.comp State.context

theorem Keeps.declarations (hm : Keeps State.context m) : Keeps State.declarations m := hm.comp Prod.snd

theorem Keeps.settings (hm : Keeps State.context m) : Keeps State.settings m := hm.comp Prod.fst

theorem Keeps.registry (hm : Keeps State.declarations m) : Keeps State.registry m := hm.comp Prod.fst

theorem Keeps.output (hm : Keeps State.declarations m) : Keeps State.output m := hm.comp fun x => (x.1, x.2.2)

theorem write_apply (f : State → Except Failure Script) (env : Env) (s : State) :
    write f env s =
      match f s with
      | .ok script => .ok () { s with script }
      | .error g => .error (.failed g) s := by
  rw [write, get_bind_apply]
  cases f s with
  | ok script => rfl
  | error g => rfl

theorem after_write (f : State → Except Failure Script) (env : Env) (s : State) :
    after (write f) env s =
      match f s with
      | .ok script => { s with script }
      | .error _ => s := by
  rw [after, write_apply]
  cases f s with
  | ok script => rfl
  | error g => rfl

namespace Along

variable {R : State → State → Prop}

/-- What is written to the script leads where the script leads. -/
theorem write {f : State → Except Failure Script} (hR : IsPath R)
    (h : ∀ s script, f s = .ok script → R s { s with script }) : Along R (Reader.write f) := by
  intro env s
  rw [after_write]
  cases hf : f s with
  | ok script => exact h s script hf
  | error g => exact hR.refl s

theorem register {t : TypeInfo} (hR : IsPath R)
    (h : ∀ s registry, s.registry.register t = .ok registry → R s { s with registry }) :
    Along R (Reader.register t) := by
  refine .get_bind fun env s => ?_
  cases hr : s.registry.register t with
  | ok registry => exact h s registry hr
  | error p => exact hR.refl s

theorem applySetting {name value : String} (hR : IsPath R)
    (inject : ∀ s : State, R s { s with script := s.script.verbatim value })
    (setting : ∀ s settings, s.settings.apply name value s.declared = .ok settings →
      R s { s with settings }) : Along R (Reader.applySetting name value) := by
  rw [applySetting_eq]
  refine .get_bind fun env s => ?_
  split
  · exact inject s
  · cases hu : s.settings.apply name value s.declared with
    | ok settings => exact setting s settings hu
    | error r => exact hR.refl s

/-- A comment is taken over as it is, or left out. -/
theorem comment {t : Token} (left : ∀ s : State, R s { s with commentSeen := true })
    (kept : ∀ s : State, R s { s with commentSeen := true, script := s.script.verbatim t.text }) :
    Along R (Reader.comment t) := by
  intro env s
  show R s { s with
    commentSeen := true, script := if keepsComment s then s.script.verbatim t.text else s.script }
  split
  · exact kept s
  · exact left s

end Along

theorem context_addField (f : Field) :
    Keeps State.context (write fun s => s.script.addField s.settings f) :=
  Along.write (isPath_keeps State.context) fun s script h => by
    simp only [State.context, Script.decls_addField h]

theorem fieldPath_context : FieldPath fun s s' => s'.context = s.context :=
  ⟨tokenPath_keeps State.context, context_addField⟩

theorem context_comment (t : Token) : Keeps State.context (comment t) :=
  Along.comment (R := fun s s' => s'.context = s.context) (fun _ => rfl) fun s => by
    simp [State.context, Script.decls_verbatim]

theorem declarations_applySetting (name value : String) :
    Keeps State.declarations (applySetting name value) :=
  Along.applySetting (isPath_keeps _) (fun s => by simp [State.declarations, Script.decls_verbatim])
    fun _ _ _ => rfl

theorem bodyPath_declarations : BodyPath fun s s' => s'.declarations = s.declarations where
  toTokenPath := tokenPath_keeps State.declarations
  comment t := (context_comment t).declarations
  setting := declarations_applySetting
  field f := (context_addField f).declarations

theorem declarations_members (d : Draft) : Keeps State.declarations (members d) :=
  bodyPath_declarations.members d

/-! ## Declarations -/

theorem openingPath_context : OpeningPath fun s s' => s'.context = s.context :=
  ⟨tokenPath_keeps State.context, fun _ => rfl, fun _ _ => rfl⟩

theorem context_opening (form : Form) (typedef : Bool) : Keeps State.context (opening form typedef) :=
  openingPath_context.opening form typedef

theorem context_enumOpening : Keeps State.context enumOpening := openingPath_context.enumOpening

theorem held_typedefName (d : Draft) : Keeps State.held (typedefName d) := tokenPath_held.typedefName d

theorem context_discardClass : Keeps State.context discardClass := .modify fun _ => rfl

theorem held_memberValue (e : EnumDraft) (name : Token) : Keeps State.held (memberValue e name) :=
  tokenPath_held.memberValue e name

end Reader

/-! ## Enums -/

variable {R : State → State → Prop}

section Constant

variable (hR : TakingPath R) (constant : ∀ (s : State) name value, s.constants.contains name = false →
  R s { s with constants := s.constants.set name value })
include hR constant

/-- A member of an enum leads where the definition of a new constant leads. -/
theorem TakingPath.enumerator (e : EnumDraft) : Along R (enumerator e) := by
  intro env s
  refine hR.after_bind (hR.expectName _ env s) fun name s₁ _ => ?_
  rw [after_get_bind]
  split
  · exact hR.refl s₁
  rename_i hnew
  have last (value : Constant) {s₂ : State} (held : s₂.held = s₁.held) :
      R s₂ { s₂ with constants := s₂.constants.set name.text value } := by
    have hconstants : s₂.constants = s₁.constants := (congrArg State.constants held :)
    refine constant s₂ name.text value ?_
    rw [hconstants]
    exact Bool.eq_false_iff.mpr hnew
  refine hR.after_bind (hR.memberValue e name env s₁) fun value s₂ hvalue => ?_
  refine hR.after_bind (hR.accept _ env s₂) fun comma s₃ hcomma => ?_
  have held₃ : s₃.held = s₁.held :=
    ((held_accept _).of_ok hcomma).trans ((held_memberValue e name).of_ok hvalue)
  split
  · refine hR.after_bind (hR.check _ env s₃) fun brace s₄ hbrace => ?_
    split
    · exact hR.after_bind (hR.peek env s₄) fun t s₅ _ => hR.refl s₅
    · exact last value (((held_check _).of_ok hbrace).trans held₃)
  · exact last value held₃

theorem TakingPath.enumMember (comment : ∀ t, Along R (comment t))
    (setting : ∀ name value, Along R (applySetting name value)) (e : EnumDraft) : Along R (enumMember e) :=
  .of_judge hR.toIsPath (0, 0) fun env s => (hR.asides setting comment env s).enumMember
    ((hR.enumerator constant e).same hR.toIsPath)

end Constant

namespace AsidePath

variable (hR : AsidePath R) (enumerator : ∀ e, Along R (enumerator e))
include hR enumerator

theorem enums (env : Env) (s₀ : State) : (along R env s₀).comparison.Enums :=
  { hR.asides hR.setting hR.comment env s₀, hR.reports env s₀ with
    enumerator := fun e => (enumerator e).same hR.toIsPath }

theorem enumRound (keyword : Token) (e : EnumDraft) : Along R (enumRound keyword e) :=
  .of_judge hR.toIsPath (0, 0) fun env s => (hR.enums enumerator env s).enumRound trivial e

theorem enumMembers (keyword : Token) (e : EnumDraft) : Along R (enumMembers keyword e) :=
  .rounds hR.toIsPath (hR.enumRound enumerator keyword) e

end AsidePath

namespace Reader

theorem asidePath_output : AsidePath fun s s' => s'.output = s.output where
  toTokenPath := tokenPath_keeps State.output
  comment t := (context_comment t).declarations.output
  setting name value := (declarations_applySetting name value).output

theorem output_enumerator (e : EnumDraft) : Keeps State.output (enumerator e) :=
  asidePath_output.enumerator (fun _ _ _ _ => rfl) e

theorem output_enumMembers (keyword : Token) (e : EnumDraft) : Keeps State.output (enumMembers keyword e) :=
  asidePath_output.enumMembers output_enumerator keyword e

end Reader
end Declaration
end RecordView
