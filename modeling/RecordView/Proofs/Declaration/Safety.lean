import RecordView.Proofs.Declaration.Class
import RecordView.Proofs.Declaration.Comparison
import RecordView.Proofs.Declaration.Progress
import RecordView.Proofs.Script.Accessible

/-! A reading fails only of arithmetic: no loop stalls, no constant is without a value, and every field
has an accessor. -/
namespace RecordView.Declaration
open Reader

/-- Tokens are seen up to the end of the input, and every constant has a value. -/
structure State.Steady (s : State) : Prop where
  live : s.Live
  present : Scope.Present s.constants

/-- A reading keeps a steady state, gives results with a property, and fails only of arithmetic. -/
structure Safe {α : Type} (env : Env) (q : α → Prop) (m : Reader α) : Prop where
  triple : Triple env State.Steady m (fun a s => s.Steady ∧ q a) (fun _ => State.Steady)
    fun f _ => f.Arithmetic

abbrev anything {α : Type} (_ : α) : Prop := True

/-- A draft whose fields can be written, in which no run is left over in a union. -/
def Writable (d : Draft) : Prop := d.Settled ∧ d.Accessible

def steady (env : Env) : Discipline where
  env := env
  keep := State.Steady
  fails f _ := f.Arithmetic
  refusal _ := True
  place _ := True
  around u := u.scope.Present
  draft := Writable
  value c := c ≠ .absent

variable {env : Env} {α : Type} {d d' : Draft}

/-! ## Tokens -/

/-- A loop whose rounds take a token if they go on does not stall. -/
theorem goes_steady {β : Type} {step : β → Reader (Round β α)} (hstep : Consuming step) :
    (steady env).comparison.Goes step := by
  intro b s b' s' hs _ hround hleft
  rcases hs with hs | ⟨_, _, hs⟩
  · exact absurd (hstep.left_lt hs.live hround) hleft
  · exact hs.elim

theorem steady_draw (n : Nat) : (steady env).Holds anything (Reader.draw n) := by
  constructor
  intro s hs
  have hlive := ((Advancing.draw n env s).live hs.live).1
  have hpresent : Scope.Present (after (Reader.draw n) env s).constants := by
    have hheld := congrArg State.constants (held_draw n env s)
    exact (show _ = s.constants from hheld) ▸ hs.present
  unfold after at hlive hpresent
  show Expected _ _ _ (Reader.draw n env s)
  rw [draw_apply] at hlive hpresent ⊢
  split
  · rename_i hc
    rw [if_pos hc] at hlive hpresent
    unfold State.drawNext at hlive hpresent ⊢
    cases hfound : (s.draw env).found with
    | error f => exact (Frames.draws _ _ _ _).arithmetic s.settings.flags_present hfound
    | ok o =>
      rw [hfound] at hlive hpresent
      exact ⟨⟨hlive, hpresent⟩, trivial⟩
  · exact ⟨hs, trivial⟩

theorem steady_ahead (n : Nat) : (steady env).Holds anything (ahead n) := ⟨fun _ hs => ⟨hs, trivial⟩⟩

theorem steady_peek : (steady env).Holds anything peek := (steady_draw 0).bind fun _ _ => steady_ahead 0

theorem steady_log (n : Note) : (steady env).Holds anything (log n) :=
  .ite (.modify fun _ hs => ⟨hs.live, hs.present⟩) ⟨fun _ _ => .inr rfl⟩

theorem steady_write {f : State → Except Failure Script} (h : ∀ s g, f s = .error g → g.Arithmetic) :
    (steady env).Holds anything (write f) := by
  constructor
  intro s hs
  show Expected _ _ _ (write f env s)
  rw [write_apply]
  cases hf : f s with
  | ok script => exact ⟨⟨hs.live, hs.present⟩, trivial⟩
  | error g => exact h s g hf

theorem steady_orThrow {q : α → Prop} {x : Except (Halt Diagnostic) α} (h : Calculates q x) :
    (steady env).Holds q (orThrow x) := by
  constructor
  intro s hs
  cases h with
  | ok h => exact ⟨hs, h⟩
  | refused e => exact ⟨hs, trivial⟩
  | failed h => exact h

theorem steady_applySetting (name value : String) :
    (steady env).Holds anything (applySetting name value) := by
  constructor
  intro s hs
  rw [applySetting_eq, get_bind_apply]
  split
  · exact ⟨⟨hs.live, hs.present⟩, trivial⟩
  · cases s.settings.apply name value s.declared with
    | ok settings => exact ⟨⟨hs.live, hs.present⟩, trivial⟩
    | error r => exact ⟨hs, trivial⟩

theorem steady_register (t : TypeInfo) : (steady env).Holds anything (register t) := by
  constructor
  intro s hs
  rw [register, get_bind_apply]
  cases s.registry.register t with
  | ok registry => exact ⟨⟨hs.live, hs.present⟩, trivial⟩
  | error p => exact ⟨hs, trivial⟩

/-! ## Drafts -/

theorem Writable.change {u : Surroundings} (h : Writable d) (hc : Draft.Change u d d') : Writable d' :=
  ⟨hc.settled h.1, hc.accessible h.1 h.2⟩

theorem writable_flush (s : Settings) (h : Writable d) : Writable (d.flush s) :=
  ⟨Draft.settled_of_run (Draft.run_flush s d), Draft.accessible_flush s h.2⟩

theorem Fresh.writable {r : Registry} {form : Form} (h : Fresh r form d) : Writable d := by
  refine ⟨h.settled, fun x hx => ?_, fun p hp => ?_⟩
  · rw [h.labels_eq] at hx
    cases hx
  · rw [h.run_eq] at hp
    cases hp

/-- Fields of a draft are written. -/
theorem steady_advanceTo (h : Writable d') : (steady env).Holds anything (advanceTo d d') := by
  refine .forM _ fun step hstep => ?_
  cases step with
  | field f =>
    have hf := h.2.field (List.drop_sublist _ _ |>.subset hstep)
    exact steady_write fun s g hg => Script.addField_error hf hg
  | note n => exact steady_log n

theorem calculates_declare (f : FieldStatement) {u : Surroundings} (hu : u.scope.Present) (h : Writable d) :
    Calculates Writable (f.declare u d) :=
  ((f.resolves u d).calculates hu).self.bind fun _ hc => .ok (h.change (.field f hc))

theorem steady_warnOfPadding (d : Draft) (t : TypeInfo) :
    (steady env).Holds anything (warnOfPadding d t) :=
  .ite (.bind (.modify fun _ hs => ⟨hs.live, hs.present⟩) fun _ _ => steady_log _) (.pure trivial)

/-! ## Descriptions -/

theorem tokens_steady (env : Env) : (steady env).comparison.Tokens where
  toAgrees := (steady env).agrees
  loops := {
    collect := fun stops => goes_steady (.collectRound stops)
    skip := fun line commaEnds => goes_steady (.skipRound line commaEnds)
    comment := goes_steady .commentRound
    nested := goes_steady .nestedRound
    member := goes_steady .memberRound
    enum := fun keyword => goes_steady (.enumRound keyword)
    statement := goes_steady .statementRound }
  peek := steady_peek.token
  peekSecond := ((steady_draw 0).bind fun _ _ => (steady_draw 1).bind fun _ _ => steady_ahead 1).judge
    fun t _ => ⟨t, rfl⟩
  advance := by
    refine Discipline.Holds.token (steady_peek.bind fun t _ => ?_)
    exact .ite (.bind (.modify fun _ hs => ⟨hs.live, hs.present⟩) fun _ _ => .pure trivial) (.pure trivial)
  log n := (steady_log n).same
  refusal _ _ := trivial
  surroundings := by
    refine Discipline.Holds.judge (q := fun u => u.scope.Present) ⟨fun s hs => ⟨hs, ?_⟩⟩ fun u hu => ⟨u, hu⟩
    exact Scope.present_shadowing hs.present s.settings.flags_present
  evaluate ts hu _ := (steady_orThrow (Expr.calculates_evaluate hu false ts _)).judge
    fun c hc => ⟨c, rfl, hc⟩
  int n h := by cases h

theorem descriptions_steady (env : Env) : (steady env).comparison.Descriptions where
  toTokens := tokens_steady env
  report p _ := Discipline.Holds.same (q := anything) ⟨fun _ hs => ⟨⟨hs.live, hs.present⟩, trivial⟩⟩
  record _ _ := Discipline.Holds.same (q := anything) ⟨fun _ hs => ⟨⟨hs.live, hs.present⟩, trivial⟩⟩
  comment _ := Discipline.judge_modify fun _ hs => ⟨hs.live, hs.present⟩
  setting name value := (steady_applySetting name value).same
  declare {_ f _ _ _ _ _} _ hu hd := by
    obtain ⟨rfl, hd⟩ := hd
    exact (steady_orThrow (calculates_declare f hu hd)).judge fun d hd => ⟨d, rfl, hd⟩
  advanceTo _ he := (steady_advanceTo he.2).same
  openUnion {s _ _ _} hs hd hu := by
    obtain ⟨rfl, hd⟩ := hd
    exact hs ▸ ⟨rfl, hd.change (u := s.surroundings env) (.openUnion hu)⟩
  closeUnion {s _ _ _} hs hd hu := by
    obtain ⟨rfl, hd⟩ := hd
    exact hs ▸ ⟨⟨rfl, hd.change (u := s.surroundings env) (.closeUnion hu)⟩, rfl⟩
  flush {s _ _ _} hs hd := by
    obtain ⟨rfl, hd⟩ := hd
    exact hs ▸ ⟨rfl, writable_flush s.settings hd⟩
  location _ := trivial
  enumerator := (tokens_steady env).enumerator_of fun name value hvalue =>
    Discipline.judge_modify fun _ hs => ⟨hs.live, Scope.present_set hs.present name hvalue⟩
  discard hd := ⟨congrArg (fun d : Draft => { d with discarded := true }) hd.1, hd.2.1, hd.2.2.1, hd.2.2.2⟩
  named name hd := ⟨congrArg (fun d : Draft => { d with name := some name }) hd.1, hd.2.1, hd.2.2.1, hd.2.2.2⟩
  header form typedef hs _ hname hparent := Discipline.heads hs hname hparent
    (fresh_header _ form typedef _ _ _).writable fun _ _ => trivial
  opened := Discipline.judge_modify fun _ hs => ⟨hs.live, hs.present⟩
  openClass _ := Discipline.judge_modify fun _ hs => ⟨hs.live, hs.present⟩
  discardClass := Discipline.judge_modify fun _ hs => ⟨hs.live, hs.present⟩
  register _ := (steady_register _).same
  closeClass _ := (steady_write fun _ _ hg => Script.closeClass_error hg).same
  warnOfPadding _ _ := (steady_warnOfPadding _ _).same
  addEnum _ _ := (steady_write fun _ _ hg => Script.addEnum_error hg).same

theorem safe_description {env : Env} : Safe env anything description := by
  have hdescription : (steady env).Holds anything description :=
    .of_judge ((descriptions_steady env).statements.description (i := (0, 0))) fun _ _ _ => trivial
  exact ⟨hdescription.triple.imp (fun _ hs => hs) (fun _ _ hs => hs) fun _ _ hs => hs.1⟩

end RecordView.Declaration
