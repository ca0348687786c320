import RecordView.Proofs.Declaration.Class
import RecordView.Proofs.Expression.Arithmetic
import RecordView.Proofs.Reader.Citation

/-! Every error of a reading has a place where a token stands, and quotes the line of this place. -/
namespace RecordView

variable {P : Location → Prop} {l : Location} {h : Header}

/-! ## Field statements -/

/-- A refusal points to a place with the property. -/
inductive Locates {α : Type} (P : Location → Prop) : Except (Halt Diagnostic) α → Prop where
  | ok (a : α) : Locates P (.ok a)
  | refused {d : Diagnostic} (h : d.Points P) : Locates P (.error (.refused d))
  | failed (f : Failure) : Locates P (.error (.failed f))

namespace Locates

variable {α β : Type} {x : Except (Halt Diagnostic) α}

theorem bind {f : α → Except (Halt Diagnostic) β} (hx : Locates P x) (hf : ∀ a, Locates P (f a)) :
    Locates P (x >>= f) := by
  cases hx with
  | ok a => exact hf a
  | refused h => exact .refused h
  | failed f => exact .failed f

theorem located (h : P l) (ts : List Token) (r : Evaluation α) : Locates P (Expr.located (some l) ts r) := by
  cases r with
  | ok a => exact .ok a
  | error e =>
    cases e with
    | refused p => exact .refused (.here _ h)
    | failed f => exact .failed f

theorem evaluateCount (h : P l) (scope : Scope) (allowDefined : Bool) (ts : List Token) (what : String) :
    Locates P (Expr.evaluateCount scope allowDefined ts l what) :=
  (located h ts _).bind fun _ => located h ts _

end Locates

namespace FieldStatement

variable {f : FieldStatement} {u : Surroundings} {d : Draft} {α : Type} {r : Resolution α}

theorem Resolves.locates (hr : Resolves f u r) (htype : P f.type.location) (h : P f.name.location) :
    Locates P r := by
  cases hr with
  | ok a => exact .ok a
  | name p => exact .refused (.here p h)
  | type p => exact .refused (.here p htype)
  | @count ts what _ he =>
    have hcount := Locates.evaluateCount h u.scope false ts what
    rw [he] at hcount
    cases hcount with
    | refused h => exact .refused h
    | failed f => exact .failed f

/-- A refused field points to its name or its type. -/
theorem locates_declare (htype : P f.type.location) (h : P f.name.location) :
    Locates P (f.declare u d) := ((resolves f u d).locates htype h).bind fun _ => .ok _

end FieldStatement

namespace Declaration
open Reader

variable {env : Env} {first : List Diagnostic}

theorem sourcing_orThrow {α : Type} {q : α → Prop} {x : Except (Halt Diagnostic) α} (h : Locates P x)
    (hq : ∀ a, x = .ok a → q a) : (sourcing env P first).Holds q (orThrow x) := by
  constructor
  intro s hs
  cases h with
  | ok a => exact ⟨hs, hq a rfl⟩
  | refused h => exact ⟨hs, h⟩
  | failed f => trivial

theorem sourcing_applySetting (name value : String) :
    (sourcing env P first).Holds (fun _ => True) (applySetting name value) := by
  constructor
  intro s hs
  rw [applySetting_eq, get_bind_apply]
  split
  · exact ⟨hs.congr rfl rfl rfl rfl rfl, trivial⟩
  · cases s.settings.apply name value s.declared with
    | ok settings => exact ⟨hs.congr rfl rfl rfl rfl rfl, trivial⟩
    | error r => exact ⟨hs, .nowhere _⟩

theorem sourcing_write (f : State → Except Failure Script) :
    (sourcing env P first).Holds (fun _ => True) (write f) := by
  constructor
  intro s hs
  show Expected _ _ _ (write f env s)
  rw [write_apply]
  cases f s with
  | ok script => exact ⟨hs.congr rfl rfl rfl rfl rfl, trivial⟩
  | error g => trivial

theorem sourcing_advanceTo (d d' : Draft) :
    (sourcing env P first).Holds (fun _ => True) (advanceTo d d') := by
  refine .forM _ fun step _ => ?_
  cases step with
  | field f => exact sourcing_write _
  | note n => exact sourcing_log n

theorem sourcing_register (t : TypeInfo) : (sourcing env P first).Holds (fun _ => True) (register t) := by
  constructor
  intro s hs
  rw [register, get_bind_apply]
  cases s.registry.register t with
  | ok registry => exact ⟨hs.congr rfl rfl rfl rfl rfl, trivial⟩
  | error p => exact ⟨hs, .nowhere p⟩

theorem sourcing_warnOfPadding (d : Draft) (t : TypeInfo) :
    (sourcing env P first).Holds (fun _ => True) (warnOfPadding d t) :=
  .ite (.bind (.modify fun _ hs => hs.congr rfl rfl rfl rfl rfl) fun _ _ => sourcing_log _) (.pure trivial)

/-! ## Descriptions -/

theorem tokens_sourcing : (sourcing env P first).comparison.Tokens where
  toAgrees := Discipline.agrees _
  loops := .of_fails fun _ _ => trivial
  peek := sourcing_peek.token
  peekSecond := ((sourcing_draw 0).bind fun _ _ => (sourcing_draw 1).bind fun _ _ =>
    ⟨fun _ hs => ⟨hs, trivial⟩⟩ : (sourcing env P first).Holds (fun _ => True) peekSecond).judge
      fun t _ => ⟨t, rfl⟩
  advance := sourcing_advance.token
  log n := (sourcing_log n).same
  refusal p hl := .here p hl
  surroundings := Discipline.Holds.judge (q := fun _ => True) ⟨fun _ hs => ⟨hs, trivial⟩⟩ fun u _ => ⟨u, trivial⟩
  evaluate ts _ hl := (sourcing_orThrow (.located hl ts _) fun _ _ => trivial).judge fun c hc => ⟨c, rfl, hc⟩
  int _ := trivial

/-- A draft stands where its declaration starts, and a refused field points to its name or its type. -/
theorem descriptions_sourcing : (sourcing env P first).comparison.Descriptions where
  toTokens := tokens_sourcing
  report p hl := (sourcing_report hl p).same
  record hd ht := (sourcing_record hd ht).same
  comment _ := Discipline.judge_modify fun _ hs => hs.congr rfl rfl rfl rfl rfl
  setting name value := (sourcing_applySetting name value).same
  declare {_ f _ u _ d _} hf _ hd := by
    obtain ⟨rfl, hd⟩ := hd
    refine (sourcing_orThrow (q := (sourcing env P first).draft)
      (FieldStatement.locates_declare hf.2.1 hf.2.2) fun d' hd' => ?_).judge fun d hd => ⟨d, rfl, hd⟩
    obtain ⟨c, -, hput⟩ := bind_eq_ok_iff.mp hd'
    cases hput
    show P (f.put u d c).location
    rw [(Draft.follows_put f u d c).location]
    exact hd
  advanceTo _ _ := (sourcing_advanceTo _ _).same
  openUnion {s _ d _} hs hd _ := by
    obtain ⟨rfl, hd⟩ := hd
    refine hs ▸ ⟨rfl, ?_⟩
    show P (d.flush s.settings).location
    rw [(Draft.follows_flush s.settings d).location]
    exact hd
  closeUnion {s _ d _} hs hd _ := by
    obtain ⟨rfl, hd⟩ := hd
    refine hs ▸ ⟨⟨rfl, ?_⟩, rfl⟩
    show P (d.closeUnion s.settings).1.location
    rw [(Draft.follows_closeUnion s.settings d).location]
    exact hd
  flush {s _ d _} hs hd := by
    obtain ⟨rfl, hd⟩ := hd
    refine hs ▸ ⟨rfl, ?_⟩
    show P (d.flush s.settings).location
    rw [(Draft.follows_flush s.settings d).location]
    exact hd
  location hd := hd.2
  enumerator := tokens_sourcing.enumerator_of fun _ _ _ =>
    Discipline.judge_modify fun _ hs => hs.congr rfl rfl rfl rfl rfl
  discard hd := ⟨congrArg (fun d : Draft => { d with discarded := true }) hd.1, hd.2⟩
  named name hd := ⟨congrArg (fun d : Draft => { d with name := some name }) hd.1, hd.2⟩
  header {s _ _ _ _ _ _} form typedef hs hkeyword hname hparent := by
    have hheader := Header.proper_of hkeyword hname.2 hparent.2 s.registry form typedef
    exact Discipline.heads hs hname hparent hheader.place fun e he => (hheader.errors e he).1
  opened := Discipline.judge_modify fun _ hs => hs.congr rfl rfl rfl rfl rfl
  openClass _ := Discipline.judge_modify fun _ hs => hs.congr rfl rfl rfl rfl rfl
  discardClass := Discipline.judge_modify fun _ hs => hs.congr rfl rfl rfl rfl rfl
  register _ := (sourcing_register _).same
  closeClass _ := (sourcing_write _).same
  warnOfPadding _ _ := (sourcing_warnOfPadding _ _).same
  addEnum _ _ := (sourcing_write _).same

/-- A reading that does not fail ends with errors that cite the source. -/
theorem sourced_read {s : State} (hs : s.Sourced env P first) (hnone : (read env s).2 = none) :
    (read env s).1.Sourced env P first := by
  have hdescription : (sourcing env P first).Holds (fun _ => True) description :=
    .of_judge (descriptions_sourcing.statements.description (i := (0, 0))) fun _ _ _ => trivial
  have hend : Expected _ _ _ (description env s) := hdescription.triple s hs
  unfold read at hnone ⊢
  cases hread : description env s with
  | ok a s' =>
    rw [hread] at hend
    exact hend.1
  | error e s' =>
    rw [hread] at hend hnone
    cases e with
    | refused d => exact hend.1
    | failed f => cases hnone

end Declaration
end RecordView
