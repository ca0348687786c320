import RecordView.Proofs.Declaration.Resumption
import RecordView.Proofs.Reader.Relocation

/-! A whole description is read further down as it is read where it stands. -/
namespace RecordView

/-! ## Field statements -/

def Surroundings.relabel (R : Relabeling) (u : Surroundings) : Surroundings :=
  { u with registry := u.registry.relabel R }

namespace FieldStatement

abbrev Resolution.relabel {α : Type} (R : Relabeling) (x : Resolution α) : Resolution α :=
  x.mapError (·.map (·.relabel R))

variable {R : Relabeling} (f : FieldStatement) (u : Surroundings) (d : Draft)

theorem name_location_relabel : (f.relabel R).name.location = R.place f.name.location :=
  f.name.location_relabel

theorem type_location_relabel : (f.relabel R).type.location = R.place f.type.location :=
  f.type.location_relabel

theorem width?_relabel :
    (f.relabel R).width? (u.relabel R) = Resolution.relabel R (f.width? u) := by
  have hcount (ts : List Token) : Expr.evaluateCount u.scope false (ts.map (·.relabel R))
      (R.place f.name.location) "bitfield width" = _ :=
    Expr.evaluateCount_relabel u.scope false ts (some f.name.location) "bitfield width"
  have hscope : (u.relabel R).scope = u.scope := rfl
  have hbits : (f.relabel R).bits = f.bits.map (·.map (·.relabel R)) := rfl
  simp only [width?, name_location_relabel, hscope, hbits]
  cases f.bits with
  | none => rfl
  | some ts =>
    simp only [Option.map_some, hcount]
    cases Expr.evaluateCount u.scope false ts f.name.location "bitfield width" with
    | error h => rfl
    | ok n =>
      show (if maxBits < n then refuse (R.place f.name.location) (.layout (.widthOutside n))
          else .ok (some n)) =
        Resolution.relabel R (if maxBits < n then refuse f.name.location (.layout (.widthOutside n))
          else .ok (some n))
      split <;> rfl

theorem extent_relabel :
    (f.relabel R).extent (u.relabel R) = Resolution.relabel R (f.extent u) := by
  have hcount (ts : List Token) : Expr.evaluateCount u.scope false (ts.map (·.relabel R))
      (R.place f.name.location) = _ :=
    Expr.evaluateCount_relabel u.scope false ts (some f.name.location) "array count"
  have hscope : (u.relabel R).scope = u.scope := rfl
  have hcounts : (f.relabel R).count = f.count.map (·.map (·.relabel R)) := rfl
  simp only [extent, name_location_relabel, hscope, hcounts]
  cases f.count with
  | none => rfl
  | some ts =>
    have htexts : (ts.map (·.relabel R)).map (·.text) = ts.map (·.text) := by
      rw [List.map_map]
      rfl
    simp only [Option.map_some, hcount, List.isEmpty_map, htexts]
    split
    · rfl
    · cases Expr.evaluateCount u.scope false ts f.name.location <;> rfl

theorem number_relabel (p : Primitive) (enum : Option String) (width : Option Nat) (extent : Extent) :
    (f.relabel R).number (u.relabel R) (d.relabel R) p enum width extent =
      Resolution.relabel R (f.number u d p enum width extent) := by
  simp only [number, Draft.inUnion_relabel, name_location_relabel]
  cases width with
  | some bits =>
    dsimp only
    split
    · rfl
    split
    · rfl
    split <;> rfl
  | none =>
    dsimp only
    split
    · split
      · rfl
      split <;> rfl
    · rfl

theorem nested_relabel (t : TypeInfo) (width : Option Nat) (extent : Extent) :
    (f.relabel R).nested (u.relabel R) (t.relabel R) width extent =
      Resolution.relabel R (f.nested u t width extent) := by
  have hflexible : (t.relabel R).hasFlexible = t.hasFlexible := rfl
  simp only [nested, name_location_relabel, hflexible]
  split
  · rfl
  split
  · rfl
  split <;> rfl

theorem byType_relabel (width : Option Nat) (extent : Extent) :
    (f.relabel R).byType (u.relabel R) (d.relabel R) width extent =
      Resolution.relabel R (f.byType u d width extent) := by
  have htext : (f.relabel R).type.text = f.type.text := rfl
  have hname : (f.relabel R).name.text = f.name.text := rfl
  have hregistry : (u.relabel R).registry = u.registry.relabel R := rfl
  simp only [byType, htext, hname, name_location_relabel, type_location_relabel, hregistry,
    Registry.find?_relabel, Registry.similar_relabel, number_relabel]
  split
  · cases width with
    | none => rfl
    | some bits =>
      dsimp only
      split <;> rfl
  cases Builtin.ofName? f.type.text with
  | some b =>
    cases b with
    | boolean =>
      dsimp only
      split <;> rfl
    | number p => rfl
  | none =>
    dsimp only
    split
    · split
      · rfl
      split <;> rfl
    · cases u.registry.find? f.type.text with
      | none => rfl
      | some t =>
        have hform : (t.relabel R).form = t.form := rfl
        have hbacking : (t.relabel R).backing = t.backing := rfl
        simp only [Option.map_some, hform, hbacking, nested_relabel]
        split <;> rfl

theorem resolve_relabel :
    (f.relabel R).resolve (u.relabel R) (d.relabel R) = Resolution.relabel R (f.resolve u d) := by
  have hflexible : (d.relabel R).flexible = d.flexible := rfl
  have hnames : (d.relabel R).names = d.names := rfl
  have hname : (f.relabel R).name.text = f.name.text := rfl
  simp only [resolve, hflexible, hnames, hname, name_location_relabel, width?_relabel, extent_relabel,
    byType_relabel]
  cases d.flexible with
  | some tail => rfl
  | none =>
    dsimp only
    split
    · rfl
    cases f.width? u with
    | error h => rfl
    | ok width => cases f.extent u <;> rfl

theorem declare_relabel (hm : R.mark = id) :
    (f.relabel R).declare (u.relabel R) (d.relabel R) =
      (Resolution.relabel R (f.declare u d)).map (·.relabel R) := by
  have hput (c : Content) :
      (f.relabel R).put (u.relabel R) (d.relabel R) c = (f.put u d c).relabel R := by
    rw [put_eq, put_eq, putAs_relabel, hm]
    rfl
  simp only [declare, resolve_relabel, hput]
  cases f.resolve u d <;> rfl

end FieldStatement

namespace Declaration
open Reader

variable {k : Nat}

/-! ## What is done further down -/

theorem Moves.comment (t : Token) : Moves k id (comment t) (comment (t.down k)) := by
  refine .modify (fun _ hs => hs) fun s => ?_
  have hkeeps : keepsComment (s.down k) = keepsComment s := rfl
  rw [hkeeps]
  cases keepsComment s with
  | false => rfl
  | true =>
    simp only [State.down, if_true, Script.verbatim_relabel]
    rfl

theorem Moves.applySetting (name value : String) :
    Moves k id (applySetting name value) (applySetting name value) := by
  rw [applySetting_eq]
  refine .get fun s hs => .ite (.set hs ?_) ?_
  · simp only [State.down, Script.verbatim_relabel]
  · have happly : (s.down k).settings.apply name value (s.down k).declared =
        s.settings.apply name value s.declared := rfl
    rw [happly]
    cases s.settings.apply name value s.declared with
    | ok u => exact .set hs rfl
    | error r => exact .throw _

theorem Moves.write {f f' : State → Except Failure Script}
    (h : ∀ s, f' (s.down k) = (f s).map (·.relabel (.down k))) : Moves k id (write f) (write f') := by
  refine .get fun s hs => ?_
  show Moves k id (orFail (f s) >>= fun script => set { s with script })
    (orFail (f' (s.down k)) >>= fun script => set { s.down k with script })
  rw [h s]
  cases f s with
  | ok script => exact .set hs rfl
  | error e => exact .fail e

theorem Moves.perform (steps : List Step) :
    Moves k id (perform steps) (perform (steps.map (·.relabel (.down k)))) := by
  induction steps with
  | nil => exact .result rfl
  | cons step steps ih =>
    refine .bind (v := id) ?_ fun _ => ih
    cases step with
    | field f => exact .write fun s => Script.addField_relabel rfl s.script s.settings f
    | note n => exact .log n

theorem Moves.advanceTo (d d' : Draft) :
    Moves k id (advanceTo d d') (advanceTo (d.down k) (d'.down k)) := by
  have hsteps : (d'.down k).steps.drop (d.down k).steps.length =
      (d'.steps.drop d.steps.length).map (·.relabel (.down k)) := by
    simp only [Draft.relabel, List.length_map, List.map_drop]
  unfold Reader.advanceTo
  rw [hsteps]
  exact .perform _

theorem Moves.register (t : TypeInfo) :
    Moves k id (register t) (register (t.relabel (.down k))) := by
  refine .get fun s hs => ?_
  have hregister : (s.down k).registry.register (t.relabel (.down k)) =
      (s.registry.register t).map (·.relabel (.down k)) := Registry.register_relabel s.registry t
  rw [hregister, Registry.register]
  cases s.registry.taken t.name with
  | true => exact .throw _
  | false => exact .set hs rfl

theorem Moves.warnOfPadding (d : Draft) (t : TypeInfo) :
    Moves k id (warnOfPadding d t) (warnOfPadding (d.down k) (t.relabel (.down k))) := by
  have hfields : (!(t.relabel (.down k)).fields.isEmpty && (t.relabel (.down k)).fields.all (·.padding)) =
      (!t.fields.isEmpty && t.fields.all (·.padding)) := by
    simp only [TypeInfo.relabel, List.isEmpty_map, List.all_map]
    rfl
  unfold Reader.warnOfPadding
  rw [hfields]
  refine .ite (.bind (v := id) (.modify (fun _ hs => hs) fun s => ?_) fun _ => ?_) (.result rfl)
  · simp only [State.down, Report.relabel, Report.warn, List.map_append]
    rfl
  · exact .log (.onlyPadding d.location t.name)

/-! ## Two readings -/

def lowering (k : Nat) (env : Env) : Comparison where
  env₁ := env
  env₂ := env.blank
  rel i s s' := i.1 = i.2 ∧ s.Ended ∧ s' = s.down k
  keep _ := False
  fails _ _ := False
  loose₁ := False
  loose₂ := False
  refusal d d' := d' = d.relabel (.down k)
  labels := .down k
  place _ := True
  alike s s' := s' = s.down k
  around u u' := u' = u.relabel (.down k)
  draft d d' := d' = d.down k
  type t t' := t' = t.relabel (.down k)
  value _ := True

section Lowering

variable {α : Type} {env : Env} {i : Nat × Nat} {v : α → α} {V : α → α → Prop} {m m' : Reader α}

theorem Moves.judge (h : Moves k v m m') (hV : ∀ a, V a (v a)) : (lowering k env).Judge i V m m' := by
  refine ⟨fun _ hs => hs.elim, fun {s s'} ⟨hi, hs, hs'⟩ => ?_⟩
  have hmoved := h.eq env s hs
  show (lowering k env).Outcome i V (m env s) (m' env.blank s')
  rw [hs', hmoved]
  cases hend : m env s with
  | ok a s₁ => exact .ok (hV a) ⟨hi, h.ends.of_ok hend hs, rfl⟩
  | error e s₁ =>
    have hs₁ := h.ends.of_error hend hs
    cases e with
    | refused d => exact .refused rfl ⟨hi, hs₁, rfl⟩
    | failed f => exact .failed f ⟨hi, hs₁, rfl⟩

theorem Moves.same (h : Moves k id m m') : (lowering k env).Judge i Eq m m' := h.judge fun _ => rfl

/-- What is compared is the same further down. -/
theorem eq_of_outcome {r r' : EStateM.Result (Halt Diagnostic) State α}
    (h : (lowering k env).Outcome i Eq r r') : r' = relocate k id r := by
  cases h with
  | ok value rel =>
    obtain ⟨-, -, rfl⟩ := rel
    rw [value]
    rfl
  | refused refusal rel =>
    obtain ⟨-, -, rfl⟩ := rel
    rw [refusal]
    rfl
  | failed f rel =>
    obtain ⟨-, -, rfl⟩ := rel
    rfl
  | failed₁ loose => exact loose.elim
  | failed₂ loose => exact loose.elim
  | apart kept =>
    exfalso
    cases r with
    | ok a s => exact kept.1
    | error e s =>
      cases e with
      | refused d => exact kept.1
      | failed f => exact kept

end Lowering

theorem agrees_lowering (k : Nat) (env : Env) : (lowering k env).Agrees where
  left h h' := by rw [h.2.2, h'.2.2, State.left_down, State.left_down]
  full {_ s _} h := by
    refine .inr ?_
    rw [h.2.2]
    show _ = decide (s.report.limit ≤ (s.report.errors.map _).length)
    rw [List.length_map]
    rfl
  start h := ⟨by rw [h.2.2]; rfl, h.2⟩
  back h h' := ⟨h.1, h'.2⟩
  untouched h := by rw [h.2.2, h.1]; exact Iff.rfl
  last {_ s _} commaEnds h _ := by
    rw [h.2.2]
    show _ = (s.last.map _).any _
    cases s.last <;> rfl
  later _ _ := Nat.add_lt_add_iff_right
  alike_self h := h.elim
  alike_rel h := h.2.2
  constants h := by rw [h]; rfl
  taken {s _} name h := by
    rw [h]
    exact (Registry.taken_relabel s.registry name).symm
  shape {d _} h := by
    rw [h]
    exact ⟨rfl, rfl, rfl, d.inUnion_relabel.symm, d.inAnonymousUnion_relabel.symm⟩
  place h := by rw [h]; rfl
  size h := by rw [h]; exact ⟨rfl, rfl, rfl, rfl⟩
  finish {s _ d _} name h hd := by
    have hfinish : (d.down k).finish (s.down k).settings name =
        (d.finish s.settings name).map (·.relabel (.down k)) := Draft.finish_relabel s.settings d name
    rw [h, hd, hfinish]
    cases d.finish s.settings name with
    | none => exact .none
    | some t => exact .some rfl
  finishEnum e name h := by rw [h]; rfl

theorem tokens_lowering (k : Nat) (env : Env) : (lowering k env).Tokens where
  toAgrees := agrees_lowering k env
  loops := .of_fails fun _ hs => hs.elim
  peek := Moves.peek.judge fun _ => ⟨rfl, trivial⟩
  peekSecond := Moves.peekSecond.judge fun _ => rfl
  advance := Moves.advance.judge fun _ => ⟨rfl, trivial⟩
  log n := (Moves.log n).same
  refusal _ _ := rfl
  surroundings := (Moves.get fun _ _ => .read fun _ => .result rfl :
    Moves k (Surroundings.relabel (.down k)) surroundings surroundings).judge fun _ => rfl
  evaluate {_ u _ l} ts hu _ := by
    refine Moves.judge (v := id) (.orThrow ?_) fun _ => ⟨rfl, trivial⟩
    rw [Except.map_id, hu]
    exact Expr.evaluate_relabel u.scope false ts (some l)
  int _ := trivial

theorem descriptions_lowering (k : Nat) (env : Env) : (lowering k env).Descriptions where
  toTokens := tokens_lowering k env
  report {_ l} p _ := (Moves.report l p).same
  record {_ d _ t} hd _ := by
    rw [hd]
    exact (Moves.record d t).same
  comment {_ t} _ := (Moves.comment t).same
  setting name value := (Moves.applySetting name value).same
  declare {_ f _ u _ d _} hf hu hd := by
    rw [hf.1, hu, hd]
    exact (Moves.orThrow (f.declare_relabel u d rfl)).judge fun _ => rfl
  advanceTo {_ d _ e _} hd he := by
    rw [hd, he]
    exact (Moves.advanceTo d e).same
  openUnion {s _ d _} hs hd _ := by
    rw [hs, hd]
    exact (Draft.openUnion_relabel s.settings d).symm
  closeUnion {s _ d _} hs hd _ := by
    have hclose : (d.down k).closeUnion (s.down k).settings =
        ((d.closeUnion s.settings).1.down k, (d.closeUnion s.settings).2) :=
      Draft.closeUnion_relabel s.settings d
    rw [hs, hd, hclose]
    exact ⟨rfl, rfl⟩
  flush {s _ d _} hs hd := by
    rw [hs, hd]
    exact (Draft.flush_relabel s.settings d).symm
  location _ := trivial
  enumerator := (tokens_lowering k env).enumerator_of fun _ _ _ =>
    Moves.same (.modify (fun _ hs => hs) fun _ => rfl)
  discard hd := by rw [hd]; rfl
  named name hd := by rw [hd]; rfl
  header {s _ keyword name _ parent _} form typedef hs _ hname hparent := by
    have hheads : (lowering k env).Heads (Header.of s.registry form typedef keyword name parent)
        ((Header.of s.registry form typedef keyword name parent).relabel (.down k)) :=
      ⟨rfl, rfl, fun _ _ => trivial, rfl⟩
    rw [Header.of_relabel] at hheads
    rw [hs, hname.1, hparent.1]
    exact hheads
  opened := Moves.same (.modify (fun _ hs => hs) fun _ => rfl)
  openClass _ := Moves.same (.modify (fun _ hs => hs) fun _ => rfl)
  discardClass := Moves.same (m := discardClass) (.modify (fun _ hs => hs) fun _ => rfl)
  register {_ t _} ht := by
    rw [ht]
    exact (Moves.register t).same
  closeClass {_ t _} ht := by
    rw [ht]
    exact (Moves.write fun s => Script.closeClass_relabel rfl s.script s.settings s.registry t).same
  warnOfPadding {_ d _ t _} hd ht := by
    rw [hd, ht]
    exact (Moves.warnOfPadding d t).same
  addEnum name members :=
    (Moves.write fun s => Script.addEnum_relabel s.script s.settings name members).same

/-! ## Descriptions -/

/-- Further down, a description leads to the same state with the same lines added. -/
theorem read_down (env : Env) {s : State} (hs : s.Ended) :
    read env.blank (s.down k) = ((read env s).1.down k, (read env s).2) := by
  have h := ((descriptions_lowering k env).statements.description (i := (0, 0))).meets ⟨rfl, hs, rfl⟩
  have hmoved : description env.blank (s.down k) = relocate k id (description env s) := eq_of_outcome h
  unfold read
  rw [hmoved]
  cases description env s with
  | ok a s' => rfl
  | error e s' => cases e <;> rfl

/-- The second state has the settings, the script and the errors of the first one, so many lines further
down. -/
structure State.Below (k : Nat) (s s' : State) : Prop where
  settings : s'.settings = s.settings
  script : s'.script.relabel (.down 0) = s.script.relabel (.down k)
  errors : s'.report.errors.map (·.relabel (.down 0)) = s.report.errors.map (·.relabel (.down k))

/-- A description that is read on from the same place further down is read alike. The lines that errors
quote are left out of the comparison. -/
theorem read_below {env env' : Env} (henv : env'.padding = env.padding) {s s' : State} (hs : s.Ended)
    (hs' : s'.Ended) (hstanding : (s'.down 0).standing = (s.down k).standing) (h : s.Below k s') :
    (read env' s').2 = (read env s).2 ∧ (read env s).1.Below k (read env' s').1 := by
  have hblank : env'.blank = env.blank := by rw [Env.blank, henv, Env.blank]
  have hdown : read env.blank (s.down k) = _ := read_down env hs
  have hdown' : read env'.blank (s'.down 0) = _ := read_down env' hs'
  obtain ⟨hfailure, hsettings, hscript, herrors⟩ :=
    Twin.read_resuming env.blank hstanding h.settings h.script h.errors
  rw [← hblank, hdown', hblank, hdown] at hfailure hsettings hscript herrors
  exact ⟨hfailure, hsettings, hscript, herrors⟩

end Declaration
end RecordView
