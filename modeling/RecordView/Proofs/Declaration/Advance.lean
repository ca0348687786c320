import RecordView.Proofs.Declaration.Path
import RecordView.Proofs.Reader.Advance

/-! Whatever a description says, its reading only goes on: tokens are taken and errors are added. -/
namespace RecordView.Declaration
open Reader

theorem advances_report {s : State} {r : Report} (hl : r.limit = s.report.limit)
    (he : s.report.errors <+: r.errors) : Advances s { s with report := r } :=
  ⟨List.suffix_rfl, Nat.le_refl _, fun _ => List.prefix_rfl, hl, he, fun h => ⟨h, Nat.le_refl _⟩,
    fun _ => ⟨[], [], .stay .start rfl⟩⟩

theorem Advancing.log (n : Note) : Advancing (log n) :=
  Along.ite (fun _ _ => advances_of_place rfl) fun _ s => .refl s

theorem tokenPath_advances : TokenPath Advances where
  toIsPath := isPath_advances
  peek := Advancing.peek
  peekSecond := (Advancing.draw 0).bind fun _ => (Advancing.draw 1).bind fun _ _ s => .refl s
  advance := Advancing.advance
  log := Advancing.log
  report _ _ _ _ := advances_report rfl (List.prefix_append _ _)
  record _ _ _ _ := advances_report rfl (List.prefix_append _ _)
  warnOfPadding _ _ := by
    refine Along.ite ?_ fun _ s => .refl s
    exact Advancing.bind (fun _ _ => advances_of_place rfl) fun _ => .log _

theorem bodyPath_advances : BodyPath Advances where
  toTokenPath := tokenPath_advances
  comment _ _ _ := advances_of_place rfl
  setting _ _ := Along.applySetting isPath_advances (fun _ => advances_of_place rfl) fun _ _ _ =>
    advances_of_place rfl
  field _ := Along.write isPath_advances fun _ _ _ => advances_of_place rfl

theorem declarationPath_advances : DeclarationPath Advances where
  toAsidePath := bodyPath_advances.toAsidePath
  constant _ _ _ _ := advances_of_place rfl
  opened _ := advances_of_place rfl
  openClass _ _ := advances_of_place rfl
  discardClass _ := advances_of_place rfl
  register _ := Along.register isPath_advances fun _ _ _ => advances_of_place rfl
  closeClass _ := Along.write isPath_advances fun _ _ _ => advances_of_place rfl
  addEnum _ _ := Along.write isPath_advances fun _ _ _ => advances_of_place rfl

theorem Advancing.aggregate (form : Form) (typedef : Bool) : Advancing (aggregate form typedef) :=
  Advancing.bind (declarationPath_advances.opening form typedef) fun d =>
    Advancing.bind (bodyPath_advances.members d) (declarationPath_advances.closing typedef)

theorem Advancing.statementAt (t : Token) (start : Nat) : Advancing (statementAt t start) :=
  bodyPath_advances.statementAt Advancing.aggregate declarationPath_advances.enumeration t start

theorem Advancing.statementRound : Advancing (statementRound ()) :=
  bodyPath_advances.statementRound Advancing.aggregate declarationPath_advances.enumeration

theorem Advancing.description : Advancing description :=
  bodyPath_advances.description Advancing.aggregate declarationPath_advances.enumeration

end RecordView.Declaration
