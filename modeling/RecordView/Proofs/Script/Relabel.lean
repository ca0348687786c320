import RecordView.Proofs.Layout.Relabel

/-! No text of a script tells where a field was declared. -/
namespace RecordView

variable {R : Relabeling}

namespace Script

/-! ## Changing the lines of fields -/

def JsonMethods.relabel (R : Relabeling) (m : JsonMethods) : JsonMethods :=
  { m with fields := m.fields.map (·.relabel R) }

def ClassDecl.relabel (R : Relabeling) (c : ClassDecl) : ClassDecl :=
  { c with json := c.json.map (·.relabel R) }

def Item.relabel (R : Relabeling) : Item → Item
  | classDecl c => classDecl (c.relabel R)
  | enumDecl e => enumDecl e
  | verbatim text => verbatim text

def relabel (R : Relabeling) (s : Script) : Script := { s with items := s.items.map (·.relabel R) }

/-! ## Texts -/

theorem JsonMethods.assignable_relabel (m : JsonMethods) :
    (m.relabel R).assignable = m.assignable.map (·.relabel R) := by
  simp only [assignable, relabel, List.filter_map]
  rfl

theorem JsonMethods.argument_relabel (m : JsonMethods) : (m.relabel R).argument = m.argument := by
  simp only [argument, assignable_relabel, List.map_map]
  rfl

theorem JsonMethods.lines_relabel (m : JsonMethods) : (m.relabel R).lines = m.lines := by
  have hwriter : (m.relabel R).writer = m.writer := by
    simp only [writer, relabel, List.map_map]
    rfl
  have hhead : (m.relabel R).readerHead = m.readerHead := by
    simp only [readerHead, argument_relabel]
    rfl
  have hreader : (m.relabel R).reader = m.reader := by
    simp only [reader, hhead, assignable_relabel, List.map_map]
    rfl
  rw [lines, lines, hwriter, hreader]

theorem Item.lines_relabel (i : Item) : (i.relabel R).lines = i.lines := by
  cases i with
  | enumDecl e => rfl
  | verbatim text => rfl
  | classDecl c =>
    have hjson : (c.relabel R).json.map JsonMethods.lines = c.json.map JsonMethods.lines := by
      simp only [ClassDecl.relabel, Option.map_map, Function.comp_def, JsonMethods.lines_relabel]
    show (c.relabel R).lines = c.lines
    simp only [ClassDecl.lines, hjson]
    rfl

theorem assemble_relabel (s : Script) (settings : Settings) (source : String) :
    (s.relabel R).assemble settings source = s.assemble settings source := by
  have hbody : (s.relabel R).bodyLines = s.bodyLines := by
    simp only [bodyLines, relabel, List.flatMap_map, Item.lines_relabel]
  rw [assemble, assemble, hbody]
  rfl

/-! ## Writing -/

theorem verbatim_relabel (s : Script) (text : String) :
    (s.verbatim text).relabel R = (s.relabel R).verbatim text := by
  obtain ⟨items, current, _, _, _⟩ := s
  cases current with
  | none => simp [verbatim, relabel, Item.relabel]
  | some c => rfl

theorem addField_relabel (hm : R.mark = id) (s : Script) (settings : Settings) (f : Field) :
    (s.relabel R).addField settings (f.relabel R) = (s.addField settings f).map (·.relabel R) := by
  have hpadding : (f.relabel R).padding = f.padding := by
    rw [Field.relabel, hm]
    rfl
  have haccessor : accessor settings (f.relabel R) = accessor settings f := rfl
  have hcurrent : (s.relabel R).current = s.current := rfl
  simp only [addField, hcurrent, hpadding, haccessor]
  cases s.current with
  | none => rfl
  | some c =>
    dsimp only
    split
    · rfl
    · cases accessor settings f <;> rfl

theorem classOf_relabel (hm : R.mark = id) (settings : Settings) (r : Registry) (t : TypeInfo)
    (c : OpenClass) :
    classOf settings (r.relabel R) (t.relabel R) c = (classOf settings r t c).relabel R := by
  have hfilter (fs : List Field) :
      (fs.map (·.relabel R)).filter (!·.padding) = (fs.filter (!·.padding)).map (·.relabel R) := by
    rw [List.filter_map]
    simp only [Field.relabel, hm]
    rfl
  simp only [classOf, ClassDecl.relabel, Registry.allFields_relabel, hfilter]
  split <;> rfl

theorem closeClass_relabel (hm : R.mark = id) (s : Script) (settings : Settings) (r : Registry)
    (t : TypeInfo) :
    (s.relabel R).closeClass settings (r.relabel R) (t.relabel R) =
      (s.closeClass settings r t).map (·.relabel R) := by
  have hcurrent : (s.relabel R).current = s.current := rfl
  have hlength : (t.relabel R).byteLength = t.byteLength := rfl
  simp only [closeClass, hcurrent, hlength]
  cases s.current with
  | none => rfl
  | some c =>
    dsimp only
    split
    · refine congrArg Except.ok ?_
      simp only [classOf_relabel hm, relabel, List.map_append]
      rfl
    · rfl

theorem addEnum_relabel (s : Script) (settings : Settings) (name : String)
    (members : List (String × Constant)) :
    (s.relabel R).addEnum settings name members =
      (s.addEnum settings name members).map (·.relabel R) := by
  have hexports : (s.relabel R).exportsWith settings name = s.exportsWith settings name := rfl
  simp only [addEnum, hexports]
  generalize List.mapM (m := Except Failure) _ members = written
  cases written with
  | error f => rfl
  | ok written =>
    refine congrArg Except.ok ?_
    simp only [relabel, List.map_append]
    rfl

end Script
end RecordView
