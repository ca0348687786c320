import RecordView.Proofs.Layout.Relabel

/-! The marks of padding fields have no part in the layout: all that places fields does the same
whatever the marks are changed to. -/
namespace RecordView

variable (m : Bool → Bool)

def Field.mapPadding (f : Field) : Field := { f with padding := m f.padding }

def TypeInfo.mapPadding (t : TypeInfo) : TypeInfo :=
  { t with fields := t.fields.map (·.mapPadding m) }

def Relabeling.ofMark : Relabeling := { mark := m, located := fun _ _ _ => rfl }

open Relabeling

variable {m}

theorem Note.relabel_ofMark (n : Note) : n.relabel (ofMark m) = n := by
  cases n <;> rfl

theorem Problem.relabel_ofMark (p : Problem) : p.relabel (ofMark m) = p := by
  unfold relabel
  split
  · rfl
  · rfl

/-! ## The same marks -/

theorem Field.relabel_id : Field.relabel (ofMark id) = id := rfl

theorem PendingBits.relabel_id : PendingBits.relabel (ofMark id) = id := rfl

theorem Overlap.relabel_id : Overlap.relabel (ofMark id) = id := by
  funext o
  simp [Overlap.relabel, Field.relabel_id]

theorem Step.relabel_id : Step.relabel (ofMark id) = id := by
  funext s
  cases s with
  | field f => rfl
  | note n => exact congrArg Step.note n.relabel_ofMark

theorem Draft.relabel_id (d : Draft) : d.relabel (ofMark id) = d := by
  have hplace : (ofMark id).place d.location = d.location := rfl
  simp [relabel, hplace, BitRun.relabel, PendingBits.relabel_id, Overlap.relabel_id, Step.relabel_id]

theorem TypeInfo.relabel_id : TypeInfo.relabel (ofMark id) = id := by
  funext t
  simp [TypeInfo.relabel, Field.relabel_id]

theorem Registry.relabel_id (r : Registry) : r.relabel (ofMark id) = r := by
  simp [Registry.relabel, TypeInfo.relabel_id]

/-! ## Statements -/

namespace FieldStatement

variable (f : FieldStatement) (s : Surroundings) (d : Draft)

theorem relabel_ofMark : f.relabel (ofMark m) = f := by
  have hmap (x : Option (List Token)) : x.map (·.map (·.relabel (ofMark m))) = x := by
    cases x with
    | none => rfl
    | some ts => exact congrArg some (List.map_id ts)
  show FieldStatement.mk f.type f.name (f.count.map _) (f.bits.map _) = f
  rw [hmap, hmap]

theorem resolve_ofMark :
    f.resolve { s with registry := s.registry.relabel (ofMark m) } (d.relabel (ofMark m)) =
      f.resolve s d := by
  have htype (width : Option Nat) (extent : Extent) :
      f.byType { s with registry := s.registry.relabel (ofMark m) } (d.relabel (ofMark m)) width extent =
        f.byType s d width extent := by
    simp only [byType, number, Draft.inUnion_relabel, Registry.find?_relabel, Registry.similar_relabel]
    cases s.registry.find? f.type.text <;> rfl
  simp only [resolve, htype]
  rfl

end FieldStatement

/-! ## Headers -/

namespace Declaration.Header

theorem relabel_ofMark (h : Header) :
    h.relabel (ofMark m) = { h with draft := h.draft.relabel (ofMark m) } := by
  have herrors : h.errors.map (fun e => ((ofMark m).place e.1, e.2.relabel (ofMark m))) = h.errors := by
    simp only [Problem.relabel_ofMark]
    exact List.map_id _
  simp only [relabel, herrors, Note.relabel_ofMark, List.map_id']

theorem of_ofMark (r : Registry) (form : Form) (typedef : Bool) (keyword : Token)
    (name parent : Option Token) :
    (of r form typedef keyword name parent).relabel (ofMark m) =
      of (r.relabel (ofMark m)) form typedef keyword name parent := by
  have hid (t : Option Token) : t.map (·.relabel (ofMark m)) = t := by
    cases t <;> rfl
  rw [of_relabel, hid, hid]
  rfl

end Declaration.Header
end RecordView
