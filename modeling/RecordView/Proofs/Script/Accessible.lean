import RecordView.Proofs.Expression.Arithmetic
import RecordView.Proofs.Layout.Members

/-! Every field that a draft places has an accessor, as far as its sizes can be written. -/
namespace RecordView

def FieldKind.Accessible : FieldKind → Prop
  | .bits b => b.word ∈ [1, 2, 4]
  | .unresolved => False
  | _ => True

variable {g : Failure}

namespace Script

variable {s : Script} {u : Settings} {f : Field}

theorem exists_wordSize {n : Nat} (h : n ∈ [1, 2, 4]) : ∃ w, WordSize.ofBytes? n = some w := by
  simp only [List.mem_cons, List.not_mem_nil, or_false] at h
  rcases h with rfl | rfl | rfl
  · exact ⟨.byte, rfl⟩
  · exact ⟨.half, rfl⟩
  · exact ⟨.full, rfl⟩

theorem exists_shape (u : Settings) (h : f.kind.Accessible) : ∃ x, shape u f = .ok x := by
  unfold shape
  cases hkind : f.kind with
  | number p count enum => cases count <;> exact ⟨_, rfl⟩
  | text count => cases count <;> exact ⟨_, rfl⟩
  | bits b =>
    rw [hkind] at h
    obtain ⟨w, hw⟩ := exists_wordSize h
    refine ⟨.bits w b, ?_⟩
    dsimp only
    rw [hw]
  | nested t count => cases count <;> exact ⟨_, rfl⟩
  | flexible p => exact ⟨_, rfl⟩
  | unresolved =>
    rw [hkind] at h
    exact h.elim

theorem accessor_error (hf : f.kind.Accessible) (h : accessor u f = .error g) : g.Arithmetic := by
  obtain ⟨x, hx⟩ := exists_shape u hf
  rcases bind_eq_error h with h | ⟨_, -, h⟩
  · rw [hx] at h
    cases h
  · dsimp only at h
    split at h
    · cases h
    · cases h
      exact .inr rfl

theorem addField_error (hf : f.kind.Accessible) (h : s.addField u f = .error g) : g.Arithmetic := by
  unfold addField at h
  split at h
  · cases h
  split at h
  · cases h
  · rcases bind_eq_error h with h | ⟨_, -, h⟩
    · exact accessor_error hf h
    · cases h

theorem closeClass_error {r : Registry} {t : TypeInfo} (h : s.closeClass u r t = .error g) :
    g.Arithmetic := by
  unfold closeClass at h
  split at h
  · cases h
  split at h
  · cases h
  · cases h
    exact .inr rfl

theorem literal_error {language : Language} {c : Constant} (h : literal language c = .error g) :
    g.Arithmetic := by
  cases c with
  | int n =>
    rw [literal, Constant.decimal] at h
    split at h
    · cases h
    · cases h
      exact .inr rfl
  | real x => cases h
  | text s => cases h
  | bool b => cases h
  | absent => cases h

theorem mapM_literal_error {language : Language} (ms : List (String × Constant))
    (h : (ms.mapM fun (m, v) => do return (m, ← literal language v)) = .error g) : g.Arithmetic := by
  induction ms with
  | nil => cases h
  | cons m ms ih =>
    rw [List.mapM_cons] at h
    rcases bind_eq_error h with h | ⟨_, -, h⟩
    · rcases bind_eq_error h with h | ⟨_, -, h⟩
      · exact literal_error h
      · cases h
    · rcases bind_eq_error h with h | ⟨_, -, h⟩
      · exact ih h
      · cases h

theorem addEnum_error {name : String} {members : List (String × Constant)}
    (h : s.addEnum u name members = .error g) : g.Arithmetic := by
  rcases bind_eq_error h with h | ⟨_, -, h⟩
  · exact mapM_literal_error members h
  · cases h

end Script

theorem Content.Resolved.accessible {u : Surroundings} {d : Draft} {c : Content} {kind : FieldKind}
    {size : Nat} (h : c.Resolved u d) (hkind : c.whole? = some (kind, size)) : kind.Accessible := by
  cases h <;> cases hkind <;> trivial

namespace Draft

variable {d d' : Draft} {u : Surroundings} {s : Settings}

/-- All members are of kinds that there are accessors for, and so are the bit fields that wait, in
whatever word they will be. -/
structure Accessible (d : Draft) : Prop where
  placed : ∀ x ∈ d.labels, x.2.Accessible
  waits : ∀ p ∈ d.run.pending, p.declaredBytes ∈ [0, 1, 2, 4]

theorem accessible_flush (s : Settings) (h : d.Accessible) : (d.flush s).Accessible := by
  refine ⟨forall_labels_flush s h.placed fun y hy => ?_, ?_⟩
  · obtain ⟨-, -, -, -, hword⟩ := BitRun.mem_slices hy
    show y.2.word ∈ [1, 2, 4]
    rw [hword]
    exact BitRun.wordBytes_mem h.waits
  · rw [run_flush]
    exact List.forall_mem_nil _

theorem Change.accessible (h : Change u d d') (hs : d.Settled) (hd : d.Accessible) :
    d'.Accessible := by
  cases h with
  | same => exact hd
  | @field f c hc =>
    have hresolved := (FieldStatement.resolve_eq_ok hc).2.2
    refine put_induction hresolved.admitted ⟨hd.placed, hd.waits⟩ (fun _ => accessible_flush _) ?_ ?_
      fun _ _ h => ⟨h.placed, h.waits⟩
    · intro d' p hp _ h
      exact ⟨h.placed, forall_pending_pend h.waits hp.declared⟩
    · intro d' g p hp h
      refine ⟨forall_labels_store hp (hresolved.accessible hp.content) h.placed, ?_⟩
      rw [run_store]
      exact h.waits
  | openUnion ho =>
    have hflush := accessible_flush u.settings hd
    refine ⟨fun x hx => ?_, hflush.waits⟩
    rw [labels_openUnion u.settings ho] at hx
    exact hflush.placed x hx
  | closeUnion hu =>
    have hu' := inUnion_of_anonymous hu
    refine ⟨fun x hx => ?_, ?_⟩
    · exact hd.placed x ((labels_closeUnion u.settings hu' (hs hu')).subset hx)
    · rw [run_closeUnion]
      intro p hp
      cases hp

theorem Accessible.field (h : d.Accessible) {f : Field} (hf : .field f ∈ d.steps) :
    f.kind.Accessible := by
  have hmem : f ∈ d.fields := List.mem_filterMap.mpr ⟨.field f, hf, rfl⟩
  exact h.placed f.label (List.mem_map_of_mem (List.mem_append_left _ hmem))

end Draft
end RecordView
