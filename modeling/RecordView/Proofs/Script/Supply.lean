import RecordView.Proofs.Declaration.Event

/-! What the accessors of a script need is noted in it: the helper classes, the host variable, and the
probe in the constructor. -/
namespace RecordView
namespace Script

variable {s s' : Script} {probed : Bool} {ms : List Member}

/-- What the members of a class need is noted: helpers and the host variable in the script, and the
probe in the class. -/
structure Supplied (s : Script) (probed : Bool) (ms : List Member) : Prop where
  helper : ∀ a, .accessor a ∈ ms → ∀ h, a.helper? = some h → h ∈ s.helpers
  probe : ∀ a, .accessor a ∈ ms → a.probesHost = true → probed = true
  host : probed = true → s.host = true

/-- What all classes need is noted, also what the open one does. -/
structure Complete (s : Script) : Prop where
  classes : ∀ c, .classDecl c ∈ s.items → s.Supplied c.probed c.members
  current : ∀ o, s.current = some o → s.Supplied o.probed o.members

theorem Supplied.mono (h : s.Supplied probed ms) (hhelpers : s.helpers ⊆ s'.helpers)
    (hhost : s.host = true → s'.host = true) : s'.Supplied probed ms :=
  ⟨fun a ha x hx => hhelpers (h.helper a ha x hx), h.probe, fun hp => hhost (h.host hp)⟩

/-- Nothing is needed by text that is taken over. -/
theorem Supplied.verbatim (h : s.Supplied probed ms) (text : String) :
    s.Supplied probed (ms ++ [.verbatim text]) := by
  constructor
  · intro a ha
    exact h.helper a (by simpa using ha)
  · intro a ha
    exact h.probe a (by simpa using ha)
  · exact h.host

theorem Complete.verbatim (h : s.Complete) (text : String) : (s.verbatim text).Complete := by
  unfold Script.verbatim
  split
  · rename_i o ho
    refine ⟨fun c hc => (h.classes c hc).mono (List.Subset.refl _) id, fun o' ho' => ?_⟩
    cases ho'
    exact ((h.current o ho).verbatim text).mono (List.Subset.refl _) id
  · refine ⟨fun c hc => (h.classes c ?_).mono (List.Subset.refl _) id, fun o ho => ?_⟩
    · simpa using hc
    · exact (h.current o ho).mono (List.Subset.refl _) id

theorem Complete.openClass (h : s.Complete) (name : Option String) : (s.openClass name).Complete := by
  refine ⟨fun c hc => (h.classes c hc).mono (List.Subset.refl _) id, fun o ho => ?_⟩
  cases ho
  refine ⟨fun a ha => ?_, fun a ha => ?_, fun hp => ?_⟩
  · cases ha
  · cases ha
  · cases hp

theorem Complete.discardClass (h : s.Complete) : s.discardClass.Complete := by
  refine ⟨fun c hc => (h.classes c hc).mono (List.Subset.refl _) id, fun o ho => ?_⟩
  cases ho

theorem Complete.addField {u : Settings} {f : Field} (h : s.Complete) (ha : s.addField u f = .ok s') :
    s'.Complete := by
  rcases addField_eq_ok_iff.mp ha with ⟨-, rfl⟩ | ⟨o, a, ho, -, -, rfl⟩
  · exact h
  -- the helper is added if it is not there, and the other ones stay
  have hhelpers : s.helpers ⊆ (s.addAccessor o a).helpers := by
    intro x hx
    unfold addAccessor
    cases a.helper? with
    | none => exact hx
    | some y =>
      show x ∈ (if s.helpers.contains y then s.helpers else s.helpers ++ [y])
      split
      · exact hx
      · exact List.mem_append_left _ hx
  have hhost : s.host = true → (s.addAccessor o a).host = true := by
    intro hs
    simp [addAccessor, hs]
  refine ⟨fun c hc => (h.classes c hc).mono hhelpers hhost, fun o' ho' => ?_⟩
  have hbefore := h.current o ho
  cases ho'
  refine ⟨fun b hb x hx => ?_, fun b hb hp => ?_, fun hp => ?_⟩
  · rcases List.mem_append.mp hb with hb | hb
    · exact hhelpers (hbefore.helper b hb x hx)
    · cases List.mem_singleton.mp hb
      simp only [addAccessor, hx]
      show x ∈ (if s.helpers.contains x then s.helpers else s.helpers ++ [x])
      split
      · rename_i hc
        simpa using hc
      · simp
  · rcases List.mem_append.mp hb with hb | hb
    · simp [hbefore.probe b hb hp]
    · cases List.mem_singleton.mp hb
      simp [hp]
  · rcases Bool.or_eq_true_iff.mp hp with hp | hp
    · exact hhost (hbefore.host hp)
    · simp [addAccessor, hp]

theorem Complete.closeClass {u : Settings} {r : Registry} {t : TypeInfo} (h : s.Complete)
    (hc : s.closeClass u r t = .ok s') : s'.Complete := by
  rcases closeClass_eq_ok_iff.mp hc with ⟨-, rfl⟩ | ⟨o, ho, -, rfl⟩
  · exact h
  · refine ⟨fun c hc => ?_, fun o' ho' => by cases ho'⟩
    rcases List.mem_append.mp hc with hc | hc
    · exact (h.classes c hc).mono (List.Subset.refl _) id
    · cases List.mem_singleton.mp hc
      exact (h.current o ho).mono (List.Subset.refl _) id

theorem Complete.addEnum {u : Settings} {name : String} {members : List (String × Constant)}
    (h : s.Complete) (ha : s.addEnum u name members = .ok s') : s'.Complete := by
  obtain ⟨written, -, ha⟩ := bind_eq_ok_iff.mp ha
  cases ha
  refine ⟨fun c hc => (h.classes c ?_).mono (List.Subset.refl _) id, fun o ho => ?_⟩
  · simpa using hc
  · exact (h.current o ho).mono (List.Subset.refl _) id

end Script

namespace Declaration

/-- No event leaves out what a class needs. -/
theorem scriptInvariant_complete : ScriptInvariant Script.Complete where
  verbatim _ text hs := hs.verbatim text
  openClass _ name hs := hs.openClass name
  discardClass _ hs := hs.discardClass
  addField _ _ _ _ added hs := hs.addField added
  closeClass _ _ _ _ _ closed hs := hs.closeClass closed
  addEnum _ _ _ _ _ added hs := hs.addEnum added

end Declaration
end RecordView
