import RecordView.Proofs.Declaration.Twin

/-! The layout depends on no more than it has to: what is written for a type, and which of its fields
are padding, has no part in it. -/
namespace RecordView.Declaration

/-- Two readings of one stream that start with the same settings of the layout. -/
def emissionTwin (p₁ p₂ : String) (lines : Int → String) (start : Nat) : Twin where
  env₁ := ⟨p₁, lines⟩
  env₂ := ⟨p₂, lines⟩
  exact := false
  mark := fun _ => false
  rest₁ := []
  rest₂ := []
  errors₁ := []
  errors₂ := []
  base := start
  start₁ := start
  start₂ := start
  lines := rfl
  marks := fun _ => rfl
  mark_id := fun h => absurd h Bool.false_ne_true
  rest_nil := fun _ => rfl
  errors_le := Nat.le_refl _
  base_le := Nat.le_refl _

/-- The types that are declared, but for the marks of padding fields, the constants and the errors are
the same, whatever marks a padding field and whatever the settings are that the layout does not depend
on. -/
theorem layout_ignores_emission (lines : Int → String) (p₁ p₂ : String) (s : State) (u : Settings)
    (hu : u.plain = s.settings.plain) (h₁ : (read ⟨p₁, lines⟩ s).2 = none)
    (h₂ : (read ⟨p₂, lines⟩ { s with settings := u }).2 = none) :
    (read ⟨p₁, lines⟩ s).1.registry.types.map (·.mapPadding fun _ => false) =
        (read ⟨p₂, lines⟩ { s with settings := u }).1.registry.types.map
          (·.mapPadding fun _ => false) ∧
      (read ⟨p₁, lines⟩ s).1.constants = (read ⟨p₂, lines⟩ { s with settings := u }).1.constants ∧
      (read ⟨p₁, lines⟩ s).1.report.errors =
        (read ⟨p₂, lines⟩ { s with settings := u }).1.report.errors := by
  let T := emissionTwin p₁ p₂ lines s.taken
  have hstart : T.Rel s { s with settings := u } :=
    { unread := ⟨s.unread, (List.append_nil _).symm, (List.append_nil _).symm⟩
      frames := rfl, ahead := rfl, eof := rfl, last := .inl rfl, taken := rfl
      started := Nat.le_refl _, declared := rfl, commentSeen := rfl, constants := rfl
      settings := hu.symm, registry := rfl, script := fun h => absurd h Bool.false_ne_true, limit := rfl
      errors := ⟨s.report.errors, rfl, rfl⟩ }
  have hlost (s' : State) : ¬ T.Lost s' := by
    rintro (h | ⟨h, -⟩)
    · exact Nat.not_lt_zero _ h
    · exact Nat.not_lt_zero _ h
  have hend := Twin.rel_read (Twin.sim_description.meets hstart) h₁ h₂ (hlost _)
  obtain ⟨es, herrors₁, herrors₂⟩ := hend.errors
  exact ⟨congrArg Registry.types hend.registry, hend.constants, herrors₁.trans herrors₂.symm⟩

/-- A struct with a padding field and bit fields, and an enum. -/
def paddedTokens : List Token :=
  [⟨.identifier, "struct", "", 1, 1⟩, ⟨.identifier, "A", "", 1, 8⟩, ⟨.leftBrace, "\x7b", "", 1, 10⟩,
   ⟨.identifier, "Uint8", "", 2, 1⟩, ⟨.identifier, "__a", "", 2, 7⟩, ⟨.semicolon, ";", "", 2, 10⟩,
   ⟨.identifier, "Boolean", "", 3, 1⟩, ⟨.identifier, "b", "", 3, 9⟩, ⟨.semicolon, ";", "", 3, 10⟩,
   ⟨.identifier, "Uint32", "", 4, 1⟩, ⟨.identifier, "c", "", 4, 8⟩, ⟨.semicolon, ";", "", 4, 9⟩,
   ⟨.rightBrace, "\x7d", "", 5, 1⟩, ⟨.semicolon, ";", "", 5, 2⟩,
   ⟨.identifier, "enum", "", 6, 1⟩, ⟨.identifier, "D", "", 6, 6⟩, ⟨.leftBrace, "\x7b", "", 6, 8⟩,
   ⟨.identifier, "e", "", 7, 1⟩, ⟨.rightBrace, "\x7d", "", 8, 1⟩, ⟨.semicolon, ";", "", 8, 2⟩,
   ⟨.eof, "", "", 9, 1⟩]

/-- Other marks of padding and other byte order, accessors and methods: the script and the marks
differ, the layout does not. -/
theorem layout_ignores_emission_padded :
    let u : Settings := { endian := .big, setters := false, json := true, comments := .all }
    let r₁ := (read ⟨"__", fun _ => ""⟩ { unread := paddedTokens }).1
    let r₂ := (read ⟨"b", fun _ => ""⟩ { unread := paddedTokens, settings := u }).1
    r₁.registry.types.map (fun t => (t.name, t.byteLength, t.alignment)) = [("A", 8, 4), ("D", 4, 4)] ∧
      r₁.registry ≠ r₂.registry ∧ r₁.script ≠ r₂.script ∧
      r₁.registry.types.map (·.mapPadding fun _ => false) =
        r₂.registry.types.map (·.mapPadding fun _ => false) ∧
      r₁.constants = r₂.constants ∧ r₁.report.errors = r₂.report.errors := by
  refine ⟨by decide +kernel, by decide +kernel, by decide +kernel, ?_⟩
  exact layout_ignores_emission (fun _ => "") "__" "b" { unread := paddedTokens }
    { endian := .big, setters := false, json := true, comments := .all } rfl (by decide +kernel)
    (by decide +kernel)

end RecordView.Declaration
