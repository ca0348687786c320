import RecordView.Proofs.Layout.Path
import RecordView.Proofs.Script.Emission

/-! Arrays that the script sees through typed arrays of its own: where they are aligned, and where
they are not. -/
namespace RecordView

/-- A type stands at byte `n` of another one: it is the same, or stands in one that it extends or
holds. The list has each type that holds another one on the way, with the one that it holds. -/
inductive Contains (r : Registry) :
    TypeInfo → Nat → TypeInfo → List (TypeInfo × TypeInfo) → Prop where
  | same (t : TypeInfo) : Contains r t 0 t []
  | inherited {t p u : TypeInfo} {n : Nat} {hs : List (TypeInfo × TypeInfo)}
      (parent : t.parent.bind r.find? = some p) (rest : Contains r p n u hs) : Contains r t n u hs
  | nested {t v u : TypeInfo} {g : Field} {ref : TypeRef} {count : Option Nat} {i n : Nat}
      {hs : List (TypeInfo × TypeInfo)} (member : g ∈ t.fields) (kind : g.kind = .nested ref count)
      (found : r.find? ref.name = some v) (index : i < count.getD 1) (rest : Contains r v n u hs) :
      Contains r t (g.offset + i * ref.alignedLength + n) u ((t, v) :: hs)

section Contains

variable {r : Registry} {t u : TypeInfo} {n q : Nat} {hs : List (TypeInfo × TypeInfo)}

/-- A type stands at a multiple of what all types that are held on the way are aligned to, if those
that hold them fit. -/
theorem Contains.dvd (h : Contains r t n u hs) (hr : r.Sound) (ht : t ∈ r.types)
    (hall : ∀ x ∈ hs, x.1.Fits r q ∧ q ∣ x.2.alignment) : q ∣ n := by
  induction h with
  | same => exact Nat.dvd_zero _
  | inherited parent rest ih =>
    obtain ⟨name, -, hfound⟩ := Option.bind_eq_some_iff.mp parent
    exact ih (List.mem_of_find?_eq_some hfound) hall
  | @nested t v u g ref count i n hs member kind found index rest ih =>
    obtain ⟨⟨hfits, halign⟩, hrest⟩ := List.forall_mem_cons.mp hall
    have hn := ih (List.mem_of_find?_eq_some found) hrest
    have helement := (hfits.held hr ht member kind found halign i).1
    exact Nat.dvd_add helement hn

end Contains

namespace Script

variable {P : Settings → Prop} {a : Accessor} {f : Field} {p : Primitive} {n : Nat} {e : String}

/-- Only what is aligned in its own type, and written under a packing that is not smaller than its
elements, is seen through a typed array. -/
theorem isNative_aligned {u : Settings} {offset : Nat} (h : isNative u p offset = true) :
    p.bytes ∣ offset ∧ p.bytes ≤ u.pack.bytes := by
  unfold isNative at h
  split at h
  · rename_i hone
    rw [hone]
    exact ⟨Nat.one_dvd _, pack_bytes_pos _⟩
  split at h
  · cases h
  · rename_i hlocal
    simp only [Bool.or_eq_true, decide_eq_true_eq, bne_iff_ne, not_or] at hlocal
    exact ⟨Nat.dvd_of_mod_eq_zero (by omega), by omega⟩

theorem shape_native {u : Settings} (h : shape u f = .ok (.nativeArray p n e)) :
    (∃ enum, f.kind = .number p (some n) enum) ∧ isNative u p f.offset = true := by
  unfold shape at h
  split at h
  · cases h
  · rename_i p' count enum hkind
    by_cases hnative : isNative u p' f.offset = true
    · rw [if_pos hnative] at h
      cases h
      exact ⟨⟨enum, hkind⟩, hnative⟩
    · rw [if_neg hnative] at h
      cases h
  · cases h
  · cases h
  · split at h <;> cases h
  · cases h
  · cases h
  · cases h
  · cases h

theorem Serves.native (h : Serves P a f) (ha : a.shape = .nativeArray p n e) :
    f.name = a.name ∧ f.offset = a.offset ∧ (∃ enum, f.kind = .number p (some n) enum) ∧
      p.bytes ∣ a.offset ∧ ∃ u, P u ∧ p.bytes ≤ u.pack.bytes := by
  obtain ⟨u, hP, hu⟩ := h
  obtain ⟨found, hshape, hu⟩ := bind_eq_ok_iff.mp hu
  dsimp only at hu
  split at hu
  · cases hu
    cases ha
    obtain ⟨hkind, hnative⟩ := shape_native hshape
    obtain ⟨hdvd, hle⟩ := isNative_aligned hnative
    exact ⟨rfl, rfl, hkind, hdvd, u, hP, hle⟩
  · cases hu

end Script

namespace Declaration
open Reader Script

variable {env : Env} {d₀ : Draft} {s₀ s₁ : State}

/-- A body under one packing is under every packing that something in it is declared under. -/
theorem BodyUnder.of_inForce {q : Pack} (h : BodyUnder env (· = q) d₀ s₁) {u : Settings}
    (hu : InForce env d₀ s₁ u) {w : Nat} (hw : w ≤ u.pack.bytes) :
    BodyUnder env (w ≤ ·.bytes) d₀ s₁ := by
  obtain ⟨d, s, hrun, hacts, rfl⟩ := hu
  have heq : s.settings.pack = q := h d s hrun hacts
  intro d' s' hrun' hacts'
  rw [h d' s' hrun' hacts', ← heq]
  exact hw

/-- An array that the script sees through a typed array is aligned in the type that declares it, and
so in those that extend this type; and this type is itself aligned to the elements, if it is declared
under one packing. Then the array is aligned wherever the type is held, as long as all that hold
something on the way are declared under a packing that is not smaller than the elements, and what they
hold is aligned to the elements. -/
theorem native_array_aligned (env : Env) (s₀ : State) (h₀ : s₀.registry = {})
    (hs₀ : s₀.script.decls = []) (c : ClassDecl)
    (hc : .classDecl c ∈ (read env s₀).1.script.items) (a : Accessor)
    (ha : .accessor a ∈ c.members) (p : Primitive) (count : Nat) (e : String)
    (hshape : a.shape = .nativeArray p count e) :
    ∃ t f enum d₀ s₁, (read env s₀).1.registry.find? c.name = some t ∧
      Opens env s₀ d₀ s₁ ∧ Closes env d₀ s₁ t ∧ f ∈ t.fields ∧ f.name = a.name ∧
      f.offset = a.offset ∧ f.kind = .number p (some count) enum ∧ p.bytes ∣ a.offset ∧
      (∀ q, BodyUnder env (· = q) d₀ s₁ → p.bytes ∣ t.alignment) ∧
      ∀ u ∈ (read env s₀).1.registry.types, ∀ n hs,
        Contains (read env s₀).1.registry u n t hs →
        (∀ x ∈ hs, DeclaredUnder env s₀ (p.bytes ≤ ·.bytes) x.1 ∧ p.bytes ∣ x.2.alignment) →
        p.bytes ∣ n + a.offset := by
  have hr := (read_sound env h₀).2
  have hp := primitive_bytes_mem p
  obtain ⟨t, ht, hname, d₀, s₁, hopens, hcloses, hserves⟩ := read_serves env hs₀ c hc
  have hmember : a ∈ accessorsOf c.members := List.mem_filterMap.mpr ⟨_, ha, rfl⟩
  obtain ⟨f, hf, hfield⟩ := exists_served hserves hmember
  have hf' : f ∈ t.fields := (List.mem_filter.mp hf).1
  obtain ⟨hfname, hoffset, ⟨enum, hkind⟩, hdvd, u, hforce, hle⟩ := hfield.native hshape
  have hfound : (read env s₀).1.registry.find? c.name = some t := by
    rw [← hname]
    exact Registry.find?_of_mem hr.distinct ht
  refine ⟨t, f, enum, d₀, s₁, hfound, hopens, hcloses, hf', hfname, hoffset, hkind, hdvd, ?_, ?_⟩
  · intro q hq
    have hunder : DeclaredUnder env s₀ (p.bytes ≤ ·.bytes) t :=
      ⟨d₀, s₁, hopens, hcloses, hq.of_inForce hforce hle⟩
    obtain ⟨natural, hnatural, himp⟩ := (hunder.fits h₀ hp).fields f hf'
    rw [hkind] at hnatural
    cases hnatural
    exact (himp (Nat.dvd_refl _)).2
  · intro u hu n hs hplace hall
    have hn : p.bytes ∣ n := by
      apply hplace.dvd hr hu
      intro x hx
      obtain ⟨hunder, halign⟩ := hall x hx
      exact ⟨hunder.fits h₀ hp, halign⟩
    exact Nat.dvd_add hn hdvd

def arrayTokens : List Token :=
  [⟨.identifier, "struct", "", 1, 1⟩, ⟨.identifier, "A", "", 1, 8⟩, ⟨.leftBrace, "\x7b", "", 1, 10⟩,
   ⟨.identifier, "Uint32", "", 2, 1⟩, ⟨.identifier, "x", "", 2, 8⟩, ⟨.leftBracket, "[", "", 2, 9⟩,
   ⟨.number, "2", "", 2, 10⟩, ⟨.rightBracket, "]", "", 2, 11⟩, ⟨.semicolon, ";", "", 2, 12⟩,
   ⟨.rightBrace, "\x7d", "", 3, 1⟩, ⟨.semicolon, ";", "", 3, 2⟩]

def packTokens : List Token :=
  [⟨.directive, "#pragma", "", 4, 1⟩, ⟨.identifier, "pack", "", 4, 9⟩, ⟨.blob, "1", "", 4, 13⟩,
   ⟨.newline, "", "", 4, 16⟩]

def holderTokens : List Token :=
  [⟨.identifier, "struct", "", 5, 1⟩, ⟨.identifier, "B", "", 5, 8⟩, ⟨.leftBrace, "\x7b", "", 5, 10⟩,
   ⟨.identifier, "Uint8", "", 6, 1⟩, ⟨.identifier, "a", "", 6, 7⟩, ⟨.semicolon, ";", "", 6, 8⟩,
   ⟨.identifier, "A", "", 7, 1⟩, ⟨.identifier, "b", "", 7, 3⟩, ⟨.leftBracket, "[", "", 7, 4⟩,
   ⟨.number, "2", "", 7, 5⟩, ⟨.rightBracket, "]", "", 7, 6⟩, ⟨.semicolon, ";", "", 7, 7⟩,
   ⟨.rightBrace, "\x7d", "", 8, 1⟩, ⟨.semicolon, ";", "", 8, 2⟩, ⟨.eof, "", "", 9, 1⟩]

def littleHost (ts : List Token) : State := { unread := ts, settings := { hostEndian := .little } }

def arrayAccessor : Accessor :=
  ⟨"x", 0, .little, .nativeArray .uint32 2 "number", .javascript, true, true⟩

def arrayClass : ClassDecl :=
  ⟨"A", .javascript, none, "DataView", none, true, 8, false, false, false, false,
    [.accessor arrayAccessor], none⟩

/-- In the second of the structs that are held, the array stands at byte 12 of the whole. -/
theorem native_array_aligned_held :
    ∃ env t u, .classDecl arrayClass ∈
        (read env (littleHost (arrayTokens ++ holderTokens))).1.script.items ∧
      u ∈ (read env (littleHost (arrayTokens ++ holderTokens))).1.registry.types ∧
      Contains (read env (littleHost (arrayTokens ++ holderTokens))).1.registry u 12 t [(u, t)] ∧
      4 ∣ t.alignment ∧ 4 ∣ 12 + arrayAccessor.offset := by
  let env : Env := ⟨"__", fun _ => ""⟩
  let s₀ := littleHost (arrayTokens ++ holderTokens)
  let r := (read env s₀).1.registry
  have hc : .classDecl arrayClass ∈ (read env s₀).1.script.items := by decide +kernel
  obtain ⟨t, f, _, d₀, s₁, hfound, hopens, -, -, -, -, -, -, halign, hplaces⟩ :=
    native_array_aligned env s₀ rfl rfl arrayClass hc arrayAccessor (List.mem_singleton_self _)
      .uint32 2 "number" rfl
  have ht : 4 ∣ t.alignment := by
    have hall : allBodies? env 3 s₀ (bodyUnder? env (· = .sixteen) 3) = true := by decide +kernel
    exact halign .sixteen (bodyUnder_of_bodyUnder? (hopens.of_allBodies? hall))
  have hholder : ∃ u ∈ r.types, u.fields ≠ [] ∧ ∃ v ∈ r.find? "A", v.ref.name = "A" ∧
      v.ref.alignedLength = 8 ∧ ∃ g ∈ u.fields, g.offset = 4 ∧ g.kind = .nested v.ref (some 2) := by
    decide +kernel
  obtain ⟨u, hu, hfields, v, hv, hname, hlength, g, hg, hoffset, hkind⟩ := hholder
  obtain rfl : v = t := Option.some.inj (hv.symm.trans hfound)
  have hplace : Contains r u 12 v [(u, v)] := by
    have hv' : r.find? v.ref.name = some v := by rw [hname]; exact hv
    have h : Contains r u (g.offset + 1 * v.ref.alignedLength + 0) v [(u, v)] :=
      .nested hg hkind hv' (by decide) (.same v)
    rwa [hoffset, hlength] at h
  have hunder : DeclaredUnder env s₀ (4 ≤ ·.bytes) u := by
    have hall : allBodies? env 3 s₀ (bodyUnder? env (4 ≤ ·.bytes) 3) = true := by decide +kernel
    rcases read_origin env rfl u hu with ⟨hnone, -⟩ | ⟨d, s, ho, hcloses⟩
    · exact absurd hnone hfields
    · exact ⟨d, s, ho, hcloses, bodyUnder_of_bodyUnder? (ho.of_allBodies? hall)⟩
  refine ⟨env, v, u, hc, hu, hplace, ht, hplaces u hu 12 _ hplace fun x hx => ?_⟩
  obtain rfl := List.mem_singleton.mp hx
  exact ⟨hunder, ht⟩

/-- If the struct that holds them is packed, the same array, which the script sees through a typed
array as before, stands at byte 1 of the whole. -/
theorem native_array_misaligned_packed :
    ∃ env t u, .classDecl arrayClass ∈
        (read env (littleHost (arrayTokens ++ packTokens ++ holderTokens))).1.script.items ∧
      u ∈ (read env (littleHost (arrayTokens ++ packTokens ++ holderTokens))).1.registry.types ∧
      Contains (read env (littleHost (arrayTokens ++ packTokens ++ holderTokens))).1.registry u 1 t
        [(u, t)] ∧
      t.name = arrayClass.name ∧ arrayAccessor.shape = .nativeArray .uint32 2 "number" ∧
      ¬ Primitive.uint32.bytes ∣ 1 + arrayAccessor.offset := by
  let env : Env := ⟨"__", fun _ => ""⟩
  let s₀ := littleHost (arrayTokens ++ packTokens ++ holderTokens)
  let r := (read env s₀).1.registry
  have hc : .classDecl arrayClass ∈ (read env s₀).1.script.items := by decide +kernel
  have hholder : ∃ u ∈ r.types, ∃ t ∈ r.find? "A", t.name = "A" ∧ t.ref.name = "A" ∧
      ∃ g ∈ u.fields, g.offset = 1 ∧ g.kind = .nested t.ref (some 2) := by decide +kernel
  obtain ⟨u, hu, t, ht, hname, href, g, hg, hoffset, hkind⟩ := hholder
  have hplace : Contains r u 1 t [(u, t)] := by
    have ht' : r.find? t.ref.name = some t := by rw [href]; exact ht
    have h : Contains r u (g.offset + 0 * t.ref.alignedLength + 0) t [(u, t)] :=
      .nested hg hkind ht' (by decide) (.same t)
    rwa [hoffset, Nat.zero_mul] at h
  exact ⟨env, t, u, hc, hu, hplace, hname, rfl, by decide⟩

end Declaration
end RecordView
