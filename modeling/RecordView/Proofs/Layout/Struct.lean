import RecordView.Proofs.Declaration.History
import RecordView.Proofs.Layout.Change

/-! The layout of every declared struct. -/
namespace RecordView
variable {us : List StorageUnit} {t : TypeInfo} {form : Form}

namespace Draft

variable {d d' : Draft} {u : Surroundings}

/-- A change adds units and pieces under the setting that is in effect, or makes a unit of the pieces
of the union that it closes. -/
theorem Change.laid {base : Nat} {ps : List Piece} (h : Change u d d') (hl : Laid u.registry base d us ps)
    (hr : u.registry.Aligned) (hd : d.Settled) :
    Grows u.registry base u.settings.pack d us ps d' ∨
      (d.inAnonymousUnion = true ∧ ∃ us', Laid u.registry base d' us' [] ∧
        (us' = us ∨ ∃ n, us' = us ++ [.union n ps] ∧ d.waiting = ps.flatMap (·.fields) ∧
          d'.fields = d.fields ++ (StorageUnit.union n ps).fields)) := by
  cases h with
  | same => exact .inl (hl.grows rfl)
  | field f hc => exact .inl (grows_put hl hr (FieldStatement.resolve_ok hc))
  | openUnion ho => exact .inl (grows_openUnion u.settings hl ho)
  | closeUnion hu =>
    have hu' := inUnion_of_anonymous hu
    exact .inr ⟨hu, laid_closeUnion u.settings hl hu' (hd hu')⟩

end Draft

namespace Declaration
open Reader Draft

variable {env : Env} {d₀ d d' : Draft} {s₀ s s' : State} {r : Registry} {base : Nat}

/-! ## The body of a struct -/

/-- In the body that starts with `d₀` in state `s₀` there is a round that adds these fields to those
that a list of the draft holds, with the given setting in effect. -/
def AddedIn (env : Env) (d₀ : Draft) (s₀ : State) (list : Draft → List Field) (pack : Pack)
    (fs : List Field) : Prop :=
  ∃ d s d', Runs memberRound env d₀ s₀ d s ∧ Turns env d s d' ∧ s.settings.pack = pack ∧
    Adds (list d) (list d') fs

/-- Where in a body a unit is placed. A union is placed when it is closed; its pieces have waited
since the rounds that declared them. -/
def PlacedIn (env : Env) (d₀ : Draft) (s₀ : State) : StorageUnit → Prop
  | .single n p => AddedIn env d₀ s₀ Draft.fields p.pack (StorageUnit.single n p).fields
  | .union n ps =>
    (∀ p ∈ ps, AddedIn env d₀ s₀ Draft.waiting p.pack p.fields) ∧
      ∃ d s d', Runs memberRound env d₀ s₀ d s ∧ Turns env d s d' ∧ d.inAnonymousUnion = true ∧
        d.waiting = ps.flatMap (·.fields) ∧
        d'.fields = d.fields ++ (StorageUnit.union n ps).fields

/-- The units of an open struct are where the rounds of its body have placed them. -/
def Traced (env : Env) (d₀ : Draft) (s₀ : State) (r : Registry) (base : Nat) (d : Draft) : Prop :=
  ∃ us ps, Laid r base d us ps ∧ (∀ u ∈ us, PlacedIn env d₀ s₀ u) ∧
    ∀ p ∈ ps, AddedIn env d₀ s₀ Draft.waiting p.pack p.fields

theorem Traced.grows {ps : List Piece} (hg : Grows r base s.settings.pack d us ps d')
    (hr : Runs memberRound env d₀ s₀ d s) (ht : Turns env d s d') (hu : ∀ u ∈ us, PlacedIn env d₀ s₀ u)
    (hp : ∀ p ∈ ps, AddedIn env d₀ s₀ Draft.waiting p.pack p.fields) : Traced env d₀ s₀ r base d' := by
  obtain ⟨us', ps', hg⟩ := hg
  refine ⟨us', ps', hg.laid, ?_, ?_⟩
  · intro u hu'
    rcases hg.units u hu' with hu' | ⟨n, p, rfl, hpack, ha⟩
    · exact hu u hu'
    · exact ⟨d, s, d', hr, ht, hpack.symm, ha⟩
  · intro p hp'
    rcases hg.pieces p hp' with hp' | ⟨hpack, ha⟩
    · exact hp p hp'
    · exact ⟨d, s, d', hr, ht, hpack.symm, ha⟩

theorem Fresh.laid (h : Fresh r .struct d₀) : Laid r d₀.cursor d₀ [] [] := by
  have ho : d₀.overlap = none := h.overlap_eq
  refine ⟨h.form_eq, ?_, rfl, nofun, nofun, fun _ => rfl, ?_⟩
  · rw [fields, h.steps_eq]
    rfl
  · intro o ho'
    rw [ho] at ho'
    cases ho'

/-- All along the body of a struct, its units are where the rounds have placed them. -/
theorem runs_traced (h : Runs memberRound env d₀ s₀ d s) (hf : Fresh s₀.registry .struct d₀)
    (ha : s₀.registry.Aligned) : Traced env d₀ s₀ s₀.registry d₀.cursor d := by
  induction h with
  | start => exact ⟨[], [], hf.laid, nofun, nofun⟩
  | @next d d' s s' before round _ ih =>
    obtain ⟨us, ps, hl, hu, hp⟩ := ih
    -- no type is declared in a body, so what has been laid out is sound in the round's registry
    have hr : (s.surroundings env).registry = s₀.registry := runs_registry before
    have hd : d.Settled := runs_settled before hf.settled
    have ht : Turns env d s d' := ⟨s', .inl round⟩
    rw [← hr] at hl ha ⊢
    rcases (memberRound_again round).laid hl ha hd with hg | ⟨hanon, us', hl', hus⟩
    · exact .grows hg before ht hu hp
    · refine ⟨us', [], hl', ?_, nofun⟩
      rcases hus with rfl | ⟨n, rfl, hw, hf'⟩
      · exact hu
      · intro u hu'
        rcases List.mem_append.mp hu' with hu' | hu'
        · exact hu u hu'
        · obtain rfl := List.mem_singleton.mp hu'
          exact ⟨hp, d, s, d', before, ht, hanon, hw, hf'⟩

/-- The bytes that a type takes over from the one that it extends. -/
def Extends (r : Registry) (t : TypeInfo) (base : Nat) : Prop :=
  (t.parent = none ∧ base = 0) ∨
    ∃ p, t.parent = some p.name ∧ r.find? p.name = some p ∧ base = p.byteLength

/-- The units of a declared struct, and the body that they come from. -/
structure LaidOut (env : Env) (s₀ : State) (r : Registry) (t : TypeInfo) (base : Nat)
    (us : List StorageUnit) : Prop where
  extended : Extends r t base
  fields : t.fields = us.flatMap StorageUnit.fields
  tiled : Tiled base us t.byteLength
  sound : ∀ u ∈ us, u.Sound r
  placed : ∃ d₀ s₁, Opens env s₀ d₀ s₁ ∧ Closes env d₀ s₁ t ∧ ∀ u ∈ us, PlacedIn env d₀ s₁ u

theorem finish_eq {u : Settings} {name : String} (h : d.finish u name = some t) :
    t.form = d.form ∧ t.byteLength = d.size ∧ t.alignment = min u.pack.bytes d.fullAlignment ∧
      t.parent = d.parent ∧ t.fields = d.fields := by
  obtain ⟨-, rfl⟩ := finish_some h
  exact ⟨rfl, rfl, rfl, rfl, rfl⟩

/-- The type that a body closes with has the form and the parent of its head. -/
theorem Closes.follows {s₁ : State} (h : Closes env d₀ s₁ t) :
    ∃ (d : Draft) (u : Settings), Follows d₀ d ∧ t.form = d.form ∧ t.parent = d.parent ∧
      t.alignment = min u.pack.bytes d.fullAlignment := by
  obtain ⟨d, s, d', s', name, hr, hm, ht⟩ := h
  obtain ⟨-, rfl, -⟩ := memberRound_done hm
  obtain ⟨hform, -, halignment, hparent, -⟩ := finish_eq ht
  exact ⟨_, _, (runs_follows hr).trans (follows_flush s.settings d), hform, hparent, halignment⟩

theorem Closes.form_eq {s₁ : State} (h : Closes env d₀ s₁ t) : t.form = d₀.form := by
  obtain ⟨d, -, hfollows, hform, -⟩ := h.follows
  exact hform.trans hfollows.form

theorem Closes.parent_eq {s₁ : State} (h : Closes env d₀ s₁ t) : t.parent = d₀.parent := by
  obtain ⟨d, -, hfollows, -, hparent, -⟩ := h.follows
  exact hparent.trans hfollows.parent

theorem Fresh.extends (h : Fresh r form d₀) (ht : t.parent = d₀.parent) : Extends r t d₀.cursor := by
  rcases h.start with ⟨hp, -, hc, -⟩ | ⟨p, hp, hn, hc, -⟩
  · exact .inl ⟨ht.trans hp, hc⟩
  · exact .inr ⟨p, ht.trans hn, hp, hc⟩

theorem closes_laidOut {s₁ : State} (ho : Opens env s₀ d₀ s₁) (hf : Fresh s₁.registry .struct d₀)
    (ha : s₁.registry.Aligned) (hc : Closes env d₀ s₁ t) :
    ∃ us, LaidOut env s₀ s₁.registry t d₀.cursor us := by
  obtain ⟨d, s, d', s', name, hr, hm, ht⟩ := id hc
  obtain ⟨-, rfl, -⟩ := memberRound_done hm
  obtain ⟨us, ps, hl, hu, hp⟩ := runs_traced hr hf ha
  obtain ⟨us', ps', hl', hu', -⟩ : Traced env d₀ s₁ s₁.registry d₀.cursor (d.flush s.settings) :=
    .grows (grows_flush s.settings hl) hr ⟨s', .inr hm⟩ hu hp
  obtain ⟨-, hbytes, -, -, hfields⟩ := finish_eq ht
  have hsize : (d.flush s.settings).size = (d.flush s.settings).cursor := by
    simp only [size, hl'.form]
  refine ⟨us', hf.extends hc.parent_eq, hfields.trans hl'.fields, ?_, hl'.units,
    d₀, s₁, ho, hc, hu'⟩
  rw [hbytes, hsize]
  exact hl'.tiled

/-! ## Later declarations -/

theorem find?_append {name : String} (h : r.find? name = some t) (ts : List TypeInfo) :
    Registry.find? ⟨r.types ++ ts⟩ name = some t := by
  rw [Registry.find?, List.find?_append]
  rw [Registry.find?] at h
  rw [h]
  rfl

theorem NaturalAlignment.append {kind : FieldKind} {n : Nat} (h : NaturalAlignment r kind n)
    (ts : List TypeInfo) : NaturalAlignment ⟨r.types ++ ts⟩ kind n := by
  cases h with
  | number p count enum => exact .number p count enum
  | text count => exact .text count
  | bits b => exact .bits b
  | nested count h => exact .nested count (find?_append h ts)
  | flexible p => exact .flexible p

/-- What is known of a struct stays true when other types are declared. -/
theorem LaidOut.append (h : LaidOut env s₀ r t base us) (ts : List TypeInfo) :
    LaidOut env s₀ ⟨r.types ++ ts⟩ t base us := by
  refine ⟨?_, h.fields, h.tiled, ?_, h.placed⟩
  · rcases h.extended with hn | ⟨p, hn, hp, hb⟩
    · exact .inl hn
    · exact .inr ⟨p, hn, find?_append hp ts, hb⟩
  · intro u hu p hp
    have hs := h.sound u hu p hp
    refine ⟨hs.shape, fun f hf => ?_, hs.natural_pos⟩
    obtain ⟨ho, hb, ha⟩ := hs.field f hf
    exact ⟨ho, hb, NaturalAlignment.append ha ts⟩

theorem Fresh.alignment_pos (h : Fresh r form d₀) (ha : r.Aligned) : 0 < d₀.alignment := by
  rcases h.start with ⟨-, -, -, hd⟩ | ⟨p, hp, -, -, hd, -⟩
  · rw [hd]
    exact Nat.one_pos
  · rw [hd]
    exact ha p (List.mem_of_find?_eq_some hp)

theorem alignment_le_full (d : Draft) : d.alignment ≤ d.fullAlignment := by
  unfold fullAlignment
  split
  · exact Nat.le_max_left _ _
  · exact Nat.le_refl _

/-- What a statement that opens a body starts from is what is declared before it. -/
theorem Enters.fresh {typedef : Bool} {s₁ s₂ : State} (he : Enters env s form typedef s₁)
    (ho : opening form typedef env s₁ = .ok d s₂) : Fresh s.registry form d ∧ s₂.registry = s.registry := by
  obtain ⟨hf, hs⟩ := opening_ok ho
  have h₁ : s₁.registry = s.registry := congrArg (·.2.1) he.context
  have h₂ : s₂.registry = s₁.registry := congrArg (·.2.1) hs
  rw [h₁] at hf
  exact ⟨hf, h₂.trans h₁⟩

theorem declares_alignment (h : Declares env s t) (ha : s.registry.Aligned) : 0 < t.alignment := by
  cases h with
  | enum u e name => exact Nat.lt_min.mpr ⟨pack_bytes_pos u.pack, bytes_pos e.backing⟩
  | aggregate enters opens closes =>
    obtain ⟨hf, -⟩ := enters.fresh opens
    obtain ⟨d, u, hfollows, -, -, halignment⟩ := closes.follows
    rw [halignment]
    refine Nat.lt_min.mpr ⟨pack_bytes_pos _, ?_⟩
    calc 0 < _ := hf.alignment_pos ha
      _ ≤ _ := hfollows.alignment
      _ ≤ _ := alignment_le_full _

/-- Every declared struct is laid out in units. -/
theorem read_laidOut (env : Env) (s₀ : State) (h₀ : s₀.registry = {}) :
    ∀ t ∈ (read env s₀).1.registry.types, t.form = .struct →
      ∃ base us, LaidOut env s₀ (read env s₀).1.registry t base us := by
  have haligned : ∀ s, Runs statementRound env () s₀ () s → s.registry.Aligned := by
    refine (registry_growth (P := Registry.Aligned) ?_ fun s t s' _ ha hcompletes u hu => ?_).1
    · rw [h₀]
      nofun
    · rcases List.mem_append.mp hu with hu | hu
      · exact ha u hu
      · obtain rfl := List.mem_singleton.mp hu
        exact declares_alignment hcompletes.declares ha
  intro t ht hform
  obtain ⟨s, s', hr, hcompletes⟩ := exists_completes h₀ ht
  have ha := haligned s hr
  cases hcompletes.declares with
  | enum => cases hform
  | @aggregate form typedef s₁ s₂ d _ enters opens closes =>
    obtain ⟨hf, hreg⟩ := enters.fresh opens
    have hstruct : form = .struct := by rw [← hf.form_eq, ← closes.form_eq, hform]
    subst hstruct
    rw [← hreg] at hf ha
    obtain ⟨us, hl⟩ := closes_laidOut ⟨s, s₁, _, _, hr, enters, opens⟩ hf ha closes
    obtain ⟨ts, hts⟩ := registry_mono hr
    have hall := hl.append ts
    rw [hreg, ← hts] at hall
    exact ⟨_, us, hall⟩

/-- The size of the type that a type extends, zero if there is none. -/
def inheritedBytes (r : Registry) (t : TypeInfo) : Nat :=
  ((t.parent.bind r.find?).map (·.byteLength)).getD 0

theorem Extends.eq_inheritedBytes (h : Extends r t base) : base = inheritedBytes r t := by
  rcases h with ⟨hn, hb⟩ | ⟨p, hn, hp, hb⟩
  · rw [inheritedBytes, hn, hb]
    rfl
  · rw [inheritedBytes, hn, hb, Option.bind_some, hp]
    rfl

/-- The layout of every declared struct. Its fields are those of storage units, each of which is
placed in a round of the body that declares the struct, with the alignment that the setting in
effect in that round leaves of the natural one. The units follow each other without a gap that
alignment does not ask for, from the end of the extended type to the end of the struct. So all
fields lie in the struct, and only bits of one word and members of one anonymous union overlap. -/
theorem struct_layout (env : Env) (s₀ : State) (h₀ : s₀.registry = {}) (t : TypeInfo)
    (ht : t ∈ (read env s₀).1.registry.types) (hs : t.form = .struct) :
    ∃ us : List StorageUnit,
      t.fields = us.flatMap StorageUnit.fields ∧
      (∀ u ∈ us, u.Sound (read env s₀).1.registry) ∧
      (∃ d₀ s₁, Opens env s₀ d₀ s₁ ∧ Closes env d₀ s₁ t ∧ ∀ u ∈ us, PlacedIn env d₀ s₁ u) ∧
      Tiled (inheritedBytes (read env s₀).1.registry t) us t.byteLength ∧
      (∀ f ∈ t.fields, inheritedBytes (read env s₀).1.registry t ≤ f.offset ∧
        f.offset + f.bytes ≤ t.byteLength) ∧
      t.fields.Pairwise fun f g =>
        f.Apart g ∨ f.SameWord g ∨ ∃ u ∈ us, u.isUnion = true ∧ f ∈ u.fields ∧ g ∈ u.fields := by
  obtain ⟨base, us, hl⟩ := read_laidOut env s₀ h₀ t ht hs
  obtain rfl := hl.extended.eq_inheritedBytes
  refine ⟨us, hl.fields, hl.sound, hl.placed, hl.tiled, ?_, ?_⟩
  · rw [hl.fields]
    exact hl.tiled.field_bounds hl.sound
  · rw [hl.fields]
    exact hl.tiled.fields_apart hl.sound

/-- A struct in which the packing changes between two fields. -/
def packedTokens : List Token :=
  [⟨.identifier, "struct", "", 1, 1⟩, ⟨.identifier, "A", "", 1, 8⟩, ⟨.leftBrace, "\x7b", "", 1, 10⟩,
   ⟨.identifier, "Uint8", "", 2, 1⟩, ⟨.identifier, "a", "", 2, 7⟩, ⟨.semicolon, ";", "", 2, 8⟩,
   ⟨.directive, "#pragma", "", 3, 1⟩, ⟨.identifier, "pack", "", 3, 9⟩, ⟨.blob, "2", "", 3, 13⟩,
   ⟨.newline, "", "", 3, 16⟩,
   ⟨.identifier, "Uint32", "", 4, 1⟩, ⟨.identifier, "b", "", 4, 8⟩, ⟨.semicolon, ";", "", 4, 9⟩,
   ⟨.rightBrace, "\x7d", "", 5, 1⟩, ⟨.semicolon, ";", "", 5, 2⟩, ⟨.eof, "", "", 6, 1⟩]

def packedStruct : TypeInfo :=
  { name := "A", form := .struct, byteLength := 6, alignment := 2,
    fields :=
      [⟨"a", .number .uint8 none none, 0, 1, false, 2⟩,
       ⟨"b", .number .uint32 none none, 2, 4, false, 4⟩] }

theorem struct_layout_packed :
    packedStruct ∈ (read ⟨"__", fun _ => ""⟩ { unread := packedTokens }).1.registry.types ∧
      ∃ us, packedStruct.fields = us.flatMap StorageUnit.fields ∧ Tiled 0 us 6 := by
  have ht : packedStruct ∈
      (read ⟨"__", fun _ => ""⟩ { unread := packedTokens }).1.registry.types := by decide +kernel
  obtain ⟨us, hf, -, -, htiled, -⟩ := struct_layout _ _ rfl packedStruct ht rfl
  exact ⟨ht, us, hf, htiled⟩

end Declaration
end RecordView
