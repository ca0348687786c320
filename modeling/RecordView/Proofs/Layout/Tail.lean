import RecordView.Proofs.Layout.Union

/-! Arrays that are open: such an array ends a struct that no other type contains or extends. -/
namespace RecordView

def Field.isTail (f : Field) : Bool :=
  match f.kind with
  | .flexible _ => true
  | _ => false

theorem Field.isTail_iff {f : Field} : f.isTail = true ↔ ∃ p, f.kind = .flexible p := by
  unfold isTail
  split
  · rename_i p hp
    exact ⟨fun _ => ⟨p, hp⟩, fun _ => rfl⟩
  · rename_i hother
    simp only [Bool.false_eq_true, false_iff]
    rintro ⟨p, hp⟩
    exact hother p hp

theorem byte_primitive {p : Primitive} (h : p.bytes = 1) : p = .int8 ∨ p = .uint8 := by
  revert h
  cases p <;> decide

namespace Draft

variable {d d' : Draft} {u : Surroundings} {s : Settings}

/-! ## Structs without an open array -/

def NoTail (d : Draft) : Prop := ∀ x ∈ d.labels, ∀ p, x.2 ≠ .flexible p

theorem noTail_flush (s : Settings) (h : d.NoTail) : (d.flush s).NoTail :=
  forall_labels_flush s h fun y _ p hp => by cases hp

theorem noTail_put {f : FieldStatement} {c : Content} (hc : c.Resolved u d) (hp : ∀ p, c ≠ .tail p)
    (h : d.NoTail) : (f.put u d c).NoTail := by
  refine put_induction hc.admitted h (fun _ => noTail_flush _) (fun _ _ _ _ h => h) ?_ fun _ _ h => h
  intro d' g p hfills h
  refine forall_labels_store hfills (fun q hq => ?_) h
  have hkind : c.whole?.map (·.1) = some (.flexible q) := by
    rw [hfills.content]
    exact congrArg some hq
  cases hc <;> cases hkind
  exact hp q rfl

theorem NoTail.isTail (h : d.NoTail) {f : Field} (hf : f ∈ d.fields) : f.isTail = false := by
  rw [Bool.eq_false_iff]
  intro htail
  obtain ⟨p, hp⟩ := Field.isTail_iff.mp htail
  exact h f.label (List.mem_map_of_mem (List.mem_append_left _ hf)) p hp

/-! ## Structs that end in an open array -/

/-- A struct that ends in an open array and has none before it. A union that is opened after the
array stays empty. -/
structure EndsOpen (d : Draft) (f : Field) : Prop where
  form : d.form = .struct
  fields : ∃ fs, d.fields = fs ++ [f] ∧ ∀ g ∈ fs, g.isTail = false
  kind : f.kind = .flexible .int8 ∨ f.kind = .flexible .uint8
  bytes : f.bytes = 0
  offset : f.offset = d.cursor
  run : d.run = {}
  overlap : ∀ o, d.overlap = some o → o.width = 0

structure Tailed (d : Draft) : Prop where
  absent : d.flexible = none → d.NoTail
  present : d.flexible ≠ none → ∃ f, d.EndsOpen f

theorem tailed_of_absent (hf : d.flexible = none) (h : d.NoTail) : d.Tailed :=
  ⟨fun _ => h, fun hne => absurd hf hne⟩

/-- An open array takes no bytes at the end of what is placed. -/
theorem endsOpen_place {p : Primitive} (name : String) (padding : Bool) (line : Nat)
    (hform : d.form = .struct) (hout : d.inUnion = false) (hd : d.NoTail) (hp : p.bytes = 1) :
    ∃ f, (d.place s name (.flexible p) 0 1 padding line).EndsOpen f := by
  have hl := one_eq_min s.pack
  have ho : (d.flush s).overlap = none := overlap_flush s hout
  let piece : Piece := ⟨s.pack, 1, 0, [⟨name, .flexible p, 0, 0, padding, line⟩]⟩
  have hone : piece.alignment = 1 := hl.symm
  have hcursor : alignUp (d.flush s).cursor piece.alignment = (d.flush s).cursor := by
    rw [hone]
    rfl
  rw [place_eq _ _ _ _ _ _ hl, store_outside ho, hcursor]
  refine ⟨⟨name, .flexible p, (d.flush s).cursor, 0, padding, line⟩, ?_, ?_, ?_, rfl, rfl, ?_, ?_⟩
  · exact (follows_flush s d).form.trans hform
  · refine ⟨(d.flush s).fields, ?_, fun g hg => (noTail_flush s hd).isTail hg⟩
    refine (fields_append (d.flush s) _).trans ?_
    simp [StorageUnit.fields, StorageUnit.pieces, StorageUnit.start, Field.shift]
  · rcases byte_primitive hp with rfl | rfl
    · exact .inl rfl
    · exact .inr rfl
  · exact run_flush s d
  · intro o ho'
    rw [ho] at ho'
    cases ho'

theorem tailed_put {f : FieldStatement} {c : Content} (hc : f.resolve u d = .ok c)
    (hform : d.inUnion = false → d.form = .struct) (hd : d.Tailed) : (f.put u d c).Tailed := by
  obtain ⟨hnone, -, hresolved⟩ := FieldStatement.resolve_eq_ok hc
  let named : Draft := { d with names := d.names ++ [f.name.text] }
  have hnamed : named.NoTail := hd.absent hnone
  have hflexible : named.flexible = none := hnone
  cases c with
  | bits count boolean declaredBytes =>
    exact tailed_of_absent ((continues_addBits _ named _).flexible.trans hflexible)
      (noTail_put hresolved nofun hnamed)
  | plain kind size alignment =>
    exact tailed_of_absent ((continues_place _ named _ _ _ _ _ _).flexible.trans hflexible)
      (noTail_put hresolved nofun hnamed)
  | tail p =>
    cases hresolved with
    | tail byte outside =>
      obtain ⟨g, hg⟩ := endsOpen_place (d := named) (s := u.settings) f.name.text (f.isPadding u)
        f.name.line (hform outside) outside hnamed byte
      constructor
      · intro habsent
        cases habsent
      · intro _
        exact ⟨g, hg.form, hg.fields, hg.kind, hg.bytes, hg.offset, hg.run, hg.overlap⟩

theorem tailed_openUnion (s : Settings) (ho : d.inUnion = false) (hd : d.Tailed) :
    (d.openUnion s).Tailed := by
  have hflexible : (d.openUnion s).flexible = d.flexible := (continues_flush s d).flexible
  constructor
  · intro hnone
    rw [hflexible] at hnone
    intro x hx
    rw [labels_openUnion s ho] at hx
    exact noTail_flush s (hd.absent hnone) x hx
  · intro hsome
    rw [hflexible] at hsome
    obtain ⟨f, hf⟩ := hd.present hsome
    have hflush : d.flush s = d := if_pos (by rw [hf.run]; rfl)
    rw [openUnion, hflush]
    refine ⟨f, hf.form, hf.fields, hf.kind, hf.bytes, hf.offset, hf.run, ?_⟩
    rintro o ⟨⟩
    rfl

theorem tailed_closeUnion (s : Settings) (hu : d.inUnion = true) (hrun : d.run.isEmpty = true)
    (hd : d.Tailed) : (d.closeUnion s).1.Tailed := by
  have hflexible : (d.closeUnion s).1.flexible = d.flexible :=
    (continues_closeUnion s d).flexible.trans (continues_flush s d).flexible
  constructor
  · intro hnone
    rw [hflexible] at hnone
    intro x hx
    exact hd.absent hnone x ((labels_closeUnion s hu hrun).subset hx)
  · intro hsome
    rw [hflexible] at hsome
    obtain ⟨f, hf⟩ := hd.present hsome
    obtain ⟨o, ho⟩ := Option.isSome_iff_exists.mp hu
    rw [closeUnion_empty s hrun ho (hf.overlap o ho)]
    exact ⟨f, hf.form, hf.fields, hf.kind, hf.bytes, hf.offset, hf.run, fun o ho => by cases ho⟩

theorem Change.tailed (h : Change u d d') (hs : d.Settled)
    (hform : d.inUnion = false → d.form = .struct) (hd : d.Tailed) : d'.Tailed := by
  cases h with
  | same => exact hd
  | field f hc => exact tailed_put hc hform hd
  | openUnion ho => exact tailed_openUnion u.settings ho hd
  | closeUnion hu =>
    have hu' := inUnion_of_anonymous hu
    exact tailed_closeUnion u.settings hu' (hs hu') hd

end Draft

/-- A type that has an open array is a struct that ends in it. -/
structure TypeInfo.Tailed (t : TypeInfo) : Prop where
  absent : t.hasFlexible = false → ∀ f ∈ t.fields, f.isTail = false
  present : t.hasFlexible = true → t.form = .struct ∧ ∃ fs f, t.fields = fs ++ [f] ∧
    (∀ g ∈ fs, g.isTail = false) ∧ (f.kind = .flexible .int8 ∨ f.kind = .flexible .uint8) ∧
    f.bytes = 0 ∧ f.offset = t.byteLength

namespace Registry

variable {r : Registry} {t u : TypeInfo}

/-- All fields of a type end in its own. -/
theorem allFields_own (r : Registry) (t : TypeInfo) : ∃ fs, r.allFields t = fs ++ t.fields := by
  have hhead (n : Nat) : ∃ us, r.lineage n t = t :: us := by
    cases n with
    | zero => exact ⟨[], rfl⟩
    | succ n =>
      unfold lineage
      split
      · exact ⟨_, rfl⟩
      · exact ⟨[], rfl⟩
  obtain ⟨us, hus⟩ := hhead r.types.length
  refine ⟨us.reverse.flatMap (·.fields), ?_⟩
  rw [allFields, hus]
  simp

theorem Sound.eq_of_name (h : r.Sound) (ht : t ∈ r.types) (hu : u ∈ r.types)
    (hn : u.name = t.name) : u = t := by
  have hfound := find?_of_mem h.distinct hu
  rw [hn, find?_of_mem h.distinct ht] at hfound
  exact (Option.some.inj hfound).symm

/-- No declared type extends one that has an open array, or has a field of it. -/
theorem Sound.outermost (h : r.Sound) (ht : t ∈ r.types) (hflex : t.hasFlexible = true)
    (hu : u ∈ r.types) : u.parent ≠ some t.name ∧
      ∀ g ∈ u.fields, ∀ ref count, g.kind = .nested ref count → ref.name ≠ t.name := by
  obtain ⟨earlier, later, heq, hs⟩ := h.type hu
  -- what another type refers to has no open array
  have hclosed {v : TypeInfo} (hv : v ∈ earlier) (hn : v.name = t.name) : v.hasFlexible = true := by
    have hmem : v ∈ r.types := by
      rw [heq]
      exact List.mem_append_left _ hv
    rwa [h.eq_of_name ht hmem hn]
  constructor
  · intro hparent
    obtain ⟨p, hp, hn, -, hnone, -⟩ := hs.parent t.name hparent
    rw [hclosed hp hn] at hnone
    cases hnone
  · intro g hg ref count hkind hn
    have hsound := hs.fields g hg
    rw [hkind] at hsound
    cases hsound with
    | nested declared aggregate closed counted =>
      rw [hclosed declared hn] at closed
      cases closed

end Registry

namespace Declaration
open Reader Draft

variable {env : Env} {d₀ d : Draft} {s₀ s s' : State} {form : Form} {t : TypeInfo}

/-! ## Bodies -/

theorem opening_flexible {typedef : Bool} (h : opening form typedef env s = .ok d s') :
    d.flexible = none := by
  obtain ⟨⟨_, _, _, _, _, -, -, rfl⟩, -⟩ := opening_header h
  exact (Header.proper_of (P := fun _ => True) trivial (fun _ _ => trivial) (fun _ _ => trivial) _ _ _).flexible

theorem runs_tailed (h : Runs memberRound env d₀ s₀ d s) (hf : Fresh s₀.registry form d₀)
    (hform : form ≠ .enum) (hr : s₀.registry.Sound) (h₀ : d₀.flexible = none) : d.Tailed := by
  induction h with
  | start =>
    refine tailed_of_absent h₀ ?_
    intro x hx
    rw [hf.labels_eq] at hx
    cases hx
  | @next d d' s s' before round _ ih =>
    refine (memberRound_again round).tailed (runs_settled before hf.settled) ?_ ih
    intro hout
    by_contra hne
    rw [runs_inUnion before hf hform hr hne] at hout
    cases hout

theorem HasBody.tailed {d₁ : Draft} {s₁ s₂ : State} (h : HasBody env s₀ t d₀ s₁ d₁ s₂)
    (h₀ : s₀.registry = {}) : t.Tailed := by
  obtain ⟨hform, hf, hr⟩ := h.fresh h₀
  obtain ⟨d, s, hrun, hdone⟩ := members_ok h.body
  obtain ⟨-, rfl, -⟩ := memberRound_done hdone
  have hopen : d₀.flexible = none := by
    obtain ⟨_, _, _, _, -, -, opens⟩ := h.opens
    exact opening_flexible opens
  have hd := runs_tailed hrun hf hform hr hopen
  obtain ⟨name, hfinish⟩ := h.finish
  obtain ⟨-, rfl⟩ := finish_some hfinish
  constructor
  · intro hnone f hmem
    rw [Option.isSome_eq_false_iff, Option.isNone_iff_eq_none, (continues_flush _ d).flexible] at hnone
    exact (noTail_flush s.settings (hd.absent hnone)).isTail hmem
  · intro hsome
    dsimp only at hsome
    rw [(continues_flush _ d).flexible] at hsome
    obtain ⟨f, he⟩ := hd.present (Option.isSome_iff_ne_none.mp hsome)
    have hflush : d.flush s.settings = d := if_pos (by rw [he.run]; rfl)
    rw [hflush]
    obtain ⟨fs, hfields, hother⟩ := he.fields
    have hsize : d.size = d.cursor := by simp only [size, he.form]
    exact ⟨he.form, fs, f, hfields, hother, he.kind, he.bytes, by rw [he.offset, ← hsize]⟩

theorem read_tailed (env : Env) {s₀ : State} (h₀ : s₀.registry = {}) :
    ∀ t ∈ (read env s₀).1.registry.types, t.Tailed := by
  intro t ht
  obtain ⟨s, s', before, completes⟩ := exists_completes h₀ ht
  cases completes with
  | enum =>
    constructor
    · intro _ f hmem
      cases hmem
    · intro hsome
      cases hsome
  | aggregate enters opens body ends =>
    have hbody : HasBody env s₀ t _ _ _ _ :=
      ⟨⟨s, _, _, _, before, enters, opens⟩, body, ends.finish⟩
    exact hbody.tailed h₀

/-- A declared type says that it has an open array if and only if one of its own fields is one. It is
then a struct, the array is its only open one, is of bytes, takes none itself, and starts where the
struct ends; it comes last of all fields, inherited ones included, and no declared type extends the
struct or has a field of it. -/
theorem open_array_last (env : Env) (s₀ : State) (h₀ : s₀.registry = {}) (t : TypeInfo)
    (ht : t ∈ (read env s₀).1.registry.types) :
    (t.hasFlexible = true ↔ ∃ f ∈ t.fields, ∃ p, f.kind = .flexible p) ∧
      (t.hasFlexible = true →
        t.form = .struct ∧
        (∃ f, t.fields.filter Field.isTail = [f] ∧
          ((read env s₀).1.registry.allFields t).getLast? = some f ∧ f.bytes = 0 ∧
          f.offset = t.byteLength ∧ (f.kind = .flexible .int8 ∨ f.kind = .flexible .uint8)) ∧
        ∀ u ∈ (read env s₀).1.registry.types, u.parent ≠ some t.name ∧
          ∀ g ∈ u.fields, ∀ ref count, g.kind = .nested ref count → ref.name ≠ t.name) := by
  have htailed := read_tailed env h₀ t ht
  have hsound := (read_sound env h₀).2
  constructor
  · constructor
    · intro hflex
      obtain ⟨-, fs, f, hfields, -, hkind, -⟩ := htailed.present hflex
      refine ⟨f, by rw [hfields]; simp, ?_⟩
      rcases hkind with hkind | hkind
      · exact ⟨_, hkind⟩
      · exact ⟨_, hkind⟩
    · rintro ⟨f, hf, hkind⟩
      by_contra hnone
      have hnot := htailed.absent (Bool.eq_false_iff.mpr hnone) f hf
      rw [Field.isTail_iff.mpr hkind] at hnot
      cases hnot
  · intro hflex
    obtain ⟨hform, fs, f, hfields, hother, hkind, hbytes, hoffset⟩ := htailed.present hflex
    have htail : f.isTail = true := by
      rcases hkind with hkind | hkind <;> exact Field.isTail_iff.mpr ⟨_, hkind⟩
    refine ⟨hform, ⟨f, ?_, ?_, hbytes, hoffset, hkind⟩, fun u hu => hsound.outermost ht hflex hu⟩
    · have hnone : fs.filter Field.isTail = [] := by
        rw [List.filter_eq_nil_iff]
        intro g hg
        rw [hother g hg]
        decide
      rw [hfields, List.filter_append, hnone]
      simp [htail]
    · obtain ⟨inherited, hall⟩ := Registry.allFields_own (read env s₀).1.registry t
      rw [hall, hfields, ← List.append_assoc]
      exact List.getLast?_concat

/-- A struct that extends another and ends in an open array. -/
def tailTokens : List Token :=
  [⟨.identifier, "struct", "", 1, 1⟩, ⟨.identifier, "A", "", 1, 8⟩, ⟨.leftBrace, "\x7b", "", 1, 10⟩,
   ⟨.identifier, "Uint16", "", 1, 12⟩, ⟨.identifier, "a", "", 1, 19⟩, ⟨.semicolon, ";", "", 1, 20⟩,
   ⟨.rightBrace, "\x7d", "", 1, 22⟩, ⟨.semicolon, ";", "", 1, 23⟩,
   ⟨.identifier, "struct", "", 2, 1⟩, ⟨.identifier, "B", "", 2, 8⟩, ⟨.colon, ":", "", 2, 10⟩,
   ⟨.identifier, "A", "", 2, 12⟩, ⟨.leftBrace, "\x7b", "", 2, 14⟩,
   ⟨.identifier, "Boolean", "", 3, 1⟩, ⟨.identifier, "b", "", 3, 9⟩, ⟨.semicolon, ";", "", 3, 10⟩,
   ⟨.identifier, "Uint8", "", 4, 1⟩, ⟨.identifier, "c", "", 4, 7⟩, ⟨.leftBracket, "[", "", 4, 8⟩,
   ⟨.rightBracket, "]", "", 4, 9⟩, ⟨.semicolon, ";", "", 4, 10⟩,
   ⟨.rightBrace, "\x7d", "", 5, 1⟩, ⟨.semicolon, ";", "", 5, 2⟩, ⟨.eof, "", "", 6, 1⟩]

def tailStruct : TypeInfo :=
  { name := "B", form := .struct, byteLength := 3, alignment := 2, parent := some "A",
    fields :=
      [⟨"b", .bits ⟨1, 0, 1, true⟩, 2, 1, false, 3⟩,
       ⟨"c", .flexible .uint8, 3, 0, false, 4⟩],
    hasFlexible := true }

theorem open_array_last_extended :
    ∃ r : Registry, tailStruct ∈ r.types ∧ ∃ f, tailStruct.fields.filter Field.isTail = [f] ∧
      (r.allFields tailStruct).getLast? = some f ∧ f.offset = tailStruct.byteLength := by
  let env : Env := ⟨"__", fun _ => ""⟩
  have ht : tailStruct ∈ (read env { unread := tailTokens }).1.registry.types := by decide +kernel
  obtain ⟨-, ⟨f, honly, hlast, -, hoffset, -⟩, -⟩ :=
    (open_array_last env _ rfl tailStruct ht).2 rfl
  exact ⟨_, ht, f, honly, hlast, hoffset⟩

end Declaration
end RecordView
