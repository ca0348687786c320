import RecordView.Proofs.Layout.Alignment

/-! Fields of declared types, inherited and nested ones included, and where they stand. -/
namespace RecordView

/-- A field stands at byte `n` of a type: it is its own field, or that of a type that it extends or
holds. The list has the types that are passed, from the first to the one that declares the field. -/
inductive Path (r : Registry) : TypeInfo → Nat → Field → List TypeInfo → Prop where
  | own {t : TypeInfo} {f : Field} (member : f ∈ t.fields) : Path r t f.offset f [t]
  | inherited {t p : TypeInfo} {n : Nat} {f : Field} {us : List TypeInfo}
      (parent : t.parent.bind r.find? = some p) (rest : Path r p n f us) : Path r t n f (t :: us)
  | nested {t u : TypeInfo} {g f : Field} {ref : TypeRef} {count : Option Nat} {i n : Nat}
      {us : List TypeInfo} (member : g ∈ t.fields) (kind : g.kind = .nested ref count)
      (found : r.find? ref.name = some u) (index : i < count.getD 1) (rest : Path r u n f us) :
      Path r t (g.offset + i * ref.alignedLength + n) f (t :: us)

/-- The numbers of a field: a number, or an element of an array, or the word of a bit field, so many
bytes from the start of the field and of so many bytes. -/
inductive FieldKind.Leaf : FieldKind → Nat → Nat → Prop where
  | number {p : Primitive} {count : Option Nat} {enum : Option String} {i : Nat}
      (index : i < count.getD 1) : Leaf (.number p count enum) (i * p.bytes) p.bytes
  | bits {b : BitSlice} : Leaf (.bits b) 0 b.word
  | flexible {p : Primitive} {i : Nat} : Leaf (.flexible p) (i * p.bytes) p.bytes

structure TypeInfo.Fits (r : Registry) (q : Nat) (t : TypeInfo) : Prop where
  fields : ∀ f ∈ t.fields, f.Fits r q t.alignment
  parent : ∀ name, t.parent = some name →
    ∃ p, r.find? name = some p ∧ (q ∣ p.alignment → q ∣ t.alignment)

section Path

variable {r : Registry} {t : TypeInfo} {n q : Nat} {f : Field} {us : List TypeInfo}

theorem Path.types (h : Path r t n f us) (ht : t ∈ r.types) : ∀ u ∈ us, u ∈ r.types := by
  induction h with
  | own =>
    intro u hu
    obtain rfl := List.mem_singleton.mp hu
    exact ht
  | inherited parent rest ih =>
    obtain ⟨name, -, hfound⟩ := Option.bind_eq_some_iff.mp parent
    exact List.forall_mem_cons.mpr ⟨ht, ih (List.mem_of_find?_eq_some hfound)⟩
  | nested member kind found index rest ih =>
    exact List.forall_mem_cons.mpr ⟨ht, ih (List.mem_of_find?_eq_some found)⟩

theorem Path.declarer (h : Path r t n f us) : ∃ u ∈ us, f ∈ u.fields := by
  induction h with
  | own member => exact ⟨_, List.mem_singleton_self _, member⟩
  | inherited _ _ ih =>
    obtain ⟨u, hu, hf⟩ := ih
    exact ⟨u, List.mem_cons_of_mem _ hu, hf⟩
  | nested _ _ _ _ _ ih =>
    obtain ⟨u, hu, hf⟩ := ih
    exact ⟨u, List.mem_cons_of_mem _ hu, hf⟩

/-- The elements of an array of structs are a multiple of their alignment apart. -/
theorem stride_dvd (hr : r.Sound) (ht : t ∈ r.types) {g : Field} (hg : g ∈ t.fields) {ref : TypeRef}
    {count : Option Nat} (kind : g.kind = .nested ref count) {u : TypeInfo}
    (found : r.find? ref.name = some u) : u.alignment ∣ ref.alignedLength := by
  obtain ⟨earlier, later, heq, hs⟩ := hr.type ht
  have hsound := hs.fields g hg
  rw [kind] at hsound
  cases hsound with
  | @nested v _ declared aggregate closed counted =>
    have hv : v ∈ r.types := by
      rw [heq]
      exact List.mem_append_left _ declared
    have hfound := Registry.find?_of_mem hr.distinct hv
    obtain rfl : v = u := Option.some.inj (hfound.symm.trans found)
    obtain ⟨_, _, -, hv'⟩ := hr.type hv
    exact hv'.aligned.1.2

/-- What is held in a type that fits is as aligned in it as it is by itself. -/
theorem TypeInfo.Fits.held (hfits : t.Fits r q) (hr : r.Sound) (ht : t ∈ r.types) {g : Field}
    (hg : g ∈ t.fields) {ref : TypeRef} {count : Option Nat} (kind : g.kind = .nested ref count)
    {u : TypeInfo} (found : r.find? ref.name = some u) (hu : q ∣ u.alignment) (i : Nat) :
    q ∣ g.offset + i * ref.alignedLength ∧ q ∣ t.alignment := by
  obtain ⟨b, hb, himp⟩ := hfits.fields g hg
  have hnatural : NaturalAlignment r g.kind u.alignment := by
    rw [kind]
    exact .nested count found
  rw [hb.unique hnatural] at himp
  obtain ⟨hoffset, htotal⟩ := himp hu
  have hstride : q ∣ ref.alignedLength := Nat.dvd_trans hu (stride_dvd hr ht hg kind found)
  have helement : q ∣ i * ref.alignedLength := Nat.dvd_trans hstride (Nat.dvd_mul_left _ _)
  exact ⟨Nat.dvd_add hoffset helement, htotal⟩

/-- Along a path through types that fit, what is naturally aligned is aligned in the whole. -/
theorem Path.fits (h : Path r t n f us) (hr : r.Sound) (ht : t ∈ r.types)
    (hus : ∀ u ∈ us, u.Fits r q) {a : Nat} (ha : NaturalAlignment r f.kind a) (hq : q ∣ a) :
    q ∣ n ∧ q ∣ t.alignment := by
  induction h with
  | own member =>
    obtain ⟨b, hb, hfits⟩ := (hus _ (List.mem_singleton_self _)).fields _ member
    rw [ha.unique hb] at hq
    exact hfits hq
  | inherited parent rest ih =>
    obtain ⟨htop, hrest⟩ := List.forall_mem_cons.mp hus
    obtain ⟨name, hname, hfound⟩ := Option.bind_eq_some_iff.mp parent
    obtain ⟨hn, hp⟩ := ih (List.mem_of_find?_eq_some hfound) hrest ha
    obtain ⟨p, hfound', himp⟩ := htop.parent name hname
    rw [hfound] at hfound'
    cases hfound'
    exact ⟨hn, himp hp⟩
  | @nested t u g f ref count i n us member kind found index rest ih =>
    obtain ⟨htop, hrest⟩ := List.forall_mem_cons.mp hus
    obtain ⟨hn, hu⟩ := ih (List.mem_of_find?_eq_some found) hrest ha
    obtain ⟨helement, htotal⟩ := htop.held hr ht member kind found hu i
    exact ⟨Nat.dvd_add helement hn, htotal⟩

end Path

namespace Declaration
open Reader Draft

variable {env : Env} {d₀ d : Draft} {s₀ s : State} {form : Form} {r : Registry} {t : TypeInfo} {q : Nat}

/-! ## Bodies under a packing -/

/-- All that is declared in a body is declared under such a packing. -/
def BodyUnder (env : Env) (P : Pack → Prop) (d₀ : Draft) (s₀ : State) : Prop :=
  ∀ d s, Runs memberRound env d₀ s₀ d s → Acts env d s → P s.settings.pack

/-- A body that is opened and closed in the reading from `s₀`, and all of which is declared under such
a packing, declares the type. -/
def DeclaredUnder (env : Env) (s₀ : State) (P : Pack → Prop) (t : TypeInfo) : Prop :=
  ∃ d₀ s₁, Opens env s₀ d₀ s₁ ∧ Closes env d₀ s₁ t ∧ BodyUnder env P d₀ s₁

/-- Whether a body has fewer rounds than `n`, and all of them are read under such a packing. -/
def bodyUnder? (env : Env) (P : Pack → Prop) [DecidablePred P] (n : Nat) (d₀ : Draft) (s₀ : State) :
    Bool :=
  allRounds? memberRound env n d₀ s₀ fun _ s => P s.settings.pack

theorem bodyUnder_of_bodyUnder? {P : Pack → Prop} [DecidablePred P] {n : Nat}
    (h : bodyUnder? env P n d₀ s₀ = true) : BodyUnder env P d₀ s₀ :=
  fun _ _ hrun _ => of_decide_eq_true (hrun.of_allRounds? h)

theorem runs_fitted (h : Runs memberRound env d₀ s₀ d s) (hf : Fresh s₀.registry form d₀)
    (hform : form ≠ .enum) (hr : s₀.registry.Regular) (hq : q ∈ [1, 2, 4, 8])
    (hb : BodyUnder env (q ≤ ·.bytes) d₀ s₀) : d.Fitted s₀.registry q := by
  induction h with
  | start =>
    refine ⟨?_, hf.regular hr, ?_, ?_⟩
    · rw [hf.form_eq]
      exact hform
    · rw [fields, hf.steps_eq]
      exact List.forall_mem_nil _
    · rw [hf.waiting_eq]
      exact List.forall_mem_nil _
  | @next d d' s s' before round _ ih =>
    have heq : (s.surroundings env).registry = s₀.registry := runs_registry before
    have hpack (hne : d' ≠ d) : q ∣ s.settings.pack.bytes :=
      dvd_pack _ hq (hb d s before (.inl ⟨d', s', round, hne⟩))
    rw [← heq] at ih hr ⊢
    exact (memberRound_again round).fitted ih (runs_settled before hf.settled) hr hpack

theorem closes_fits (hf : Fresh s₀.registry form d₀) (hform : form ≠ .enum)
    (hr : s₀.registry.Regular) (hq : q ∈ [1, 2, 4, 8]) (hb : BodyUnder env (q ≤ ·.bytes) d₀ s₀)
    (hc : Closes env d₀ s₀ t) : t.Fits s₀.registry q := by
  obtain ⟨d, s, d', s', name, hrun, hdone, ht⟩ := hc
  have hpack : q ∣ s.settings.pack.bytes :=
    dvd_pack _ hq (hb d s hrun (.inr ⟨d', s', hdone⟩))
  obtain ⟨-, rfl, hs'⟩ := memberRound_done hdone
  have hsettings : s'.settings = s.settings := congrArg Prod.fst hs'
  have hfitted := fitted_flush (runs_fitted hrun hf hform hr hq hb) hpack
  have hfollows := (runs_follows hrun).trans (follows_flush s.settings d)
  obtain ⟨-, -, halign, hparent, hfields⟩ := finish_eq ht
  have hlimit (h : q ∣ (d.flush s.settings).fullAlignment) : q ∣ t.alignment := by
    rw [halign, hsettings]
    exact dvd_min hpack h
  constructor
  · intro f hmem
    rw [hfields] at hmem
    exact (hfitted.placed f hmem).imp hlimit
  · intro parent hname
    rw [hparent, hfollows.parent] at hname
    rcases hf.start with ⟨hnone, -⟩ | ⟨p, hp, hd, -, ha, -⟩
    · rw [hnone] at hname
      cases hname
    · rw [hd] at hname
      cases hname
      refine ⟨p, hp, fun hq => hlimit (Nat.dvd_trans hq ?_)⟩
      refine dvd_of_le (hr p (List.mem_of_find?_eq_some hp)) hfitted.regular.full ?_
      calc p.alignment = d₀.alignment := ha.symm
        _ ≤ (d.flush s.settings).alignment := hfollows.alignment
        _ ≤ (d.flush s.settings).fullAlignment := alignment_le_full _

/-! ## The whole description -/

theorem TypeInfo.Fits.append (h : t.Fits r q) (ts : List TypeInfo) :
    t.Fits ⟨r.types ++ ts⟩ q := by
  constructor
  · intro f hf
    obtain ⟨a, ha, himp⟩ := h.fields f hf
    exact ⟨a, NaturalAlignment.append ha ts, himp⟩
  · intro name hname
    obtain ⟨p, hp, himp⟩ := h.parent name hname
    exact ⟨p, find?_append hp ts, himp⟩

theorem DeclaredUnder.fits (h : DeclaredUnder env s₀ (q ≤ ·.bytes) t) (h₀ : s₀.registry = {})
    (hq : q ∈ [1, 2, 4, 8]) : t.Fits (read env s₀).1.registry q := by
  obtain ⟨d₀, s₁, ⟨s, s₂, form, typedef, hrun, henters, hopen⟩, hcloses, hb⟩ := h
  obtain ⟨hf, hreg⟩ := henters.fresh hopen
  have hr : s₁.registry.Regular := by
    rw [hreg]
    exact ((read_sound env h₀).1 s hrun).regular
  rw [← hreg] at hf
  have hfits := closes_fits hf henters.form_ne hr hq hb hcloses
  obtain ⟨ts, hts⟩ := registry_mono hrun
  rw [hreg] at hfits
  have hall := TypeInfo.Fits.append hfits ts
  rw [← hts] at hall
  exact hall

/-- Every declared type is an enum, or a body declares it. -/
theorem read_origin (env : Env) {s₀ : State} (h₀ : s₀.registry = {}) :
    ∀ t ∈ (read env s₀).1.registry.types, (t.fields = [] ∧ t.parent = none) ∨
      ∃ d₀ s₁, Opens env s₀ d₀ s₁ ∧ Closes env d₀ s₁ t := by
  intro t ht
  obtain ⟨s, s', hrun, hcompletes⟩ := exists_completes h₀ ht
  cases hcompletes.declares with
  | enum => exact .inl ⟨rfl, rfl⟩
  | aggregate enters opens closes => exact .inr ⟨_, _, ⟨s, _, _, _, hrun, enters, opens⟩, closes⟩

/-- Every number of a declared type is aligned in the whole, if all is declared under one packing: it
stands at a multiple of its size, limited by the packing, and so does the whole. -/
theorem aligned_throughout (env : Env) (s₀ : State) (h₀ : s₀.registry = {}) (p : Pack)
    (hp : ∀ d₀ s₁, Opens env s₀ d₀ s₁ → BodyUnder env (· = p) d₀ s₁) (t : TypeInfo)
    (ht : t ∈ (read env s₀).1.registry.types) (n : Nat) (f : Field) (us : List TypeInfo)
    (path : Path (read env s₀).1.registry t n f us) (i w : Nat) (leaf : f.kind.Leaf i w) :
    min p.bytes w ∣ n + i ∧ min p.bytes w ∣ t.alignment := by
  have hr := (read_sound env h₀).2
  have hfits (q : Nat) (hq : q ∈ [1, 2, 4, 8]) (hle : q ≤ p.bytes) :
      ∀ u ∈ us, u.Fits (read env s₀).1.registry q := by
    intro u hu
    rcases read_origin env h₀ u (path.types ht u hu) with ⟨hfields, hparent⟩ | ⟨d₀, s₁, ho, hc⟩
    · refine ⟨by rw [hfields]; nofun, by rw [hparent]; nofun⟩
    · refine DeclaredUnder.fits ⟨d₀, s₁, ho, hc, fun d s hrun hacts => ?_⟩ h₀ hq
      rw [hp d₀ s₁ ho d s hrun hacts]
      exact hle
  -- a number of `w` bytes in a field that is naturally aligned to `w`
  have hall (hw : w ∈ [1, 2, 4, 8]) (hn : NaturalAlignment (read env s₀).1.registry f.kind w)
      (hi : w ∣ i) : min p.bytes w ∣ n + i ∧ min p.bytes w ∣ t.alignment := by
    have hq := min_pack_mem p hw
    have hdvd : min p.bytes w ∣ w := dvd_of_le hq hw (Nat.min_le_right _ _)
    obtain ⟨hoffset, halign⟩ := path.fits hr ht (hfits _ hq (Nat.min_le_left _ _)) hn hdvd
    exact ⟨Nat.dvd_add hoffset (Nat.dvd_trans hdvd hi), halign⟩
  obtain ⟨u, hu, hmember⟩ := path.declarer
  obtain ⟨earlier, later, -, hsound⟩ := hr.type (path.types ht u hu)
  have hkind := hsound.fields f hmember
  generalize f.kind = kind at leaf hall hkind
  cases leaf with
  | number => exact hall (primitive_bytes_mem _) (.number _ _ _) (Nat.dvd_mul_left _ _)
  | bits =>
    cases hkind with
    | bits word pos inside assigned =>
      refine hall ?_ (.bits _) (Nat.dvd_zero _)
      simp only [List.mem_cons, List.not_mem_nil, or_false] at word ⊢
      omega
  | @flexible e j =>
    cases hkind with
    | flexible byte =>
      rw [byte] at hall ⊢
      exact hall (by decide) (.flexible e) (Nat.one_dvd _)

/-- A number of the struct that another one holds and extends. -/
theorem aligned_throughout_heir :
    ∃ env a b f, Path (read env { unread := heirTokens }).1.registry b 4 f [b, a] ∧
      b.byteLength = 6 ∧ f.kind.Leaf 0 2 ∧ min Pack.sixteen.bytes 2 ∣ 4 + 0 ∧
      min Pack.sixteen.bytes 2 ∣ b.alignment := by
  let env : Env := ⟨"__", fun _ => ""⟩
  let s₀ : State := { unread := heirTokens }
  let r := (read env s₀).1.registry
  have hp (d₀ : Draft) (s₁ : State) (ho : Opens env s₀ d₀ s₁) :
      BodyUnder env (· = .sixteen) d₀ s₁ := by
    have hall : allBodies? env 4 s₀ (bodyUnder? env (· = .sixteen) 3) = true := by decide +kernel
    exact bodyUnder_of_bodyUnder? (ho.of_allBodies? hall)
  have htypes : ∃ b ∈ r.types, b.byteLength = 6 ∧ ∃ g ∈ b.fields, g.offset = 4 ∧
      ∃ a ∈ r.find? "A", g.kind = .nested a.ref none ∧
        ∃ f ∈ a.fields, f.offset = 0 ∧ f.kind = .number .uint16 none none := by decide +kernel
  obtain ⟨b, hb, hbytes, g, hg, hplace, a, ha, hkind, f, hf, hoffset, hnumber⟩ := htypes
  have hname : a.name = "A" := by simpa using List.find?_some (Option.mem_def.mp ha)
  have hfound : r.find? a.ref.name = some a := by
    rw [TypeInfo.ref, hname]
    exact ha
  have hpath : Path r b 4 f [b, a] := by
    have h : Path r b (g.offset + 0 * a.ref.alignedLength + f.offset) f [b, a] :=
      .nested hg hkind hfound Nat.one_pos (.own hf)
    rwa [hplace, hoffset, Nat.zero_mul] at h
  have hleaf : f.kind.Leaf 0 2 := by
    rw [hnumber]
    exact .number (i := 0) Nat.one_pos
  refine ⟨env, a, b, f, hpath, hbytes, hleaf, ?_⟩
  exact aligned_throughout env s₀ rfl .sixteen hp b hb 4 f [b, a] hpath 0 2 hleaf

end Declaration
end RecordView
