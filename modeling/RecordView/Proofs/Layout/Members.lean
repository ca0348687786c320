import Mathlib.Data.List.Perm.Subperm
import RecordView.Proofs.Layout.BitPacking

/-! The members of a struct or union: their names differ, their kinds are those that statements
declare, and all alignments are powers of two. -/
namespace RecordView

/-- What of a field does not depend on its place. -/
def Field.label (f : Field) : String × FieldKind := (f.name, f.kind)

theorem labels_shift (fs : List Field) (n : Nat) :
    (fs.map (.shift n)).map Field.label = fs.map Field.label := by
  rw [List.map_map]
  rfl

variable {c : Content}

namespace Draft

variable {d d' : Draft} {u : Surroundings} {s : Settings} {p : Piece}

/-- The fields that are placed, and those that wait for the place of a union. -/
def labels (d : Draft) : List (String × FieldKind) := (d.fields ++ d.waiting).map Field.label

theorem labels_eq (d : Draft) :
    d.labels = d.fields.map Field.label ++ d.waiting.map Field.label := List.map_append

/-! ## Placing -/

theorem labels_store (d : Draft) (p : Piece) :
    (d.store p).labels.Perm (d.labels ++ p.fields.map Field.label) := by
  rw [labels_eq, labels_eq]
  rcases store_cases d p with ⟨-, hw, n, -, hf⟩ | ⟨-, hf, hw, -⟩
  · -- a piece that is placed at once comes before the fields that wait
    rw [hf, hw, List.map_append, labels_shift, List.append_assoc, List.append_assoc]
    exact List.perm_append_comm.append_left _
  · rw [hf, hw, List.map_append, List.append_assoc]

theorem labels_congr (h : d'.layout = d.layout) : d'.labels = d.labels := by
  simp only [layout, Prod.mk.injEq] at h
  rw [labels, labels, waiting, waiting, h.2.1, h.2.2.2]

theorem labels_wordFields (run : BitRun) (order : BitOrder) (offset : Nat) :
    (wordFields run order offset).map Field.label =
      (run.slices order).map fun x => (x.1, .bits x.2) := by
  simp [wordFields, BitRun.slices, Field.label]

theorem labels_flush (s : Settings) (d : Draft) :
    (d.flush s).labels.Perm (d.labels ++ (d.run.slices s.bitOrder).map fun x => (x.1, .bits x.2)) := by
  cases hr : d.run.isEmpty with
  | true =>
    rw [flush_of_isEmpty s hr, BitRun.eq_of_isEmpty hr]
    simp [BitRun.slices, BitRun.assign, BitRun.starts]
  | false =>
    rw [labels_congr (layout_flush s hr), ← labels_wordFields d.run s.bitOrder 0]
    exact labels_store d (wordPiece s d.run)

/-- What holds of all members and of the bit fields that get their word holds of all members then. -/
theorem forall_labels_flush {P : String × FieldKind → Prop} (s : Settings) (h : ∀ x ∈ d.labels, P x)
    (hword : ∀ y ∈ d.run.slices s.bitOrder, P (y.1, .bits y.2)) : ∀ x ∈ (d.flush s).labels, P x := by
  intro x hx
  rcases List.mem_append.mp ((labels_flush s d).mem_iff.mp hx) with hx | hx
  · exact h x hx
  · obtain ⟨y, hy, rfl⟩ := List.mem_map.mp hx
    exact hword y hy

theorem forall_labels_store {P : String × FieldKind → Prop} {g : Field} (hp : c.Fills u g p) (hg : P g.label)
    (h : ∀ x ∈ d.labels, P x) : ∀ x ∈ (d.store p).labels, P x := by
  intro x hx
  rcases List.mem_append.mp ((labels_store _ _).mem_iff.mp hx) with hx | hx
  · exact h x hx
  · rw [hp.fields] at hx
    obtain rfl := List.mem_singleton.mp hx
    exact hg

/-! ## Names -/

/-- The names of all members, with those of the bit fields that wait for a word. -/
def declared (d : Draft) : List String := d.labels.map (·.1) ++ d.run.pending.map (·.name)

theorem declared_flush (s : Settings) (d : Draft) : (d.flush s).declared.Perm d.declared := by
  have hnames : (d.run.slices s.bitOrder).map (·.1) = d.run.pending.map (·.name) := by
    have h := congrArg (List.map (·.1)) (d.run.slices_sizes s.bitOrder)
    rw [BitRun.sizes, List.map_map, List.map_map] at h
    exact h
  have hlabels := (labels_flush s d).map (·.1)
  rw [List.map_append, List.map_map] at hlabels
  have hword : ((·.1) ∘ fun x : String × BitSlice => (x.1, FieldKind.bits x.2)) = (·.1) := rfl
  rw [hword, hnames] at hlabels
  have hrun : (d.flush s).declared = (d.flush s).labels.map (·.1) := by
    rw [declared, run_flush]
    exact List.append_nil _
  rw [hrun]
  exact hlabels

theorem declared_store {g : Field} (hp : c.Fills u g p) (hrun : d.run = {}) :
    (d.store p).declared.Perm (d.declared ++ [g.name]) := by
  have hlabels := (labels_store d p).map (·.1)
  rw [hp.fields] at hlabels
  unfold declared
  rw [run_store, hrun]
  simpa [Field.label] using hlabels

theorem declared_addBits (s : Settings) (d : Draft) (p : PendingBits) :
    (d.addBits s p).declared.Perm (d.declared ++ [p.name]) := by
  have hroom : (d.room s p.bits).declared.Perm d.declared := by
    unfold room
    split
    · exact .refl _
    · exact declared_flush s d
  have hpend : ((d.room s p.bits).pend p).declared = (d.room s p.bits).declared ++ [p.name] := by
    have hl : ((d.room s p.bits).pend p).labels = (d.room s p.bits).labels := rfl
    rw [declared, declared, hl]
    simp [pend, BitRun.add]
  have hadded : ((d.room s p.bits).pend p).declared.Perm (d.declared ++ [p.name]) := by
    rw [hpend]
    exact hroom.append_right _
  unfold addBits
  dsimp only
  split
  · exact (declared_flush s _).trans hadded
  · exact hadded

theorem declared_put (f : FieldStatement) (hc : c.Admitted u) :
    (f.put u d c).declared.Perm (d.declared ++ [f.name.text]) := by
  let named : Draft := { d with names := d.names ++ [f.name.text] }
  refine put_cases (P := fun d' => d'.declared.Perm (named.declared ++ [f.name.text])) hc ?_ ?_
  · intro count boolean declaredBytes _
    exact declared_addBits u.settings named _
  · intro kind size p tail hp
    exact (declared_store hp (run_flush _ named)).trans ((declared_flush _ named).append_right _)

theorem labels_closeUnion (s : Settings) (hu : d.inUnion = true) (hrun : d.run.isEmpty = true) :
    (d.closeUnion s).1.labels.Sublist d.labels := by
  obtain ⟨hw, ⟨-, hf⟩ | ⟨n, hf⟩⟩ := closeUnion_cases s hu hrun
  · rw [labels_eq, labels_eq, hf, hw]
    exact (List.Sublist.refl _).append (List.nil_sublist _)
  · have heq : (d.closeUnion s).1.labels = d.labels := by
      rw [labels_eq, labels_eq, hf, hw, List.map_append, labels_shift]
      exact List.append_nil _
    rw [heq]

theorem labels_openUnion (s : Settings) (hd : d.inUnion = false) :
    (d.openUnion s).labels = (d.flush s).labels := by
  rw [labels, labels, members_openUnion s hd]

/-- A round that names a field takes a new name; no other round adds a member. -/
theorem Change.declared (h : Change u d d') (hs : d.Settled) :
    (d'.names = d.names ∧ d'.declared.Subperm d.declared) ∨
      ∃ n, n ∉ d.names ∧ d'.names = d.names ++ [n] ∧ d'.declared.Perm (d.declared ++ [n]) := by
  cases h with
  | same => exact .inl ⟨rfl, .refl _⟩
  | field f hc =>
    obtain ⟨-, hnew, hresolved⟩ := FieldStatement.resolve_eq_ok hc
    exact .inr ⟨f.name.text, hnew, (continues_put f u d _).names, declared_put f hresolved.admitted⟩
  | openUnion ho =>
    have hlabels := labels_openUnion u.settings ho
    have hdeclared : (d.openUnion u.settings).declared = (d.flush u.settings).declared := by
      rw [Draft.declared, Draft.declared, hlabels]
      rfl
    refine .inl ⟨(continues_flush u.settings d).names, ?_⟩
    rw [hdeclared]
    exact (declared_flush _ d).subperm
  | closeUnion hu =>
    have hu' := inUnion_of_anonymous hu
    have hnames : (d.closeUnion u.settings).1.names = d.names :=
      (continues_closeUnion u.settings d).names.trans (continues_flush u.settings d).names
    refine .inl ⟨hnames, List.Sublist.subperm ?_⟩
    rw [Draft.declared, Draft.declared, run_closeUnion, BitRun.eq_of_isEmpty (hs hu')]
    exact ((labels_closeUnion u.settings hu' (hs hu')).map _).append (List.Sublist.refl _)

/-- The members have names that differ from each other and from the inherited ones. -/
structure Named (inherited : List String) (d : Draft) : Prop where
  known : ∀ n ∈ inherited ++ d.declared, n ∈ d.names
  distinct : (inherited ++ d.declared).Nodup

theorem Named.subperm {inherited : List String} (h : d.Named inherited) (hnames : d'.names = d.names)
    (hd : d'.declared.Subperm d.declared) : d'.Named inherited := by
  have hsub : (inherited ++ d'.declared).Subperm (inherited ++ d.declared) :=
    (List.subperm_append_left inherited).mpr hd
  constructor
  · intro n hn
    rw [hnames]
    exact h.known n (hsub.subset hn)
  · obtain ⟨l, hperm, hl⟩ := hsub
    exact hperm.nodup_iff.mp (h.distinct.sublist hl)

theorem Change.named {inherited : List String} (h : Change u d d') (hs : d.Settled)
    (hd : d.Named inherited) : d'.Named inherited := by
  rcases h.declared hs with ⟨hnames, hsub⟩ | ⟨n, hnew, hnames, hperm⟩
  · exact hd.subperm hnames hsub
  · have hall : (inherited ++ d'.declared).Perm (inherited ++ d.declared ++ [n]) := by
      rw [List.append_assoc]
      exact hperm.append_left inherited
    constructor
    · intro m hm
      rw [hnames, List.mem_append]
      rcases List.mem_append.mp (hall.mem_iff.mp hm) with hm | hm
      · exact .inl (hd.known m hm)
      · exact .inr hm
    · rw [hall.nodup_iff, List.nodup_append]
      refine ⟨hd.distinct, by simp, fun m hm m' hm' heq => ?_⟩
      obtain rfl := List.mem_singleton.mp hm'
      exact hnew (heq ▸ hd.known m hm)

/-! ## Kinds -/

end Draft

/-- What a field can be, if these types are declared before it. -/
inductive FieldKind.Sound (ts : List TypeInfo) : FieldKind → Prop where
  | number (p : Primitive) {count : Option Nat} {enum : Option String} (counted : Counted count)
      (named : ∀ name, enum = some name →
        ∃ t ∈ ts, t.name = name ∧ t.form = .enum ∧ t.backing = some p) :
      Sound ts (.number p count enum)
  | text {count : Option Nat} (counted : Counted count) : Sound ts (.text count)
  | bits {b : BitSlice} (word : b.word ∈ [1, 2, 4]) (pos : 1 ≤ b.count)
      (inside : b.offset + b.count ≤ 8 * b.word)
      (assigned : ∃ (run : BitRun) (order : BitOrder), run.Bounded ∧ ∃ x ∈ run.assign order, 0 ≤ x.2 ∧
        b = ⟨x.1.bits, x.2.toNat, run.wordBytes, x.1.boolean⟩) : Sound ts (.bits b)
  | nested {t : TypeInfo} {count : Option Nat} (declared : t ∈ ts) (aggregate : t.isAggregate = true)
      (closed : t.hasFlexible = false) (counted : Counted count) : Sound ts (.nested t.ref count)
  | flexible {p : Primitive} (byte : p.bytes = 1) : Sound ts (.flexible p)

def Registry.Backed (r : Registry) : Prop := ∀ t ∈ r.types, t.form = .enum → t.backing ≠ none

theorem Content.Resolved.sound {u : Surroundings} {d : Draft} {kind : FieldKind} {size : Nat}
    (h : c.Resolved u d) (hkind : c.whole? = some (kind, size)) (hr : u.registry.Backed) :
    kind.Sound u.registry.types := by
  cases h with
  | bits => cases hkind
  | truth => cases hkind
  | declaredBits => cases hkind
  | number p counted named =>
    cases hkind
    refine .number p counted fun name hname => ?_
    obtain ⟨t, hfound, hform, hbacking⟩ := named name hname
    have hn : t.name = name := by simpa using List.find?_some hfound
    exact ⟨t, List.mem_of_find?_eq_some hfound, hn, hform, hbacking⟩
  | text counted =>
    cases hkind
    exact .text counted
  | @nested t _ found other closed counted =>
    cases hkind
    have ht := List.mem_of_find?_eq_some found
    refine .nested ht ?_ closed counted
    unfold TypeInfo.isAggregate
    rw [bne_iff_ne]
    exact fun hform => hr t ht hform (other hform)
  | tail byte =>
    cases hkind
    exact .flexible byte

theorem BitRun.sound_slice {r : BitRun} (h : r.Bounded) {order : BitOrder} {x : String × BitSlice}
    (hx : x ∈ r.slices order) (ts : List TypeInfo) : (FieldKind.bits x.2).Sound ts := by
  obtain ⟨p, hp, hcount, -, hword⟩ := mem_slices hx
  have hpos := (h.fields p hp).pos
  have hinside := (packed h).inside order x hx
  obtain ⟨y, hy, rfl⟩ := List.mem_map.mp hx
  refine .bits ?_ ?_ ?_ ⟨r, order, h, y, hy, assign_nonneg h hy, rfl⟩
  · rw [hword]
    exact (packed h).word.1.1
  · omega
  · rw [hword]
    exact hinside

namespace Draft

variable {d d' : Draft} {u : Surroundings} {s : Settings} {p : Piece} {ts : List TypeInfo}

/-- All members that are no bit fields are of a kind that a statement can declare. -/
def Plain (ts : List TypeInfo) (d : Draft) : Prop :=
  ∀ x ∈ d.labels, (∃ b, x.2 = .bits b) ∨ x.2.Sound ts

theorem plain_flush (s : Settings) (h : d.Plain ts) : (d.flush s).Plain ts :=
  forall_labels_flush s h fun y _ => .inl ⟨y.2, rfl⟩

theorem Change.plain (h : Change u d d') (hs : d.Settled) (hr : u.registry.Backed)
    (hd : d.Plain u.registry.types) : d'.Plain u.registry.types := by
  cases h with
  | same => exact hd
  | @field f c hc =>
    have hresolved := (FieldStatement.resolve_eq_ok hc).2.2
    refine put_induction hresolved.admitted hd (fun _ => plain_flush _) (fun _ _ _ _ h => h) ?_
      fun _ _ h => h
    intro d' g p hp h
    exact forall_labels_store hp (.inr (hresolved.sound hp.content hr)) h
  | openUnion ho =>
    intro x hx
    rw [labels_openUnion u.settings ho] at hx
    exact plain_flush u.settings hd x hx
  | closeUnion hu =>
    have hu' := inUnion_of_anonymous hu
    intro x hx
    exact hd x ((labels_closeUnion u.settings hu' (hs hu')).subset hx)

/-! ## Alignments -/

end Draft

theorem max_mem {a b : Nat} (ha : a ∈ [1, 2, 4, 8]) (hb : b ∈ [1, 2, 4, 8]) :
    max a b ∈ [1, 2, 4, 8] := by
  rcases Nat.le_total a b with h | h
  · rwa [Nat.max_eq_right h]
  · rwa [Nat.max_eq_left h]

theorem min_pack_mem {n : Nat} (p : Pack) (h : n ∈ [1, 2, 4, 8]) :
    min p.bytes n ∈ [1, 2, 4, 8] := by
  simp only [List.mem_cons, List.not_mem_nil, or_false] at h
  rcases h with rfl | rfl | rfl | rfl <;> cases p <;> decide

theorem primitive_bytes_mem (p : Primitive) : p.bytes ∈ [1, 2, 4, 8] := by
  cases p <;> decide

def Registry.Regular (r : Registry) : Prop := ∀ t ∈ r.types, t.alignment ∈ [1, 2, 4, 8]

theorem NaturalAlignment.mem {r : Registry} {kind : FieldKind} {n : Nat}
    (h : NaturalAlignment r kind n) (hr : r.Regular) (whole : ∀ b, kind ≠ .bits b) :
    n ∈ [1, 2, 4, 8] := by
  cases h with
  | number p => exact primitive_bytes_mem p
  | text => decide
  | bits b => exact absurd rfl (whole b)
  | nested _ h => exact hr _ (List.mem_of_find?_eq_some h)
  | flexible => decide

theorem Content.Fills.alignment_mem {u : Surroundings} {f : Field} {p : Piece} (h : c.Fills u f p)
    (hr : u.registry.Regular) : p.alignment ∈ [1, 2, 4, 8] :=
  min_pack_mem p.pack (h.natural.mem hr h.whole)

namespace Draft

variable {d d' : Draft} {u : Surroundings} {s : Settings} {p : Piece}

theorem alignment_wordPiece_mem {run : BitRun} (s : Settings)
    (h : ∀ p ∈ run.pending, p.declaredBytes ∈ [0, 1, 2, 4]) :
    (wordPiece s run).alignment ∈ [1, 2, 4, 8] := by
  have hword : run.wordBytes ∈ [1, 2, 4, 8] := by
    have h4 := BitRun.wordBytes_mem h
    simp only [List.mem_cons, List.not_mem_nil, or_false] at h4 ⊢
    omega
  exact min_pack_mem s.pack hword

/-- All alignments of a draft are powers of two, and so are the sizes of the declared types of bit
fields that wait. -/
structure Regular (d : Draft) : Prop where
  own : d.alignment ∈ [1, 2, 4, 8]
  shared : ∀ o, d.overlap = some o → o.alignment ∈ [1, 2, 4, 8]
  waits : ∀ p ∈ d.run.pending, p.declaredBytes ∈ [0, 1, 2, 4]

theorem regular_store (hp : p.alignment ∈ [1, 2, 4, 8]) (h : d.Regular) : (d.store p).Regular := by
  cases ho : d.overlap with
  | none =>
    rw [store_outside ho]
    refine ⟨max_mem h.own hp, fun o ho' => ?_, h.waits⟩
    rw [ho] at ho'
    cases ho'
  | some o =>
    obtain ⟨fs, ho'⟩ := overlap_store ho p
    refine ⟨alignment_store ho p ▸ h.own, fun o' ho'' => ?_, run_store d p ▸ h.waits⟩
    rw [ho'] at ho''
    cases ho''
    exact max_mem (h.shared o ho) hp

theorem regular_flush (s : Settings) (h : d.Regular) : (d.flush s).Regular := by
  cases hr : d.run.isEmpty with
  | true =>
    rw [flush_of_isEmpty s hr]
    exact h
  | false =>
    have hstore : (d.store (wordPiece s d.run)).Regular :=
      regular_store (alignment_wordPiece_mem s h.waits) h
    rw [flush_eq s hr]
    exact ⟨hstore.own, hstore.shared, fun p hp => by cases hp⟩

theorem Change.regular (h : Change u d d') (hs : d.Settled) (hr : u.registry.Regular)
    (hd : d.Regular) : d'.Regular := by
  cases h with
  | same => exact hd
  | @field f c hc =>
    refine put_induction (FieldStatement.resolve_ok hc) ⟨hd.own, hd.shared, hd.waits⟩
      (fun _ => regular_flush _) ?_ ?_ fun _ _ h => ⟨h.own, h.shared, h.waits⟩
    · intro d' p hp _ h
      exact ⟨h.own, h.shared, forall_pending_pend h.waits hp.declared⟩
    · intro d' g p hp h
      exact regular_store (hp.alignment_mem hr) h
  | openUnion ho =>
    have hflush := regular_flush u.settings hd
    refine ⟨hflush.own, fun o ho' => ?_, hflush.waits⟩
    cases ho'
    decide
  | closeUnion hu =>
    have hu' := inUnion_of_anonymous hu
    have hrun := hs hu'
    obtain ⟨o, ho⟩ := Option.isSome_iff_exists.mp hu'
    by_cases hz : o.width = 0
    · rw [closeUnion_empty _ hrun ho hz]
      exact ⟨hd.own, nofun, hd.waits⟩
    · rw [closeUnion_filled _ hrun ho hz]
      exact ⟨max_mem hd.own (hd.shared o ho), nofun, hd.waits⟩

theorem Regular.full (h : d.Regular) : d.fullAlignment ∈ [1, 2, 4, 8] := by
  unfold fullAlignment
  split
  · rename_i o _ ho
    exact max_mem h.own (h.shared o ho)
  · exact h.own

end Draft

namespace Declaration
open Reader Draft

variable {env : Env} {d₀ d : Draft} {s₀ s : State} {form : Form} {r : Registry}

/-! ## Bodies -/

theorem Fresh.labels_eq (h : Fresh r form d₀) : d₀.labels = [] := by
  rw [labels, fields, h.steps_eq, h.waiting_eq]
  rfl

theorem runs_named (h : Runs memberRound env d₀ s₀ d s) (hf : Fresh r form d₀)
    (hd : d₀.names.Nodup) : d.Named d₀.names := by
  induction h with
  | start =>
    have hnone : d₀.declared = [] := by
      rw [Draft.declared, hf.labels_eq, hf.run_eq]
      rfl
    constructor
    · intro n hn
      rwa [hnone, List.append_nil] at hn
    · rwa [hnone, List.append_nil]
  | next before round _ ih =>
    exact (memberRound_again round).named (runs_settled before hf.settled) ih

theorem runs_plain (h : Runs memberRound env d₀ s₀ d s) (hf : Fresh s₀.registry form d₀)
    (hr : s₀.registry.Backed) : d.Plain s₀.registry.types := by
  induction h with
  | start =>
    intro x hx
    rw [hf.labels_eq] at hx
    cases hx
  | @next d d' s s' before round _ ih =>
    have heq : (s.surroundings env).registry = s₀.registry := runs_registry before
    rw [← heq] at ih hr ⊢
    exact (memberRound_again round).plain (runs_settled before hf.settled) hr ih

theorem runs_slices (h : Runs memberRound env d₀ s₀ d s) (hf : Fresh r form d₀) :
    ∀ x ∈ d.slices, ∃ (run : BitRun) (order : BitOrder), run.Bounded ∧ x ∈ run.slices order := by
  induction h with
  | start =>
    intro x hx
    rw [slices, fields, hf.steps_eq, hf.waiting_eq] at hx
    cases hx
  | @next d d' s s' before round _ ih =>
    obtain ⟨ho, hb⟩ := runs_packable before hf
    obtain ⟨⟨placed, hpacks, hslices⟩, -⟩ :=
      (memberRound_again round).packing ho (runs_settled before hf.settled)
    intro x hx
    rw [hslices, List.mem_append] at hx
    rcases hx with hx | hx
    · exact ih x hx
    · obtain ⟨run, hrun, hx⟩ := List.mem_flatMap.mp hx
      exact ⟨run, _, (hpacks.bounded hb).2 run hrun, hx⟩

theorem Fresh.regular (hf : Fresh r form d₀) (hr : r.Regular) : d₀.Regular := by
  refine ⟨?_, ?_, ?_⟩
  · rcases hf.start with ⟨-, -, -, ha⟩ | ⟨p, hp, -, -, ha, -⟩
    · rw [ha]
      decide
    · rw [ha]
      exact hr p (List.mem_of_find?_eq_some hp)
  · intro o ho
    rw [hf.overlap_eq] at ho
    split at ho
    · cases ho
      decide
    · cases ho
  · rw [hf.run_eq]
    exact fun p hp => by cases hp

theorem runs_regular (h : Runs memberRound env d₀ s₀ d s) (hf : Fresh s₀.registry form d₀)
    (hr : s₀.registry.Regular) : d.Regular := by
  induction h with
  | start => exact hf.regular hr
  | @next d d' s s' before round _ ih =>
    have heq : (s.surroundings env).registry = s₀.registry := runs_registry before
    rw [← heq] at hr
    exact (memberRound_again round).regular (runs_settled before hf.settled) hr ih

end Declaration
end RecordView
