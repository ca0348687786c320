import RecordView.Proofs.Layout.Alignment
import RecordView.Proofs.Layout.Statements

/-! Unions, named and anonymous: all members start at one byte, the size is that of the largest, and
what comes later starts after all of them. -/
namespace RecordView

/-- The lowest bit of a field that is the first in its word. -/
def BitSlice.first (order : BitOrder) (b : BitSlice) : Nat :=
  match order with
  | .lsb => 0
  | .msb => 8 * b.word - b.count

/-- A member of a union as a statement declares it: one field, which has the word for itself if it
is a bit field. -/
structure Piece.Member (r : Registry) (u : Settings) (p : Piece) : Prop where
  sound : p.Sound r
  pack : p.pack = u.pack
  sized : p.bytes ≠ 0
  regular : p.alignment ∈ [1, 2, 4, 8]
  alone : ∃ f, p.fields = [f] ∧ ∀ b, f.kind = .bits b → b.offset = b.first u.bitOrder

theorem maxAlignment_append (ps : List Piece) (p : Piece) :
    StorageUnit.maxAlignment (ps ++ [p]) = max (StorageUnit.maxAlignment ps) p.alignment := by
  simp [StorageUnit.maxAlignment]

theorem maxBytes_append (ps : List Piece) (p : Piece) :
    StorageUnit.maxBytes (ps ++ [p]) = max (StorageUnit.maxBytes ps) p.bytes := by
  simp [StorageUnit.maxBytes]

theorem max?_alignments (ps : List Piece) :
    (1 :: ps.map (·.alignment)).max? = some (StorageUnit.maxAlignment ps) := List.max?_cons'

variable {ps : List Piece} {d₁ : Draft} {s₁ s₂ : State}

theorem maxAlignment_mem (h : ∀ p ∈ ps, p.alignment ∈ [1, 2, 4, 8]) :
    StorageUnit.maxAlignment ps ∈ [1, 2, 4, 8] := by
  rcases List.mem_cons.mp (List.max?_mem (max?_alignments ps)) with hone | hmem
  · rw [hone]
    decide
  · obtain ⟨p, hp, heq⟩ := List.mem_map.mp hmem
    rw [← heq]
    exact h p hp

theorem le_maxAlignment {p : Piece} (h : p ∈ ps) : p.alignment ≤ StorageUnit.maxAlignment ps := by
  have hle := (List.max?_le_iff (max?_alignments ps)).mp (Nat.le_refl _)
  exact hle _ (List.mem_cons_of_mem _ (List.mem_map_of_mem h))

/-- The alignment of each member divides that of the union. -/
theorem alignment_dvd_max (h : ∀ p ∈ ps, p.alignment ∈ [1, 2, 4, 8]) {p : Piece} (hp : p ∈ ps) :
    p.alignment ∣ StorageUnit.maxAlignment ps :=
  dvd_of_le (h p hp) (maxAlignment_mem h) (le_maxAlignment hp)

namespace Draft

variable {d d' : Draft} {u : Surroundings} {s : Settings} {p : Piece} {ps : List Piece}

/-! ## Members of a union -/

/-- The members of the union that is open: those of a named union have their place already. -/
def sharing (d : Draft) : List Field := if d.form = .struct then d.waiting else d.fields

structure Shares (d : Draft) (ps : List Piece) : Prop where
  members : d.sharing = ps.flatMap (·.fields)
  overlap : ∃ fs, d.overlap = some ⟨StorageUnit.maxBytes ps, StorageUnit.maxAlignment ps, fs⟩

theorem sharing_congr (h : d'.layout = d.layout) : d'.sharing = d.sharing := by
  simp only [layout, Prod.mk.injEq] at h
  obtain ⟨hform, hfields, -, hoverlap⟩ := h
  rw [sharing, sharing, hform, hfields, waiting, waiting, hoverlap]

theorem Shares.congr (hd : d.Shares ps) (h : d'.layout = d.layout) : d'.Shares ps := by
  refine ⟨(sharing_congr h).trans hd.members, ?_⟩
  simp only [layout, Prod.mk.injEq] at h
  rw [h.2.2.2]
  exact hd.overlap

theorem sharing_store {o : Overlap} (ho : d.overlap = some o) (p : Piece) :
    (d.store p).sharing = d.sharing ++ p.fields := by
  by_cases hform : d.form = .struct
  · rw [store_inside ho hform]
    simp only [sharing, if_pos hform, waiting, ho, Option.getD_some]
  · rw [store_named ho hform]
    simp only [sharing, if_neg hform]
    exact fields_append d p.fields

theorem Shares.store (h : d.Shares ps) (p : Piece) : (d.store p).Shares (ps ++ [p]) := by
  obtain ⟨fs, ho⟩ := h.overlap
  constructor
  · rw [sharing_store ho, h.members]
    simp
  · rw [maxBytes_append, maxAlignment_append]
    exact overlap_store ho p

/-- One more member of the union that is open. -/
structure Joins (d : Draft) (p : Piece) (d' : Draft) : Prop where
  members : d'.sharing = d.sharing ++ p.fields
  alignment : d'.alignment = d.alignment
  shares : ∀ ps, d.Shares ps → d'.Shares (ps ++ [p])

theorem joins_store (hu : d.inUnion = true) (p : Piece) : Joins d p (d.store p) := by
  obtain ⟨o, ho⟩ := Option.isSome_iff_exists.mp hu
  exact ⟨sharing_store ho p, alignment_store ho p, fun ps h => h.store p⟩

theorem Joins.congr {d'' : Draft} (h : Joins d p d') (hl : d''.layout = d'.layout)
    (ha : d''.alignment = d'.alignment) : Joins d p d'' :=
  ⟨(sharing_congr hl).trans h.members, ha.trans h.alignment, fun ps hs => (h.shares ps hs).congr hl⟩

/-- A bit field that is alone in its word. -/
theorem member_wordPiece {r : Registry} (s : Settings) (p : PendingBits)
    (hp : p.declaredBytes ∈ [0, 1, 2, 4]) : (wordPiece s (BitRun.add {} p)).Member r s := by
  let run : BitRun := BitRun.add {} p
  have hpending : ∀ q ∈ run.pending, q.declaredBytes ∈ [0, 1, 2, 4] := by
    intro q hq
    obtain rfl := List.mem_singleton.mp hq
    exact hp
  refine ⟨wordPiece_sound s rfl, rfl, run.wordBytes_pos.ne', alignment_wordPiece_mem s hpending, _, rfl, ?_⟩
  rintro b ⟨⟩
  unfold BitSlice.first
  cases s.bitOrder with
  | lsb => rfl
  | msb =>
    dsimp only
    omega

/-- A bit field in a union gets its word at once. -/
theorem joins_addBits (hu : d.inUnion = true) (hrun : d.run.isEmpty = true) (s : Settings)
    (p : PendingBits) : Joins d (wordPiece s (BitRun.add {} p)) (d.addBits s p) := by
  have hpend : (d.pend p).run = BitRun.add {} p := by rw [pend, BitRun.eq_of_isEmpty hrun]
  have hstore := joins_store (d := d.pend p) hu (wordPiece s (d.pend p).run)
  have hsharing : (d.pend p).sharing = d.sharing := rfl
  have hfilled : (d.pend p).run.isEmpty = false := by
    rw [hpend]
    rfl
  rw [addBits_inUnion hu hrun, ← hpend]
  have hjoins : Joins d (wordPiece s (d.pend p).run) ((d.pend p).store (wordPiece s (d.pend p).run)) :=
    ⟨hsharing ▸ hstore.members, hstore.alignment, fun ps h => hstore.shares ps (h.congr rfl)⟩
  refine hjoins.congr (layout_flush s hfilled) ?_
  rw [flush_eq s hfilled]
  rfl

/-- A statement in a union declares one member of it. -/
theorem joins_put {f : FieldStatement} {c : Content} (hc : c.Resolved u d) (hu : d.inUnion = true)
    (hrun : d.run.isEmpty = true) (hr : u.registry.Sound) :
    ∃ p : Piece, p.Member u.registry u.settings ∧ Joins d p (f.put u d c) := by
  let named : Draft := { d with names := d.names ++ [f.name.text] }
  have back {p : Piece} {d' : Draft} (h : Joins named p d') : Joins d p d' :=
    ⟨h.members, h.alignment, fun ps hs => h.shares ps (hs.congr rfl)⟩
  refine put_cases (P := fun d' => ∃ p : Piece, p.Member u.registry u.settings ∧ Joins d p d') hc.admitted
    ?_ ?_
  · rintro count boolean declaredBytes rfl
    exact ⟨_, member_wordPiece u.settings _ (hc.admitted.bounded _ _ _).declared,
      back (joins_addBits (d := named) hu hrun u.settings _)⟩
  · intro kind size p tail hp
    have hsized : p.bytes ≠ 0 := by
      have hcontent := hp.content
      cases c with
      | bits => cases hcontent
      | plain =>
        rw [← (Prod.mk.inj (Option.some.inj hcontent)).2]
        exact hc.size_ne hr.sized
      | tail =>
        -- an open array stands in no union
        cases hc with
        | tail byte outside =>
          rw [hu] at outside
          cases outside
    have hflush : named.flush u.settings = named := if_pos hrun
    rw [hflush]
    refine ⟨p, ⟨hp.sound hr.aligned, hp.pack, hsized, hp.alignment_mem hr.regular, _, hp.fields,
      fun b hb => absurd hb (hp.whole b)⟩, ?_⟩
    exact (back (joins_store (d := named) hu p)).congr rfl rfl

/-! ## Closing an anonymous union -/

theorem maxBytes_eq_zero (hp : ∀ p ∈ ps, p.bytes ≠ 0) (h : StorageUnit.maxBytes ps = 0) : ps = [] := by
  by_contra hne
  obtain ⟨p, hmem⟩ := List.exists_mem_of_ne_nil ps hne
  have hle := le_maxBytes hmem
  have hpos := hp p hmem
  omega

theorem waiting_eq (h : d.Shares ps) (hform : d.form = .struct) :
    d.waiting = ps.flatMap (·.fields) := by
  have hm := h.members
  rwa [sharing, if_pos hform] at hm

/-- The members of an anonymous union get their place, and the cursor goes behind the largest. -/
theorem closeUnion_fields (s : Settings) (h : d.Shares ps) (hform : d.form = .struct)
    (hrun : d.run.isEmpty = true) (hp : ∀ p ∈ ps, p.bytes ≠ 0) :
    (d.closeUnion s).1.fields = d.fields ++
        (StorageUnit.union (alignUp d.cursor (StorageUnit.maxAlignment ps)) ps).fields ∧
      (d.closeUnion s).1.cursor = alignUp d.cursor (StorageUnit.maxAlignment ps) +
        alignUp (StorageUnit.maxBytes ps) (StorageUnit.maxAlignment ps) := by
  have hw := waiting_eq h hform
  obtain ⟨fs, ho⟩ := h.overlap
  rw [waiting, ho, Option.getD_some] at hw
  dsimp only at hw
  by_cases hz : StorageUnit.maxBytes ps = 0
  · obtain rfl := maxBytes_eq_zero hp hz
    rw [closeUnion_empty s hrun ho hz]
    constructor
    · exact (List.append_nil _).symm
    · simp [StorageUnit.maxAlignment, StorageUnit.maxBytes, alignUp]
  · constructor
    · rw [fields_closeUnion s hrun ho hz, hw]
      rfl
    · rw [closeUnion_filled s hrun ho hz]

/-! ## What comes later -/

/-- What a struct has more of starts at or after the cursor. -/
structure Beyond (d d' : Draft) : Prop where
  fields : ∃ fs, d'.fields = d.fields ++ fs ∧ ∀ f ∈ fs, d.cursor ≤ f.offset
  cursor : d.cursor ≤ d'.cursor

theorem beyond_of_eq (hf : d'.fields = d.fields) (hc : d'.cursor = d.cursor) : Beyond d d' := by
  constructor
  · exact ⟨[], by simp [hf], by simp⟩
  · omega

theorem Beyond.trans {d'' : Draft} (h : Beyond d d') (h' : Beyond d' d'') : Beyond d d'' := by
  obtain ⟨fs, hf, hfs⟩ := h.fields
  obtain ⟨gs, hg, hgs⟩ := h'.fields
  have hcursor := h.cursor
  constructor
  · refine ⟨fs ++ gs, by rw [hg, hf, List.append_assoc], ?_⟩
    intro f hf
    rcases List.mem_append.mp hf with hf | hf
    · exact hfs f hf
    · have hle := hgs f hf
      omega
  · have hcursor' := h'.cursor
    omega

theorem beyond_shift {n : Nat} {gs : List Field} (hf : d'.fields = d.fields ++ gs.map (.shift n))
    (hn : d.cursor ≤ n) (hc : n ≤ d'.cursor) : Beyond d d' := by
  constructor
  · refine ⟨gs.map (.shift n), hf, ?_⟩
    intro f hmem
    obtain ⟨g, -, rfl⟩ := List.mem_map.mp hmem
    have hoffset : (g.shift n).offset = g.offset + n := rfl
    omega
  · omega

theorem beyond_store (hform : d.form = .struct) (p : Piece) : Beyond d (d.store p) := by
  cases ho : d.overlap with
  | none =>
    rw [store_outside ho]
    refine beyond_shift (fields_append d _) (le_alignUp d.cursor p.alignment) ?_
    exact Nat.le_add_right _ _
  | some o =>
    rw [store_inside ho hform]
    exact beyond_of_eq rfl rfl

theorem beyond_flush (s : Settings) (hform : d.form = .struct) : Beyond d (d.flush s) := by
  cases hr : d.run.isEmpty with
  | true =>
    rw [flush_of_isEmpty s hr]
    exact beyond_of_eq rfl rfl
  | false =>
    have hlayout := layout_flush s hr
    simp only [layout, Prod.mk.injEq] at hlayout
    exact (beyond_store hform (wordPiece s d.run)).trans (beyond_of_eq hlayout.2.1 hlayout.2.2.1)

theorem beyond_put {f : FieldStatement} {c : Content} (hform : d.form = .struct)
    (hc : c.Admitted u) : Beyond d (f.put u d c) := by
  refine (put_induction (P := fun d' => Beyond d d' ∧ d'.form = .struct) hc ⟨beyond_of_eq rfl rfl, hform⟩
    ?_ ?_ ?_ ?_).1
  · rintro d' ⟨hb, hf⟩
    exact ⟨hb.trans (beyond_flush _ hf), (follows_flush _ d').form.trans hf⟩
  · rintro d' p - - ⟨hb, hf⟩
    exact ⟨hb.trans (beyond_of_eq rfl rfl), hf⟩
  · rintro d' g p - ⟨hb, hf⟩
    exact ⟨hb.trans (beyond_store hf p), (continues_store d' p).form.trans hf⟩
  · rintro d' tail ⟨hb, hf⟩
    exact ⟨hb.trans (beyond_of_eq rfl rfl), hf⟩

theorem beyond_closeUnion (s : Settings) (hu : d.inUnion = true) (hrun : d.run.isEmpty = true) :
    Beyond d (d.closeUnion s).1 := by
  obtain ⟨o, ho⟩ := Option.isSome_iff_exists.mp hu
  by_cases hz : o.width = 0
  · rw [closeUnion_empty s hrun ho hz]
    exact beyond_of_eq rfl rfl
  · refine beyond_shift (fields_closeUnion s hrun ho hz) (le_alignUp d.cursor o.alignment) ?_
    rw [closeUnion_filled s hrun ho hz]
    exact Nat.le_add_right _ _

theorem Change.beyond (h : Change u d d') (hform : d.form = .struct) (hs : d.Settled) :
    Beyond d d' := by
  cases h with
  | same => exact beyond_of_eq rfl rfl
  | field f hc => exact beyond_put hform (FieldStatement.resolve_ok hc)
  | openUnion => exact (beyond_flush u.settings hform).trans (beyond_of_eq rfl rfl)
  | closeUnion hu =>
    have hu' := inUnion_of_anonymous hu
    exact beyond_closeUnion u.settings hu' (hs hu')

/-! ## Changes in a union -/

/-- In a union a round declares at most one member, or closes the union. -/
theorem Change.joins (h : Change u d d') (hu : d.inUnion = true) (hs : d.Settled)
    (hr : u.registry.Sound) :
    d' = d ∨ (∃ p : Piece, p.Member u.registry u.settings ∧ Joins d p d' ∧ d'.inUnion = true) ∨
      (d.inAnonymousUnion = true ∧ d' = (d.closeUnion u.settings).1 ∧ d'.inUnion = false) := by
  cases h with
  | same => exact .inl rfl
  | field f hc =>
    have hresolved := (FieldStatement.resolve_eq_ok hc).2.2
    obtain ⟨p, hp, hj⟩ := joins_put (f := f) hresolved hu (hs hu) hr
    exact .inr (.inl ⟨p, hp, hj, (continues_put f u d _).inUnion.trans hu⟩)
  | openUnion ho =>
    rw [hu] at ho
    cases ho
  | closeUnion hanon => exact .inr (.inr ⟨hanon, rfl, (continues_closeUnion u.settings d).inUnion⟩)

theorem Change.openUnion_of (h : Change u d d') (hd : d.inUnion = false) (hu : d'.inUnion = true) :
    d' = d.openUnion u.settings := by
  cases h with
  | same =>
    rw [hd] at hu
    cases hu
  | field f hc =>
    rw [(continues_put f u d _).inUnion.trans hd] at hu
    cases hu
  | openUnion => rfl
  | closeUnion hanon =>
    rw [inUnion_of_anonymous hanon] at hd
    cases hd

theorem shares_openUnion (s : Settings) (hform : d.form = .struct) : (d.openUnion s).Shares [] := by
  have hopen : (d.openUnion s).form = .struct := by
    rw [openUnion, (follows_flush s d).form, hform]
  constructor
  · rw [sharing, if_pos hopen]
    rfl
  · exact ⟨[], rfl⟩

end Draft

namespace Declaration
open Reader Draft

variable {env : Env} {d₀ d d' : Draft} {s₀ s s' : State} {form : Form} {t : TypeInfo}

/-! ## Bodies -/

/-- In the body that starts with `d₀` in state `s₀` there is a round that declares the piece, and
nothing else, as a member of the union that is open. -/
def JoinedIn (env : Env) (d₀ : Draft) (s₀ : State) (p : Piece) : Prop :=
  ∃ d s d' s', Runs memberRound env d₀ s₀ d s ∧ memberRound d env s = .ok (.again d') s' ∧
    p.Member s₀.registry s.settings ∧ d'.sharing = d.sharing ++ p.fields

/-- The members of a named union always overlap. -/
theorem runs_inUnion (h : Runs memberRound env d₀ s₀ d s) (hf : Fresh s₀.registry form d₀)
    (hform : form ≠ .enum) (hr : s₀.registry.Sound) (hd : d.form ≠ .struct) : d.inUnion = true := by
  induction h with
  | start =>
    have hunion : form = .union := by
      rw [hf.form_eq] at hd
      cases form with
      | struct => exact absurd rfl hd
      | union => rfl
      | enum => exact absurd rfl hform
    simp [inUnion, hf.overlap_eq, hunion]
  | @next d d' s s' before round _ ih =>
    have hc := memberRound_again round
    have hsame : d.form ≠ .struct := by rwa [← hc.follows.form]
    have hreg : (s.surroundings env).registry = s₀.registry := runs_registry before
    rcases hc.joins (ih hsame) (runs_settled before hf.settled) (hreg ▸ hr) with
      rfl | ⟨_, -, -, hu⟩ | ⟨hanon, -, -⟩
    · exact ih hsame
    · exact hu
    · simp [inAnonymousUnion, hsame] at hanon

theorem runs_shares (h : Runs memberRound env d₀ s₀ d s) (hf : Fresh s₀.registry form d₀)
    (hform : form ≠ .enum) (hr : s₀.registry.Sound) (hu : d.inUnion = true) :
    ∃ ps, d.Shares ps ∧ ∀ p ∈ ps, JoinedIn env d₀ s₀ p := by
  induction h with
  | start =>
    have hunion : form = .union := by
      by_contra hne
      simp [inUnion, hf.overlap_eq, hne] at hu
    refine ⟨[], ⟨?_, [], ?_⟩, by simp⟩
    · rw [sharing, if_neg (by rw [hf.form_eq, hunion]; decide), fields, hf.steps_eq]
      rfl
    · rw [hf.overlap_eq, if_pos hunion]
      rfl
  | @next d d' s s' before round _ ih =>
    have hc := memberRound_again round
    have hreg : (s.surroundings env).registry = s₀.registry := runs_registry before
    cases hd : d.inUnion with
    | false =>
      -- the round opens an anonymous union
      have hstruct : d.form = .struct := by
        by_contra hne
        rw [runs_inUnion before hf hform hr hne] at hd
        cases hd
      rw [hc.openUnion_of hd hu]
      exact ⟨[], shares_openUnion _ hstruct, by simp⟩
    | true =>
      obtain ⟨ps, hps, hjoined⟩ := ih hd
      rcases hc.joins hd (runs_settled before hf.settled) (hreg ▸ hr) with
        rfl | ⟨p, hp, hj, -⟩ | ⟨-, -, hclosed⟩
      · exact ⟨ps, hps, hjoined⟩
      · refine ⟨ps ++ [p], hj.shares ps hps, ?_⟩
        intro q hq
        rcases List.mem_append.mp hq with hq | hq
        · exact hjoined q hq
        · obtain rfl := List.mem_singleton.mp hq
          rw [hreg] at hp
          exact ⟨d, s, d', s', before, round, hp, hj.members⟩
      · rw [hclosed] at hu
        cases hu

theorem runs_alignment (h : Runs memberRound env d₀ s₀ d s) (hf : Fresh s₀.registry .union d₀)
    (hr : s₀.registry.Sound) : d.alignment = d₀.alignment := by
  induction h with
  | start => rfl
  | @next d d' s s' before round _ ih =>
    have hreg : (s.surroundings env).registry = s₀.registry := runs_registry before
    have hform : d.form ≠ .struct := by
      rw [(runs_follows before).form, hf.form_eq]
      decide
    have hu := runs_inUnion before hf (by decide) hr hform
    rcases (memberRound_again round).joins hu (runs_settled before hf.settled) (hreg ▸ hr) with
      rfl | ⟨_, -, hj, -⟩ | ⟨hanon, -, -⟩
    · exact ih
    · exact hj.alignment.trans ih
    · simp [inAnonymousUnion, hform] at hanon

theorem runs_beyond (h : Runs memberRound env d₀ s₀ d s) (hform : d₀.form = .struct)
    (hs : d₀.Settled) : Beyond d₀ d := by
  induction h with
  | start => exact beyond_of_eq rfl rfl
  | next before round _ ih =>
    have hsame := (runs_follows before).form.trans hform
    exact ih.trans ((memberRound_again round).beyond hsame (runs_settled before hs))

/-- A body of the description that declares the type: it is opened with `d₀` in state `s₁`, and
closed with `d₁` in state `s₂`. -/
structure HasBody (env : Env) (s₀ : State) (t : TypeInfo) (d₀ : Draft) (s₁ : State) (d₁ : Draft)
    (s₂ : State) : Prop where
  opens : Opens env s₀ d₀ s₁
  body : members d₀ env s₁ = .ok (some d₁) s₂
  finish : ∃ name, d₁.finish s₂.settings name = some t

/-- A named union: each piece is declared by a round of its body, and all start at its first byte. -/
structure Overlaid (env : Env) (d₀ : Draft) (s₁ : State) (t : TypeInfo) (pack : Pack)
    (ps : List Piece) : Prop where
  fields : t.fields = ps.flatMap (·.fields)
  joined : ∀ p ∈ ps, JoinedIn env d₀ s₁ p
  start : ∀ f ∈ t.fields, f.offset = 0
  bytes : IsGreatest {n | ∃ f ∈ t.fields, f.bytes = n} t.byteLength
  alignment : ∃ a, IsGreatest {n | ∃ p ∈ ps, p.alignment = n} a ∧ t.alignment = min pack.bytes a

/-- An anonymous union in a struct, after the units that end at `stop` and before the later fields. -/
structure Embedded (env : Env) (d₀ : Draft) (s₁ : State) (t : TypeInfo) (us : List StorageUnit)
    (stop start : Nat) (ps : List Piece) (later : List Field) : Prop where
  fields : t.fields = us.flatMap StorageUnit.fields ++ (StorageUnit.union start ps).fields ++ later
  preceding : ∃ base, Extends s₁.registry t base ∧ Tiled base us stop
  joined : ∀ p ∈ ps, JoinedIn env d₀ s₁ p
  least : IsLeast {n | stop ≤ n ∧ StorageUnit.maxAlignment ps ∣ n} start
  aligned : ∀ p ∈ ps, p.alignment ∣ start
  inside : ∀ f ∈ (StorageUnit.union start ps).fields,
    f.offset = start ∧ f.offset + f.bytes ≤ start + StorageUnit.maxBytes ps
  beyond : ∀ f ∈ later,
    alignUp (start + StorageUnit.maxBytes ps) (StorageUnit.maxAlignment ps) ≤ f.offset

theorem JoinedIn.member {p : Piece} (h : JoinedIn env d₀ s₀ p) :
    ∃ u, p.Member s₀.registry u := by
  obtain ⟨_, s, _, _, -, -, hp, -⟩ := h
  exact ⟨s.settings, hp⟩

theorem isGreatest_maxBytes {fs : List Field} (hfs : fs = ps.flatMap (·.fields))
    (hp : ∀ p ∈ ps, JoinedIn env d₀ s₀ p) (hne : StorageUnit.maxBytes ps ≠ 0) :
    IsGreatest {n | ∃ f ∈ fs, f.bytes = n} (StorageUnit.maxBytes ps) := by
  have hmax : (0 :: ps.map (·.bytes)).max? = some (StorageUnit.maxBytes ps) := List.max?_cons'
  constructor
  · rcases List.mem_cons.mp (List.max?_mem hmax) with hz | hmem
    · exact absurd hz hne
    · obtain ⟨p, hpmem, hbytes⟩ := List.mem_map.mp hmem
      obtain ⟨u, hm⟩ := (hp p hpmem).member
      obtain ⟨f, hf, -⟩ := hm.alone
      have hmemf : f ∈ p.fields := by simp [hf]
      have hfb := (hm.sound.field f hmemf).2.1
      exact ⟨f, hfs ▸ List.mem_flatMap.mpr ⟨p, hpmem, hmemf⟩, hfb.trans hbytes⟩
  · rintro n ⟨f, hf, rfl⟩
    rw [hfs] at hf
    obtain ⟨p, hpmem, hmemf⟩ := List.mem_flatMap.mp hf
    obtain ⟨u, hm⟩ := (hp p hpmem).member
    rw [(hm.sound.field f hmemf).2.1]
    exact le_maxBytes hpmem

theorem isGreatest_maxAlignment (hp : ∀ p ∈ ps, JoinedIn env d₀ s₀ p) (hne : ps ≠ []) :
    IsGreatest {n | ∃ p ∈ ps, p.alignment = n} (StorageUnit.maxAlignment ps) := by
  constructor
  · rcases List.mem_cons.mp (List.max?_mem (max?_alignments ps)) with hone | hmem
    · -- no alignment is less than one
      obtain ⟨p, hpmem⟩ := List.exists_mem_of_ne_nil ps hne
      obtain ⟨u, hm⟩ := (hp p hpmem).member
      have hle := le_maxAlignment hpmem
      have hpos := hm.sound.alignment_pos
      exact ⟨p, hpmem, by omega⟩
    · obtain ⟨p, hpmem, heq⟩ := List.mem_map.mp hmem
      exact ⟨p, hpmem, heq⟩
  · rintro n ⟨p, hpmem, rfl⟩
    exact le_maxAlignment hpmem

theorem HasBody.fresh (h : HasBody env s₀ t d₀ s₁ d₁ s₂) (h₀ : s₀.registry = {}) :
    t.form ≠ .enum ∧ Fresh s₁.registry t.form d₀ ∧ s₁.registry.Sound := by
  obtain ⟨s, s', form, typedef, before, enters, opens⟩ := h.opens
  obtain ⟨hf, hreg⟩ := enters.fresh opens
  have hr : s₁.registry.Sound := by
    rw [hreg]
    exact (read_sound env h₀).1 s before
  rw [← hreg] at hf
  have hform : t.form = form := by
    obtain ⟨name, hfinish⟩ := h.finish
    obtain ⟨d, s₃, hrun, hdone⟩ := members_ok h.body
    obtain ⟨-, rfl, -⟩ := memberRound_done hdone
    rw [(finish_eq hfinish).1, (follows_flush _ d).form, (runs_follows hrun).form, hf.form_eq]
  rw [hform]
  exact ⟨enters.form_ne, hf, hr⟩

theorem HasBody.overlaid (h : HasBody env s₀ t d₀ s₁ d₁ s₂) (h₀ : s₀.registry = {})
    (hunion : t.form = .union) : ∃ ps, Overlaid env d₀ s₁ t s₂.settings.pack ps := by
  obtain ⟨-, hf, hr⟩ := h.fresh h₀
  rw [hunion] at hf
  obtain ⟨d, s, hrun, hdone⟩ := members_ok h.body
  obtain ⟨-, rfl, -⟩ := memberRound_done hdone
  have hform : d.form = .union := by rw [(runs_follows hrun).form, hf.form_eq]
  have hu := runs_inUnion hrun hf (by decide) hr (by rw [hform]; decide)
  have hempty : d.flush s.settings = d := if_pos (runs_settled hrun hf.settled hu)
  obtain ⟨ps, hshares, hjoined⟩ := runs_shares hrun hf (by decide) hr hu
  obtain ⟨fs, ho⟩ := hshares.overlap
  obtain ⟨name, hfinish⟩ := h.finish
  rw [hempty] at hfinish
  have hsize : d.size = StorageUnit.maxBytes ps := by simp [size, hform, ho]
  have hne : StorageUnit.maxBytes ps ≠ 0 := by
    rw [← hsize]
    exact (finish_some hfinish).1
  have hfull : d.fullAlignment = StorageUnit.maxAlignment ps := by
    have hone : d.alignment = 1 := by
      rw [runs_alignment hrun hf hr]
      rcases hf.start with ⟨-, -, -, ha⟩ | ⟨_, -, -, -, -, -, -, -, hother⟩
      · exact ha
      · exact absurd rfl hother
    have hpos := maxAlignment_pos ps
    simp only [fullAlignment, hform, ho, hone]
    omega
  obtain ⟨-, hbytes, halign, -, hfields⟩ := finish_eq hfinish
  have hmembers : t.fields = ps.flatMap (·.fields) := by
    rw [hfields, ← hshares.members, sharing, if_neg (by rw [hform]; decide)]
  have hnonempty : ps ≠ [] := by
    rintro rfl
    exact hne rfl
  refine ⟨ps, hmembers, hjoined, ?_, ?_, ?_⟩
  · intro f hmem
    rw [hmembers] at hmem
    obtain ⟨p, hp, hmem⟩ := List.mem_flatMap.mp hmem
    obtain ⟨u, hm⟩ := (hjoined p hp).member
    exact (hm.sound.field f hmem).1
  · rw [hbytes, hsize]
    exact isGreatest_maxBytes hmembers hjoined hne
  · refine ⟨StorageUnit.maxAlignment ps, isGreatest_maxAlignment hjoined hnonempty, ?_⟩
    rw [halign, hfull]

/-- An anonymous union gets its place when it is closed, and the rest of the body comes after it. -/
theorem HasBody.embedded (h : HasBody env s₀ t d₀ s₁ d₁ s₂) (h₀ : s₀.registry = {})
    (hstruct : t.form = .struct) (hrun : Runs memberRound env d₀ s₁ d s)
    (round : memberRound d env s = .ok (.again d') s') (hopen : d.inAnonymousUnion = true)
    (hclosed : d'.inUnion = false) :
    ∃ us stop start ps later, Embedded env d₀ s₁ t us stop start ps later ∧
      d.fields = us.flatMap StorageUnit.fields ∧ d.waiting = ps.flatMap (·.fields) := by
  obtain ⟨hne, hf, hr⟩ := h.fresh h₀
  rw [hstruct] at hf
  have hu := inUnion_of_anonymous hopen
  have hform : d.form = .struct := by rw [(runs_follows hrun).form, hf.form_eq]
  have hsettled := runs_settled hrun hf.settled
  obtain ⟨ps, hshares, hjoined⟩ := runs_shares hrun hf (by decide) hr hu
  obtain ⟨us, _, hlaid, -, -⟩ := runs_traced hrun hf hr.aligned
  have hreg : (s.surroundings env).registry = s₁.registry := runs_registry hrun
  have hmember (p : Piece) (hp : p ∈ ps) : p.Sound s₁.registry ∧ p.bytes ≠ 0 ∧
      p.alignment ∈ [1, 2, 4, 8] := by
    obtain ⟨_, hm⟩ := (hjoined p hp).member
    exact ⟨hm.sound, hm.sized, hm.regular⟩
  -- the round closes the union, as all others leave it open
  have hd' : d' = (d.closeUnion s.settings).1 := by
    rcases (memberRound_again round).joins hu hsettled (hreg ▸ hr) with
      rfl | ⟨_, -, -, hstill⟩ | ⟨-, heq, -⟩
    · rw [hu] at hclosed
      cases hclosed
    · rw [hstill] at hclosed
      cases hclosed
    · exact heq
  obtain ⟨hfields, hcursor⟩ := closeUnion_fields s.settings hshares hform (hsettled hu)
    fun p hp => (hmember p hp).2.1
  rw [← hd'] at hfields hcursor
  -- what the rest of the body adds
  obtain ⟨d₂, s₃, hrest, hdone⟩ := rounds_ok (hrun.resume round h.body)
  obtain ⟨-, rfl, -⟩ := memberRound_done hdone
  have hform' : d'.form = .struct := by rw [(memberRound_again round).follows.form, hform]
  have hform₂ : d₂.form = .struct := by rw [(runs_follows hrest).form, hform']
  have hbeyond := (runs_beyond hrest hform' ((memberRound_again round).settled hsettled)).trans
    (beyond_flush s₃.settings hform₂)
  obtain ⟨later, hlater, hoffsets⟩ := hbeyond.fields
  obtain ⟨name, hfinish⟩ := h.finish
  obtain ⟨-, -, -, hparent, htfields⟩ := finish_eq hfinish
  let start := alignUp d.cursor (StorageUnit.maxAlignment ps)
  have hleast : IsLeast {n | d.cursor ≤ n ∧ StorageUnit.maxAlignment ps ∣ n} start :=
    isLeast_alignUp (maxAlignment_pos ps)
  refine ⟨us, d.cursor, start, ps, later, ⟨?_, ?_, hjoined, hleast, ?_, ?_, ?_⟩, hlaid.fields,
    waiting_eq hshares hform⟩
  · rw [htfields, hlater, hfields, hlaid.fields]
  · have hfollows := ((runs_follows hrun).trans (memberRound_again round).follows).trans
      ((runs_follows hrest).trans (follows_flush s₃.settings d₂))
    exact ⟨d₀.cursor, hf.extends (hparent.trans hfollows.parent), hlaid.tiled⟩
  · intro p hp
    exact Nat.dvd_trans (alignment_dvd_max (fun q hq => (hmember q hq).2.2) hp) hleast.1.2
  · intro f hmem
    obtain ⟨p, hp, g, hg, rfl⟩ := StorageUnit.mem_fields.mp hmem
    obtain ⟨hoffset, hbytes, -⟩ := (hmember p hp).1.field g hg
    have hshift : (g.shift start).offset = g.offset + start := rfl
    have hkept : (g.shift start).bytes = g.bytes := rfl
    have hle : p.bytes ≤ StorageUnit.maxBytes ps := le_maxBytes hp
    change (g.shift start).offset = start ∧ (g.shift start).offset + (g.shift start).bytes ≤ _
    omega
  · intro f hmem
    have hcur := hoffsets f hmem
    rw [hcursor] at hcur
    have hle := le_alignUp (StorageUnit.maxBytes ps) (StorageUnit.maxAlignment ps)
    have hdvd := dvd_alignUp (StorageUnit.maxBytes ps) _ (maxAlignment_pos ps)
    exact (alignUp_le (Nat.add_le_add_left hle start) (Nat.dvd_add hleast.1.2 hdvd)).trans hcur

/-- Every declared struct or union has a body. -/
theorem exists_hasBody (env : Env) (h₀ : s₀.registry = {}) (ht : t ∈ (read env s₀).1.registry.types)
    (hform : t.form ≠ .enum) : ∃ d₀ s₁ d₁ s₂, HasBody env s₀ t d₀ s₁ d₁ s₂ := by
  obtain ⟨s, s', before, completes⟩ := exists_completes h₀ ht
  cases completes with
  | enum => exact absurd rfl hform
  | aggregate enters opens body ends =>
    exact ⟨_, _, _, _, ⟨s, _, _, _, before, enters, opens⟩, body, ends.finish⟩

/-- In a declared union all members start at the first byte, its size is that of the largest one and
its alignment that of the most aligned one, limited by the setting where it is closed. An anonymous
union in a declared struct starts at the least multiple of the alignments of its members that is not
below the end of what precedes it; all members start there, each in the order of bits that is set
where it is declared, and no later field starts before the end of the largest one, rounded up to the
alignment of the union. -/
theorem union_layout (env : Env) (s₀ : State) (h₀ : s₀.registry = {}) (t : TypeInfo)
    (ht : t ∈ (read env s₀).1.registry.types) (hform : t.form ≠ .enum) :
    (∃ d₀ s₁ d₁ s₂, HasBody env s₀ t d₀ s₁ d₁ s₂) ∧
      ∀ d₀ s₁ d₁ s₂, HasBody env s₀ t d₀ s₁ d₁ s₂ →
        (t.form = .union → ∃ ps, Overlaid env d₀ s₁ t s₂.settings.pack ps) ∧
        (t.form = .struct → ∀ d s d' s', Runs memberRound env d₀ s₁ d s →
          memberRound d env s = .ok (.again d') s' → d.inAnonymousUnion = true →
          d'.inUnion = false → ∃ us stop start ps later,
            Embedded env d₀ s₁ t us stop start ps later ∧
              d.fields = us.flatMap StorageUnit.fields ∧ d.waiting = ps.flatMap (·.fields)) := by
  refine ⟨exists_hasBody env h₀ ht hform, fun d₀ s₁ d₁ s₂ h => ⟨h.overlaid h₀, ?_⟩⟩
  intro hstruct d s d' s' hrun round hopen hclosed
  exact h.embedded h₀ hstruct hrun round hopen hclosed

def closedBody? (env : Env) (d : Draft) (s : State) : Option (Draft × State) :=
  match members d env s with
  | .ok (some d') s' => some (d', s')
  | _ => none

theorem members_of_closedBody? {x : Draft × State} (h : closedBody? env d s = some x) :
    members d env s = .ok (some x.1) x.2 := by
  unfold closedBody? at h
  split at h
  · rename_i hbody
    cases h
    exact hbody
  · cases h

/-- A struct with an anonymous union that has a bit field, and a union. -/
def sharedTokens : List Token :=
  [⟨.identifier, "struct", "", 1, 1⟩, ⟨.identifier, "A", "", 1, 8⟩, ⟨.leftBrace, "\x7b", "", 1, 10⟩,
   ⟨.identifier, "Uint8", "", 2, 1⟩, ⟨.identifier, "a", "", 2, 7⟩, ⟨.semicolon, ";", "", 2, 8⟩,
   ⟨.identifier, "union", "", 3, 1⟩, ⟨.leftBrace, "\x7b", "", 3, 7⟩,
   ⟨.identifier, "Uint16", "", 4, 1⟩, ⟨.identifier, "b", "", 4, 8⟩, ⟨.semicolon, ";", "", 4, 9⟩,
   ⟨.identifier, "Boolean", "", 5, 1⟩, ⟨.identifier, "c", "", 5, 9⟩, ⟨.semicolon, ";", "", 5, 10⟩,
   ⟨.rightBrace, "\x7d", "", 6, 1⟩, ⟨.semicolon, ";", "", 6, 2⟩,
   ⟨.identifier, "Uint8", "", 7, 1⟩, ⟨.identifier, "d", "", 7, 7⟩, ⟨.semicolon, ";", "", 7, 8⟩,
   ⟨.rightBrace, "\x7d", "", 8, 1⟩, ⟨.semicolon, ";", "", 8, 2⟩,
   ⟨.identifier, "union", "", 9, 1⟩, ⟨.identifier, "B", "", 9, 7⟩, ⟨.leftBrace, "\x7b", "", 9, 9⟩,
   ⟨.identifier, "Uint8", "", 9, 11⟩, ⟨.identifier, "a", "", 9, 17⟩, ⟨.semicolon, ";", "", 9, 18⟩,
   ⟨.identifier, "Uint32", "", 9, 20⟩, ⟨.identifier, "b", "", 9, 27⟩, ⟨.semicolon, ";", "", 9, 28⟩,
   ⟨.rightBrace, "\x7d", "", 9, 30⟩, ⟨.semicolon, ";", "", 9, 31⟩, ⟨.eof, "", "", 10, 1⟩]

def sharedStruct : TypeInfo :=
  { name := "A", form := .struct, byteLength := 5, alignment := 2,
    fields :=
      [⟨"a", .number .uint8 none none, 0, 1, false, 2⟩,
       ⟨"b", .number .uint16 none none, 2, 2, false, 4⟩,
       ⟨"c", .bits ⟨1, 0, 1, true⟩, 2, 1, false, 5⟩,
       ⟨"d", .number .uint8 none none, 4, 1, false, 7⟩] }

def sharedUnion : TypeInfo :=
  { name := "B", form := .union, byteLength := 4, alignment := 4,
    fields :=
      [⟨"a", .number .uint8 none none, 0, 1, false, 9⟩,
       ⟨"b", .number .uint32 none none, 0, 4, false, 9⟩] }

theorem union_layout_shared :
    ∃ env, (∃ d₀ s₁ d₁ s₂ d s d' s', HasBody env { unread := sharedTokens } sharedStruct d₀ s₁ d₁ s₂ ∧
      Runs memberRound env d₀ s₁ d s ∧ memberRound d env s = .ok (.again d') s' ∧
      d.inAnonymousUnion = true ∧ d'.inUnion = false ∧
      ∃ us stop start ps later, Embedded env d₀ s₁ sharedStruct us stop start ps later) ∧
    ∃ d₀ s₁ d₁ s₂ ps, HasBody env { unread := sharedTokens } sharedUnion d₀ s₁ d₁ s₂ ∧
      Overlaid env d₀ s₁ sharedUnion s₂.settings.pack ps := by
  let env : Env := ⟨"__", fun _ => ""⟩
  have hstruct : sharedStruct ∈ (read env { unread := sharedTokens }).1.registry.types := by
    decide +kernel
  have hunion : sharedUnion ∈ (read env { unread := sharedTokens }).1.registry.types := by
    decide +kernel
  have h : ∃ x ∈ firstBody? env .struct { unread := sharedTokens },
      ∃ y ∈ runs? memberRound env 4 x.1 x.2, ∃ z ∈ again? memberRound env y.1 y.2,
        y.1.inAnonymousUnion = true ∧ z.1.inUnion = false ∧
        ∃ w ∈ closedBody? env x.1 x.2, w.1.finish w.2.settings "A" = some sharedStruct := by
    decide +kernel
  obtain ⟨x, hx, y, hy, z, hz, hopen, hclosed, w, hw, hfinish⟩ := h
  have hhas : HasBody env { unread := sharedTokens } sharedStruct x.1 x.2 w.1 w.2 :=
    ⟨opens_of_firstBody? hx, members_of_closedBody? hw, "A", hfinish⟩
  have hrun := runs_of_runs? hy
  have round := (again?_eq_some hz).1
  obtain ⟨us, stop, start, ps, later, hembedded, -⟩ :=
    ((union_layout env _ rfl sharedStruct hstruct (by decide)).2 _ _ _ _ hhas).2 rfl _ _ _ _ hrun
      round hopen hclosed
  obtain ⟨⟨d₀, s₁, d₁, s₂, hhas'⟩, hall⟩ := union_layout env _ rfl sharedUnion hunion (by decide)
  obtain ⟨qs, hoverlaid⟩ := (hall _ _ _ _ hhas').1 rfl
  exact ⟨env, ⟨_, _, _, _, _, _, _, _, hhas, hrun, round, hopen, hclosed, us, stop, start, ps, later,
    hembedded⟩, d₀, s₁, d₁, s₂, qs, hhas', hoverlaid⟩

end Declaration
end RecordView
