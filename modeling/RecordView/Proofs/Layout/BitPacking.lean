import RecordView.Proofs.Declaration.History
import RecordView.Proofs.Layout.Change

/-! Bit fields from their declaration to their word. -/
namespace RecordView

def Field.slice? (f : Field) : Option (String × BitSlice) :=
  match f.kind with
  | .bits b => some (f.name, b)
  | _ => none

theorem slices_shift (fs : List Field) (n : Nat) :
    (fs.map (.shift n)).filterMap Field.slice? = fs.filterMap Field.slice? := by
  rw [List.filterMap_map]
  rfl

namespace BitRun

def words (r : BitRun) : List BitRun := if r.isEmpty then [] else [r]

theorem flatMap_words {α : Type} {f : BitRun → List α} (h : f {} = []) (r : BitRun) :
    r.words.flatMap f = f r := by
  unfold words
  split
  · rename_i hr
    rw [eq_of_isEmpty hr, h]
    rfl
  · exact List.flatMap_singleton f r

def sizes (r : BitRun) : List (String × Nat) := r.pending.map fun p => (p.name, p.bits)

theorem sizes_add (r : BitRun) (p : PendingBits) : (r.add p).sizes = r.sizes ++ [(p.name, p.bits)] :=
  List.map_append

theorem slices_sizes (r : BitRun) (order : BitOrder) :
    (r.slices order).map (fun x => (x.1, x.2.count)) = r.sizes := by
  have h := congrArg (List.map fun x => (x.1, x.2.1)) (r.slices_fields order)
  rw [List.map_map, List.map_map] at h
  exact h

/-- The runs that get a word in a round, and the run that waits after it. A run that waits goes into
one word as a whole. A bit field joins it unless the word would get too large; in a union it has a
word of its own. -/
inductive Packs (r : BitRun) (inUnion : Bool) : List BitRun → BitRun → Prop where
  | waits : Packs r inUnion [] r
  | joins {p : PendingBits} (bounded : p.Bounded) (outside : inUnion = false)
      (room : r.totalBits + p.bits ≤ maxBits) : Packs r inUnion [] (r.add p)
  | flushes : Packs r inUnion r.words {}
  | starts {p : PendingBits} (bounded : p.Bounded) (outside : inUnion = false)
      (full : maxBits < r.totalBits + p.bits) : Packs r inUnion r.words (add {} p)
  | alone {p : PendingBits} (bounded : p.Bounded) (inside : inUnion = true) (none : r = {}) :
      Packs r inUnion [add {} p] {}

theorem bounded_single {p : PendingBits} (hp : p.Bounded) : (add {} p).Bounded := by
  refine bounded_add bounded_empty hp ?_
  simpa [totalBits] using hp.le

theorem Packs.bounded {r run : BitRun} {inUnion : Bool} {placed : List BitRun}
    (h : Packs r inUnion placed run) (hr : r.Bounded) :
    run.Bounded ∧ ∀ w ∈ placed, w.Bounded := by
  have hwords : ∀ w ∈ r.words, w.Bounded := by
    intro w hw
    unfold words at hw
    split at hw
    · cases hw
    · obtain rfl := List.mem_singleton.mp hw
      exact hr
  cases h with
  | waits => exact ⟨hr, nofun⟩
  | joins hp outside room => exact ⟨bounded_add hr hp room, nofun⟩
  | flushes => exact ⟨bounded_empty, hwords⟩
  | starts hp outside full => exact ⟨bounded_single hp, hwords⟩
  | alone hp inside none =>
    refine ⟨bounded_empty, fun w hw => ?_⟩
    obtain rfl := List.mem_singleton.mp hw
    exact bounded_single hp

end BitRun

namespace Draft

variable {d d' : Draft} {u : Surroundings} {s : Settings} {p : Piece}

/-! ## What is told of the members -/

/-- Something that is told of fields one after another, wherever they are placed. -/
structure Tells {α : Type} (g : List Field → List α) : Prop where
  append : ∀ fs gs, g (fs ++ gs) = g fs ++ g gs
  shift : ∀ fs n, g (fs.map (.shift n)) = g fs

/-- Only members of an anonymous union wait for their place, and one of which something is told gives
the union a size. -/
structure Accounts {α : Type} (g : List Field → List α) (d : Draft) : Prop where
  named : d.form ≠ .struct → d.waiting = []
  sized : g d.waiting ≠ [] → (d.overlap.getD {}).width ≠ 0

theorem Accounts.waiting_eq {α : Type} {g : List Field → List α} (h : Accounts g d)
    (hout : d.overlap = none ∨ d.form ≠ .struct) : d.waiting = [] := by
  rcases hout with ho | hform
  · rw [waiting, ho]
    rfl
  · exact h.named hform

namespace Tells

variable {α : Type} {g : List Field → List α}

theorem nil (hg : Tells g) : g [] = [] := by
  have happend := hg.append [] []
  simpa using happend

theorem accounts_of_waiting (hg : Tells g) (h : d.waiting = []) : Accounts g d := by
  refine ⟨fun _ => h, fun hw => absurd ?_ hw⟩
  rw [h]
  exact hg.nil

theorem store (hg : Tells g) (hd : Accounts g d) (p : Piece) :
    g ((d.store p).fields ++ (d.store p).waiting) = g (d.fields ++ d.waiting) ++ g p.fields := by
  rcases store_cases d p with ⟨hout, hw, n, -, hf⟩ | ⟨-, hf, hw, -⟩
  · rw [hf, hw, hd.waiting_eq hout, List.append_nil, List.append_nil, hg.append, hg.shift]
  · rw [hf, hw, ← List.append_assoc, hg.append]

theorem accounts_store (hg : Tells g) (hd : Accounts g d) (hp : g p.fields ≠ [] → p.bytes ≠ 0) :
    Accounts g (d.store p) := by
  rcases store_cases d p with ⟨hout, hw, -⟩ | ⟨hform, -, hw, hwidth⟩
  · exact hg.accounts_of_waiting (hw.trans (hd.waiting_eq hout))
  · have hform' : (d.store p).form = .struct := (continues_store d p).form.trans hform
    refine ⟨fun h => absurd hform' h, fun h => ?_⟩
    rw [hw, hg.append] at h
    rw [hwidth]
    by_cases hold : g d.waiting = []
    · rw [hold, List.nil_append] at h
      have hb := hp h
      omega
    · have ho := hd.sized hold
      omega

/-- The bit fields of a run get their places in their order, after all that is placed or waits. -/
theorem flush (hg : Tells g) (hd : Accounts g d) (s : Settings) :
    g ((d.flush s).fields ++ (d.flush s).waiting) =
      g (d.fields ++ d.waiting) ++ g (wordFields d.run s.bitOrder 0) := by
  cases hr : d.run.isEmpty with
  | true =>
    rw [flush_of_isEmpty s hr, BitRun.eq_of_isEmpty hr, show wordFields {} s.bitOrder 0 = [] from rfl,
      hg.nil, List.append_nil]
  | false =>
    have hlayout := layout_flush s hr
    simp only [layout, Prod.mk.injEq] at hlayout
    rw [waiting, hlayout.2.1, hlayout.2.2.2]
    exact hg.store hd (wordPiece s d.run)

theorem accounts_flush (hg : Tells g) (hd : Accounts g d) (s : Settings) : Accounts g (d.flush s) := by
  cases hr : d.run.isEmpty with
  | true =>
    rw [flush_of_isEmpty s hr]
    exact hd
  | false =>
    have hw := hg.accounts_store hd (p := wordPiece s d.run) fun _ => d.run.wordBytes_pos.ne'
    rw [flush_eq s hr]
    exact ⟨hw.named, hw.sized⟩

theorem accounts_addBits (hg : Tells g) (hd : Accounts g d) (s : Settings) (p : PendingBits) :
    Accounts g (d.addBits s p) :=
  addBits_induction hd (fun _ h => hg.accounts_flush h s) fun _ h => ⟨h.named, h.sized⟩

/-- Of a union that is closed without a size nothing is told. -/
theorem closeUnion (hg : Tells g) (hd : Accounts g d) (s : Settings) (hu : d.inUnion = true)
    (hrun : d.run.isEmpty = true) :
    g ((d.closeUnion s).1.fields ++ (d.closeUnion s).1.waiting) = g (d.fields ++ d.waiting) := by
  obtain ⟨hw, ⟨hz, hf⟩ | ⟨n, hf⟩⟩ := closeUnion_cases s hu hrun
  · have hnone : g d.waiting = [] := by
      by_contra hsome
      exact hd.sized hsome hz
    rw [hf, hw, hg.append, hg.append, hnone, hg.nil]
  · rw [hf, hw, List.append_nil, hg.append, hg.append, hg.shift]

end Tells

def slices (d : Draft) : List (String × BitSlice) :=
  (d.fields ++ d.waiting).filterMap Field.slice?

theorem tells_slices : Tells (List.filterMap Field.slice?) :=
  ⟨fun _ _ => List.filterMap_append, slices_shift⟩

/-- A bit field that waits for the place of a union gives it a size. -/
abbrev Orderly (d : Draft) : Prop := Accounts (List.filterMap Field.slice?) d

/-! ## Words -/

theorem slices_flush (hd : d.Orderly) (s : Settings) :
    (d.flush s).slices = d.slices ++ d.run.slices s.bitOrder := by
  refine (tells_slices.flush hd s).trans (congrArg _ ?_)
  rw [wordFields, List.filterMap_map, BitRun.slices]
  exact congrFun List.filterMap_eq_map _

theorem orderly_flush (hd : d.Orderly) (s : Settings) : (d.flush s).Orderly :=
  tells_slices.accounts_flush hd s

theorem slices_store {c : Content} {f : Field} (hd : d.Orderly) (hp : c.Fills u f p) :
    (d.store p).slices = d.slices ∧ (d.store p).Orderly := by
  have hnone : p.fields.filterMap Field.slice? = [] := by
    rw [hp.fields]
    unfold Field.slice?
    cases hk : f.kind with
    | bits b => exact absurd hk (hp.whole b)
    | _ => simp [hk]
  refine ⟨(tells_slices.store hd p).trans ?_, tells_slices.accounts_store hd fun h => absurd hnone h⟩
  rw [hnone, List.append_nil]
  rfl

/-! ## What a round does to the words -/

/-- The bit fields of the runs that get a word are placed, and no others. -/
def Packing (s : Settings) (d d' : Draft) : Prop :=
  ∃ placed, d.run.Packs d.inUnion placed d'.run ∧
    d'.slices = d.slices ++ placed.flatMap (·.slices s.bitOrder)

theorem forall_pending_pend {P : PendingBits → Prop} {p : PendingBits} (h : ∀ q ∈ d.run.pending, P q)
    (hp : P p) : ∀ q ∈ (d.pend p).run.pending, P q := by
  intro q hq
  rcases List.mem_append.mp hq with hq | hq
  · exact h q hq
  · obtain rfl := List.mem_singleton.mp hq
    exact hp

theorem orderly_pend (hd : d.Orderly) (p : PendingBits) : (d.pend p).Orderly :=
  ⟨hd.named, hd.sized⟩

theorem packing_of_flush (hrun : d'.run = {}) (hs : d'.slices = d.slices ++ d.run.slices s.bitOrder) :
    Packing s d d' := by
  refine ⟨d.run.words, ?_, ?_⟩
  · rw [hrun]
    exact .flushes
  · rw [hs, BitRun.flatMap_words rfl]

theorem addBits_outside (h : d.inUnion = false) (s : Settings) (p : PendingBits) :
    d.addBits s p = (d.room s p.bits).pend p := by
  have hadded : ((d.room s p.bits).pend p).inUnion = false := by
    unfold room
    split
    · exact h
    · exact (continues_flush s d).inUnion.trans h
  unfold addBits
  dsimp only
  rw [hadded, if_neg Bool.false_ne_true]

theorem packing_addBits {p : PendingBits} (hd : d.Orderly) (hs : d.Settled) (hp : p.Bounded)
    (s : Settings) : Packing s d (d.addBits s p) := by
  cases hu : d.inUnion with
  | true =>
    -- no other bit field waits in a union, so this one has the word for itself
    have hrun : d.run = {} := BitRun.eq_of_isEmpty (hs hu)
    rw [addBits_inUnion hu (hs hu)]
    refine ⟨[BitRun.add {} p], ?_, ?_⟩
    · rw [run_flush]
      exact .alone hp hu hrun
    · rw [slices_flush (orderly_pend hd p), List.flatMap_singleton, ← hrun]
      rfl
  | false =>
    rw [addBits_outside hu, room]
    split
    · rename_i hfits
      exact ⟨[], .joins hp hu (BitRun.fits_iff.mp hfits), (List.append_nil _).symm⟩
    · rename_i hfits
      refine ⟨d.run.words, ?_, ?_⟩
      · rw [pend, run_flush]
        exact .starts hp hu (Nat.lt_of_not_le fun h => hfits (BitRun.fits_iff.mpr h))
      · rw [BitRun.flatMap_words rfl, ← slices_flush hd]
        rfl

/-- A field statement packs its bits, or gives the run that waits its word. -/
theorem packing_put {f : FieldStatement} {c : Content} (hd : d.Orderly) (hs : d.Settled)
    (hc : c.Admitted u) : Packing u.settings d (f.put u d c) ∧ (f.put u d c).Orderly := by
  let named : Draft := { d with names := d.names ++ [f.name.text] }
  have hn : named.Orderly := ⟨hd.named, hd.sized⟩
  refine put_cases (P := fun d' => Packing u.settings d d' ∧ d'.Orderly) hc ?_ ?_
  · rintro count boolean declaredBytes rfl
    exact ⟨packing_addBits hn hs (hc.bounded _ _ _) u.settings, tells_slices.accounts_addBits hn _ _⟩
  · intro kind size p tail hp
    obtain ⟨hslices, horderly⟩ := slices_store (orderly_flush hn u.settings) hp
    refine ⟨packing_of_flush ?_ (hslices.trans (slices_flush hn _)), horderly.named, horderly.sized⟩
    exact (run_store _ p).trans (run_flush _ named)

theorem slices_openUnion (s : Settings) (hd : d.Orderly) (ho : d.inUnion = false) :
    (d.openUnion s).slices = d.slices ++ d.run.slices s.bitOrder := by
  rw [← slices_flush hd, slices, slices, members_openUnion s ho]

theorem Change.packing (h : Change u d d') (hd : d.Orderly) (hs : d.Settled) :
    Packing u.settings d d' ∧ d'.Orderly := by
  cases h with
  | same => exact ⟨⟨[], .waits, (List.append_nil _).symm⟩, hd⟩
  | field f hc => exact packing_put hd hs (FieldStatement.resolve_ok hc)
  | openUnion ho =>
    exact ⟨packing_of_flush (run_flush _ d) (slices_openUnion u.settings hd ho),
      tells_slices.accounts_of_waiting rfl⟩
  | closeUnion hu =>
    have hu' := inUnion_of_anonymous hu
    have hrun : d.run = {} := BitRun.eq_of_isEmpty (hs hu')
    have hw := (closeUnion_cases u.settings hu' (hs hu')).1
    refine ⟨packing_of_flush (run_closeUnion _ d) ?_, tells_slices.accounts_of_waiting hw⟩
    rw [slices, tells_slices.closeUnion hd u.settings hu' (hs hu'), hrun]
    exact (List.append_nil _).symm

/-- All bit fields of a draft with their sizes, those that have their word and those that wait. -/
def bitFields (d : Draft) : List (String × Nat) :=
  d.slices.map (fun x => (x.1, x.2.count)) ++ d.run.sizes

/-- No bit field gets lost. A new one is the last of the run that waits, or has its own word. -/
theorem Packing.bitFields (h : Packing s d d') :
    d'.bitFields = d.bitFields ∨ ∃ p : PendingBits,
      d'.bitFields = d.bitFields ++ [(p.name, p.bits)] ∧
        (d'.run = d.run.add p ∨ (d'.run = BitRun.add {} p ∧ maxBits < d.run.totalBits + p.bits) ∨
          (d.inUnion = true ∧ d.run = {})) := by
  obtain ⟨placed, hpacks, hslices⟩ := h
  have hall : d'.bitFields = d.slices.map (fun x => (x.1, x.2.count)) ++
      (placed.flatMap BitRun.sizes ++ d'.run.sizes) := by
    rw [Draft.bitFields, hslices, List.map_append, List.map_flatMap, List.append_assoc]
    simp only [BitRun.slices_sizes]
  generalize d'.run = run at hpacks hall ⊢
  cases hpacks with
  | waits => exact .inl hall
  | @joins p _ _ _ =>
    refine .inr ⟨p, ?_, .inl rfl⟩
    rw [hall, Draft.bitFields, BitRun.sizes_add, List.append_assoc]
    rfl
  | flushes =>
    refine .inl ?_
    rw [hall, BitRun.flatMap_words rfl]
    exact congrArg _ (List.append_nil _)
  | @starts p _ _ full =>
    refine .inr ⟨p, ?_, .inr (.inl ⟨rfl, full⟩)⟩
    rw [hall, BitRun.flatMap_words rfl, Draft.bitFields, List.append_assoc]
    rfl
  | @alone p _ inside none =>
    refine .inr ⟨p, ?_, .inr (.inr ⟨inside, none⟩)⟩
    rw [hall, Draft.bitFields, none, List.append_assoc]
    rfl

end Draft

namespace Declaration
open Reader Draft

variable {env : Env} {d₀ d d' : Draft} {s₀ s s' : State} {r : Registry} {form : Form}

theorem Fresh.waiting_eq (h : Fresh r form d₀) : d₀.waiting = [] := by
  rw [waiting, h.overlap_eq]
  split <;> rfl

theorem runs_packable (h : Runs memberRound env d₀ s₀ d s) (hf : Fresh r form d₀) :
    d.Orderly ∧ d.run.Bounded := by
  induction h with
  | start =>
    refine ⟨tells_slices.accounts_of_waiting hf.waiting_eq, ?_⟩
    rw [hf.run_eq]
    exact BitRun.bounded_empty
  | next before round _ ih =>
    obtain ⟨⟨placed, hpacks, -⟩, ho⟩ :=
      (memberRound_again round).packing ih.1 (runs_settled before hf.settled)
    exact ⟨ho, (hpacks.bounded ih.2).1⟩

theorem Turns.packing (h : Turns env d s d') (hd : d.Orderly) (hs : d.Settled) :
    Packing s.settings d d' := by
  obtain ⟨s', h | h⟩ := h
  · exact ((memberRound_again h).packing hd hs).1
  · obtain ⟨-, rfl, -⟩ := memberRound_done h
    exact packing_of_flush (run_flush _ d) (slices_flush hd _)

def DeclaresBits (env : Env) (d : Draft) (s : State) (x : String × Nat) (d' : Draft) (s' : State) :
    Prop :=
  memberRound d env s = .ok (.again d') s' ∧ d'.bitFields = d.bitFields ++ [x]

/-- Outside a union, a bit field joins those that wait, or starts a new run because it would take
theirs past 32 bits. -/
theorem DeclaresBits.run {x : String × Nat} (h : DeclaresBits env d s x d' s') (hd : d.Orderly)
    (hs : d.Settled) (ho : d.inUnion = false ∨ d.run ≠ {}) :
    d'.run.sizes = d.run.sizes ++ [x] ∨ (d'.run.sizes = [x] ∧ maxBits < d.run.totalBits + x.2) := by
  obtain ⟨round, hx⟩ := h
  rcases (Turns.packing ⟨s', .inl round⟩ hd hs).bitFields with hb | ⟨p, hb, hrun⟩
  · rw [hb] at hx
    exact absurd (congrArg List.length hx) (by simp)
  · have hp : x = (p.name, p.bits) := by simpa using hx.symm.trans hb
    subst hp
    rcases hrun with hrun | ⟨hrun, hfull⟩ | ⟨hu, hrun⟩
    · exact .inl (by rw [hrun, BitRun.sizes_add])
    · exact .inr ⟨by rw [hrun]; rfl, hfull⟩
    · rcases ho with ho | ho
      · rw [hu] at ho
        cases ho
      · exact absurd hrun ho

/-- Bit fields all along a body. Those that wait have one to 32 bits, and at most 32 together. The
bit fields that a round places are those of runs that have waited as they are, each in the smallest
word that holds it, from the lowest bit on or as the mirror image of that. Of two bit fields outside
a union between which nothing is declared, the second starts a new run only if it would take the
run past 32 bits. -/
theorem bit_packing (env : Env) (s₀ : State) (d₀ : Draft) (s₁ : State) (d : Draft) (s : State)
    (opens : Opens env s₀ d₀ s₁) (body : Runs memberRound env d₀ s₁ d s) :
    (d.run.totalBits ≤ 32 ∧ ∀ p ∈ d.run.pending, 1 ≤ p.bits ∧ p.bits ≤ 32) ∧
    (∀ d', Turns env d s d' → ∃ placed, d.run.Packs d.inUnion placed d'.run ∧
      d'.slices = d.slices ++ placed.flatMap (·.slices s.settings.bitOrder) ∧
      ∀ run ∈ placed, run.Packed) ∧
    ∀ x y d₁ s₂ s₃ d₂ s₄, d.inUnion = false → DeclaresBits env d s x d₁ s₂ →
      Runs memberRound env d₁ s₂ d₁ s₃ → DeclaresBits env d₁ s₃ y d₂ s₄ →
      (∃ xs, d₂.run.sizes = xs ++ [x, y]) ∨ 32 < d₁.run.totalBits + y.2 := by
  obtain ⟨_, _, form, typedef, -, -, hopen⟩ := opens
  have hf := (opening_ok hopen).1
  have hs := runs_settled body hf.settled
  obtain ⟨ho, hb⟩ := runs_packable body hf
  refine ⟨⟨hb.total, fun p hp => ⟨(hb.fields p hp).pos, (hb.fields p hp).le⟩⟩, ?_, ?_⟩
  · intro d' ht
    obtain ⟨placed, hpacks, hslices⟩ := ht.packing ho hs
    exact ⟨placed, hpacks, hslices, fun run hr => BitRun.packed ((hpacks.bounded hb).2 run hr)⟩
  · intro x y d₁ s₂ s₃ d₂ s₄ hu hx between hy
    have hlast : ∃ xs, d₁.run.sizes = xs ++ [x] := by
      rcases hx.run ho hs (.inl hu) with h | ⟨h, -⟩
      · exact ⟨_, h⟩
      · exact ⟨[], h⟩
    obtain ⟨xs, hxs⟩ := hlast
    -- the first field still waits, so the second cannot be one that has a word of its own
    have hsome : d₁.run ≠ {} := by
      intro h
      rw [h] at hxs
      exact absurd (congrArg List.length hxs) (by simp [BitRun.sizes])
    have hd₁ := (memberRound_again hx.1).packing ho hs
    rcases hy.run hd₁.2 ((memberRound_again hx.1).settled hs) (.inr hsome) with h | ⟨-, h⟩
    · exact .inl ⟨xs, by rw [h, hxs, List.append_assoc]; rfl⟩
    · exact .inr h

/-- Two bit fields with an empty statement between them, and a field that makes them get their
word. -/
def adjacentTokens : List Token :=
  [⟨.identifier, "struct", "", 1, 1⟩, ⟨.identifier, "A", "", 1, 8⟩, ⟨.leftBrace, "\x7b", "", 1, 10⟩,
   ⟨.identifier, "Boolean", "", 2, 1⟩, ⟨.identifier, "a", "", 2, 9⟩, ⟨.semicolon, ";", "", 2, 10⟩,
   ⟨.semicolon, ";", "", 2, 11⟩,
   ⟨.identifier, "Boolean", "", 3, 1⟩, ⟨.identifier, "b", "", 3, 9⟩, ⟨.semicolon, ";", "", 3, 10⟩,
   ⟨.identifier, "Uint16", "", 4, 1⟩, ⟨.identifier, "c", "", 4, 8⟩, ⟨.semicolon, ";", "", 4, 9⟩,
   ⟨.rightBrace, "\x7d", "", 5, 1⟩, ⟨.semicolon, ";", "", 5, 2⟩, ⟨.eof, "", "", 6, 1⟩]

theorem bit_packing_adjacent :
    ∃ env d₀ s₁ d₁ s₂ s₃ d₂ s₄ d₃, Opens env { unread := adjacentTokens } d₀ s₁ ∧
      d₀.inUnion = false ∧ DeclaresBits env d₀ s₁ ("a", 1) d₁ s₂ ∧
      Runs memberRound env d₁ s₂ d₁ s₃ ∧ DeclaresBits env d₁ s₃ ("b", 1) d₂ s₄ ∧
      Turns env d₂ s₄ d₃ ∧ d₃.run = {} ∧
      (∃ xs, d₂.run.sizes = xs ++ [("a", 1), ("b", 1)]) ∧
      ∃ placed, d₂.run.Packs d₂.inUnion placed d₃.run ∧ ∀ run ∈ placed, run.Packed := by
  let env : Env := ⟨"__", fun _ => ""⟩
  have h : ∃ x ∈ firstBody? env .struct { unread := adjacentTokens },
      ∃ y ∈ again? memberRound env x.1 x.2, ∃ z ∈ again? memberRound env y.1 y.2,
      ∃ v ∈ again? memberRound env z.1 z.2, ∃ w ∈ again? memberRound env v.1 v.2,
        x.1.inUnion = false ∧ y.1.bitFields = x.1.bitFields ++ [("a", 1)] ∧
        y.1.run.totalBits = 1 ∧ z.1 = y.1 ∧ v.1.bitFields = z.1.bitFields ++ [("b", 1)] ∧
        w.1.run = {} := by decide +kernel
  obtain ⟨x, hx, y, hy, z, hz, v, hv, w, hw, hu, ha, hbits, hsame, hb, hrun⟩ := h
  have opens := opens_of_firstBody? hx
  obtain ⟨round₁, shorter₁⟩ := again?_eq_some hy
  obtain ⟨round₂, shorter₂⟩ := again?_eq_some hz
  obtain ⟨round₃, shorter₃⟩ := again?_eq_some hv
  obtain ⟨round₄, -⟩ := again?_eq_some hw
  have between : Runs memberRound env y.1 y.2 z.1 z.2 := Runs.start.next round₂ shorter₂
  have body : Runs memberRound env x.1 x.2 v.1 v.2 :=
    (((Runs.start.next round₁ shorter₁).trans between).next round₃ shorter₃)
  rw [hsame] at between round₃ hb
  have hadjacent := (bit_packing env _ _ _ _ _ opens .start).2.2 ("a", 1) ("b", 1) _ _ _ _ _ hu
    ⟨round₁, ha⟩ between ⟨round₃, hb⟩
  obtain ⟨placed, hpacks, -, hpacked⟩ :=
    (bit_packing env _ _ _ _ _ opens body).2.1 w.1 ⟨w.2, .inl round₄⟩
  refine ⟨env, _, _, _, _, _, _, _, _, opens, hu, ⟨round₁, ha⟩, between, ⟨round₃, hb⟩,
    ⟨w.2, .inl round₄⟩, hrun, ?_, placed, hpacks, hpacked⟩
  rcases hadjacent with hxs | hfull
  · exact hxs
  · rw [hbits] at hfull
    exact absurd hfull (by decide)

end Declaration
end RecordView
