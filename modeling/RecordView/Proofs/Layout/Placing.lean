import RecordView.Proofs.Declaration.Body
import RecordView.Proofs.Layout.Content
import RecordView.Proofs.Layout.Word

/-! Placing the members of a struct: each operation of a draft adds storage units. -/
namespace RecordView

/-- Some elements are added at the end of a list, with these among them. -/
def Adds {α : Type} (before after added : List α) : Prop :=
  ∃ a b, after = before ++ (a ++ added ++ b)

variable {α : Type} {u : Surroundings} {c : Content} {p : Piece} {d : Draft} {o : Overlap} {P : Draft → Prop}
  {f : FieldStatement}

theorem Adds.refl (l : List α) : Adds l l [] := ⟨[], [], by simp⟩

theorem Adds.last (l added : List α) : Adds l (l ++ added) added := ⟨[], [], by simp⟩

theorem Adds.some (l added : List α) : Adds l (l ++ added) [] := ⟨[], added, by simp⟩

theorem Adds.before {l₁ l₂ l₃ a b : List α} (h₁ : Adds l₁ l₂ a) (h₂ : Adds l₂ l₃ b) : Adds l₁ l₃ b := by
  obtain ⟨x, y, rfl⟩ := h₁
  obtain ⟨z, w, rfl⟩ := h₂
  exact ⟨x ++ a ++ y ++ z, w, by simp⟩

theorem Adds.after {l₁ l₂ l₃ a b : List α} (h₁ : Adds l₁ l₂ a) (h₂ : Adds l₂ l₃ b) : Adds l₁ l₃ a := by
  obtain ⟨x, y, rfl⟩ := h₁
  obtain ⟨z, w, rfl⟩ := h₂
  exact ⟨x, y ++ z ++ b ++ w, by simp⟩

namespace Content

/-- The kind and the size of a field that is no bit field. -/
def whole? : Content → Option (FieldKind × Nat)
  | .bits _ _ _ => none
  | .plain kind size _ => some (kind, size)
  | .tail p => some (.flexible p, 0)

structure Fills (u : Surroundings) (c : Content) (f : Field) (p : Piece) : Prop where
  content : c.whole? = some (f.kind, p.bytes)
  pack : p.pack = u.settings.pack
  fields : p.fields = [f]
  offset : f.offset = 0
  bytes : f.bytes = p.bytes
  natural : NaturalAlignment u.registry f.kind p.natural
  whole : ∀ b, f.kind ≠ .bits b

theorem Fills.sound {f : Field} (h : c.Fills u f p) (hr : u.registry.Aligned) : p.Sound u.registry := by
  refine ⟨.inl ⟨f, h.fields, h.whole⟩, fun g hg => ?_, h.natural.pos hr h.whole⟩
  rw [h.fields] at hg
  obtain rfl := List.mem_singleton.mp hg
  exact ⟨h.offset, h.bytes, h.natural⟩

/-- A bit field that a statement declares fits into a word. -/
theorem Admitted.bounded {count declaredBytes : Nat} {boolean : Bool}
    (h : (Content.bits count boolean declaredBytes).Admitted u) (name : String) (padding : Bool)
    (line : Nat) : PendingBits.Bounded ⟨name, count, boolean, declaredBytes, padding, line⟩ := by
  cases h with
  | bits _ pos le => exact ⟨pos, le, List.mem_cons_self⟩
  | declaredBits pos integer le =>
    have hbytes := integer_bytes integer
    refine ⟨pos, ?_, List.mem_cons_of_mem _ hbytes⟩
    simp only [List.mem_cons, List.not_mem_nil, or_false] at hbytes
    have hmax : maxBits = 32 := rfl
    dsimp only
    omega

end Content

namespace Draft

/-- The members of an open union that wait for its place. -/
def waiting (d : Draft) : List Field := (d.overlap.getD {}).members

def store (d : Draft) (p : Piece) : Draft :=
  (d.allocate p.bytes p.alignment).2.addAll
    (p.fields.map (.shift (d.allocate p.bytes p.alignment).1))

/-! ## What placing keeps -/

/-- A draft goes on: it keeps its header and what it has placed, and its alignment does not shrink. -/
structure Follows (d d' : Draft) : Prop where
  name : d'.name = d.name
  discarded : d'.discarded = d.discarded
  form : d'.form = d.form
  location : d'.location = d.location
  parent : d'.parent = d.parent
  alignment : d.alignment ≤ d'.alignment
  steps : d.steps <+: d'.steps

/-- A draft goes on with the names that it has, inside or outside a union as before. -/
structure Continues (d d' : Draft) : Prop extends Follows d d' where
  names : d'.names = d.names
  flexible : d'.flexible = d.flexible
  inUnion : d'.inUnion = d.inUnion

theorem Follows.refl (d : Draft) : Follows d d :=
  ⟨rfl, rfl, rfl, rfl, rfl, Nat.le_refl _, List.prefix_rfl⟩

theorem Continues.refl (d : Draft) : Continues d d := ⟨.refl d, rfl, rfl, rfl⟩

section

variable {d d' d'' : Draft}

theorem Follows.trans (h : Follows d d') (h' : Follows d' d'') : Follows d d'' :=
  ⟨h'.name.trans h.name, h'.discarded.trans h.discarded, h'.form.trans h.form,
    h'.location.trans h.location, h'.parent.trans h.parent, Nat.le_trans h.alignment h'.alignment,
    h.steps.trans h'.steps⟩

theorem Continues.trans (h : Continues d d') (h' : Continues d' d'') : Continues d d'' :=
  ⟨h.toFollows.trans h'.toFollows, h'.names.trans h.names, h'.flexible.trans h.flexible,
    h'.inUnion.trans h.inUnion⟩

/-- An open array can be noted before and after. -/
theorem Continues.withFlexible (h : Continues d d') (name : Option String) :
    Continues { d with flexible := name } { d' with flexible := name } :=
  ⟨⟨h.name, h.discarded, h.form, h.location, h.parent, h.alignment, h.steps⟩, h.names, rfl, h.inUnion⟩

end

theorem continues_add (d : Draft) (f : Field) : Continues d (d.add f) := by
  unfold add
  split
  · rename_i o ho
    split
    · exact ⟨⟨rfl, rfl, rfl, rfl, rfl, Nat.le_refl _, List.prefix_rfl⟩, rfl, rfl, by simp [inUnion, ho]⟩
    · exact ⟨⟨rfl, rfl, rfl, rfl, rfl, Nat.le_refl _, List.prefix_append _ _⟩, rfl, rfl, rfl⟩
  · exact ⟨⟨rfl, rfl, rfl, rfl, rfl, Nat.le_refl _, List.prefix_append _ _⟩, rfl, rfl, rfl⟩

theorem continues_addAll (d : Draft) (fs : List Field) : Continues d (d.addAll fs) := by
  induction fs generalizing d with
  | nil => exact .refl d
  | cons f fs ih => exact (continues_add d f).trans (ih _)

theorem continues_allocate (d : Draft) (size alignment : Nat) :
    Continues d (d.allocate size alignment).2 := by
  unfold allocate
  split
  · rename_i o ho
    exact ⟨⟨rfl, rfl, rfl, rfl, rfl, Nat.le_refl _, List.prefix_rfl⟩, rfl, rfl, by simp [inUnion, ho]⟩
  · exact ⟨⟨rfl, rfl, rfl, rfl, rfl, Nat.le_max_left _ _, List.prefix_rfl⟩, rfl, rfl, rfl⟩

theorem continues_store (d : Draft) (p : Piece) : Continues d (d.store p) :=
  (continues_allocate d _ _).trans (continues_addAll _ _)

/-! ## Pieces -/

theorem add_steps (h : d.inAnonymousUnion = false) (f : Field) :
    d.add f = { d with steps := d.steps ++ [.field f] } := by
  unfold add
  split
  · rename_i o ho
    rw [if_neg]
    intro hf
    simp [inAnonymousUnion, inUnion, ho, hf] at h
  · rfl

/-- Outside an anonymous union, fields are recorded at once. -/
theorem addAll_steps (h : d.inAnonymousUnion = false) (fs : List Field) :
    d.addAll fs = { d with steps := d.steps ++ fs.map .field } := by
  induction fs generalizing d with
  | nil => simp [addAll]
  | cons f fs ih =>
    have hs : d.addAll (f :: fs) = (d.add f).addAll fs := rfl
    have ha : (d.add f).inAnonymousUnion = false := by rw [add_steps h]; exact h
    rw [hs, ih ha, add_steps h]
    simp

theorem addAll_waiting (h : d.overlap = some o) (hf : d.form = .struct) (fs : List Field) :
    d.addAll fs = { d with overlap := some { o with members := o.members ++ fs } } := by
  induction fs generalizing d o with
  | nil => simp [addAll, ← h]
  | cons f fs ih =>
    have ha : d.add f = { d with overlap := some { o with members := o.members ++ [f] } } := by
      simp [add, h, hf]
    have hs : d.addAll (f :: fs) = (d.add f).addAll fs := rfl
    have hf' : (d.add f).form = .struct := by rw [ha]; exact hf
    rw [hs, ih (congrArg Draft.overlap ha) hf', ha]
    simp

theorem store_outside (h : d.overlap = none) (p : Piece) :
    d.store p =
      { d with
        cursor := alignUp d.cursor p.alignment + p.bytes
        alignment := max d.alignment p.alignment
        steps := d.steps ++
          (StorageUnit.single (alignUp d.cursor p.alignment) p).fields.map .field } := by
  have ha : d.allocate p.bytes p.alignment =
      (alignUp d.cursor p.alignment,
        { d with
          cursor := alignUp d.cursor p.alignment + p.bytes
          alignment := max d.alignment p.alignment }) := by
    simp [allocate, h]
  have hd : d.inAnonymousUnion = false := by simp [inAnonymousUnion, inUnion, h]
  rw [store, ha]
  dsimp only
  rw [addAll_steps]
  · simp [StorageUnit.fields, StorageUnit.pieces, StorageUnit.start]
  · exact hd

theorem allocate_inside (h : d.overlap = some o) (size alignment : Nat) :
    d.allocate size alignment =
      (0, { d with
        overlap := some ⟨max o.width size, max o.alignment alignment, o.members⟩ }) := by
  simp [allocate, h]

theorem map_shift_zero (fs : List Field) : fs.map (.shift 0) = fs := List.map_id _

theorem store_inside (h : d.overlap = some o) (hf : d.form = .struct) (p : Piece) :
    d.store p =
      { d with
        overlap := some
          ⟨max o.width p.bytes, max o.alignment p.alignment, o.members ++ p.fields⟩ } := by
  rw [store, allocate_inside h]
  dsimp only
  rw [addAll_waiting rfl, map_shift_zero]
  exact hf

/-- In a named union a piece starts where all members start. -/
theorem store_named (h : d.overlap = some o) (hf : d.form ≠ .struct) (p : Piece) :
    d.store p =
      { d with
        overlap := some ⟨max o.width p.bytes, max o.alignment p.alignment, o.members⟩
        steps := d.steps ++ p.fields.map .field } := by
  rw [store, allocate_inside h]
  dsimp only
  rw [addAll_steps, map_shift_zero]
  simp [inAnonymousUnion, hf]

/-- A member of a union is counted in its size and alignment. -/
theorem overlap_store (ho : d.overlap = some o) (p : Piece) :
    ∃ fs, (d.store p).overlap = some ⟨max o.width p.bytes, max o.alignment p.alignment, fs⟩ := by
  by_cases hform : d.form = .struct
  · rw [store_inside ho hform]
    exact ⟨_, rfl⟩
  · rw [store_named ho hform]
    exact ⟨_, rfl⟩

theorem alignment_store (ho : d.overlap = some o) (p : Piece) : (d.store p).alignment = d.alignment := by
  by_cases hform : d.form = .struct
  · rw [store_inside ho hform]
  · rw [store_named ho hform]

/-! ## Words and fields -/

def wordPiece (s : Settings) (run : BitRun) : Piece :=
  ⟨s.pack, run.wordBytes, run.wordBytes, wordFields run s.bitOrder 0⟩

theorem wordFields_shift (run : BitRun) (order : BitOrder) (offset : Nat) :
    (wordFields run order 0).map (.shift offset) = wordFields run order offset := by
  simp [wordFields, Field.shift]

theorem flush_of_isEmpty (s : Settings) (h : d.run.isEmpty = true) : d.flush s = d := if_pos h

theorem flush_eq (s : Settings) (h : d.run.isEmpty = false) :
    d.flush s =
      { (d.store (wordPiece s d.run)).note
          (.flushed d.run.pending.length d.run.totalBits d.run.wordBytes) with run := {} } := by
  unfold flush
  rw [h, store]
  simp only [wordPiece, Piece.alignment, wordFields_shift]
  rfl

theorem continues_flush (s : Settings) (d : Draft) : Continues d (d.flush s) := by
  cases hr : d.run.isEmpty with
  | true =>
    rw [flush_of_isEmpty s hr]
    exact .refl d
  | false =>
    rw [flush_eq s hr]
    exact (continues_store d _).trans
      ⟨⟨rfl, rfl, rfl, rfl, rfl, Nat.le_refl _, List.prefix_append _ _⟩, rfl, rfl, rfl⟩

theorem follows_flush (s : Settings) (d : Draft) : Follows d (d.flush s) := (continues_flush s d).toFollows

theorem place_eq {s : Settings} {alignment natural : Nat} (d : Draft) (name : String)
    (kind : FieldKind) (size : Nat) (padding : Bool) (line : Nat)
    (h : alignment = min s.pack.bytes natural) :
    d.place s name kind size alignment padding line =
      (d.flush s).store ⟨s.pack, natural, size, [⟨name, kind, 0, size, padding, line⟩]⟩ := by
  simp [place, store, Piece.alignment, addAll, Field.shift, h]

/-- What flushing and waiting keep, a bit field that is added keeps. -/
theorem addBits_induction {s : Settings} {p : PendingBits} (hd : P d) (hflush : ∀ d, P d → P (d.flush s))
    (hpend : ∀ d, P d → P (d.pend p)) : P (d.addBits s p) := by
  have hroom : P (d.room s p.bits) := by
    unfold room
    split
    · exact hd
    · exact hflush d hd
  unfold addBits
  dsimp only
  split
  · exact hflush _ (hpend _ hroom)
  · exact hpend _ hroom

theorem addBits_inUnion (hu : d.inUnion = true) (hrun : d.run.isEmpty = true) (s : Settings)
    (p : PendingBits) : d.addBits s p = (d.pend p).flush s := by
  have hroom : d.room s p.bits = d := by
    unfold room
    split
    · rfl
    · exact flush_of_isEmpty s hrun
  unfold addBits
  dsimp only
  rw [hroom]
  exact if_pos hu

/-- A field statement lets a bit field wait, or places a field behind those that wait. -/
theorem put_cases (hc : c.Admitted u)
    (hbits : ∀ count boolean declaredBytes, c = .bits count boolean declaredBytes →
      P (addBits u.settings { d with names := d.names ++ [f.name.text] }
        ⟨f.name.text, count, boolean, declaredBytes, f.isPadding u, f.name.line⟩))
    (hwhole : ∀ kind size p tail, c.Fills u ⟨f.name.text, kind, 0, size, f.isPadding u, f.name.line⟩ p →
      P { (flush u.settings { d with names := d.names ++ [f.name.text] }).store p with flexible := tail }) :
    P (f.put u d c) := by
  cases c with
  | bits count boolean declaredBytes => exact hbits count boolean declaredBytes rfl
  | plain kind size alignment =>
    cases hc with
    | @plain _ _ natural _ limited own whole =>
      dsimp only [FieldStatement.put]
      rw [place_eq _ _ _ _ _ _ limited]
      exact hwhole kind size ⟨_, natural, _, _⟩ (Draft.flexible _) ⟨rfl, rfl, rfl, rfl, rfl, own, whole⟩
  | tail p =>
    dsimp only [FieldStatement.put]
    rw [place_eq _ _ _ _ _ _ (one_eq_min _)]
    exact hwhole _ 0 ⟨_, 1, _, _⟩ _ ⟨rfl, rfl, rfl, rfl, rfl, .flexible p, nofun⟩

/-- What flushing, waiting and placing keep, a field statement keeps. -/
theorem put_induction (hc : c.Admitted u) (hd : P { d with names := d.names ++ [f.name.text] })
    (hflush : ∀ d, P d → P (d.flush u.settings))
    (hpend : ∀ d p, p.Bounded → c = .bits p.bits p.boolean p.declaredBytes → P d → P (d.pend p))
    (hstore : ∀ d g p, c.Fills u g p → P d → P (d.store p))
    (hopen : ∀ d tail, P d → P { d with flexible := tail }) : P (f.put u d c) := by
  refine put_cases hc ?_ fun kind size p tail hp => hopen _ tail (hstore _ _ p hp (hflush _ hd))
  rintro count boolean declaredBytes rfl
  exact addBits_induction hd hflush fun d => hpend d _ (hc.bounded _ _ _) rfl

theorem continues_addBits (s : Settings) (d : Draft) (p : PendingBits) : Continues d (d.addBits s p) := by
  refine addBits_induction (.refl d) ?_ ?_
  · intro d' h
    exact h.trans (continues_flush s d')
  · intro d' h
    exact h.trans ⟨⟨rfl, rfl, rfl, rfl, rfl, Nat.le_refl _, List.prefix_rfl⟩, rfl, rfl, rfl⟩

theorem continues_place (s : Settings) (d : Draft) (name : String) (kind : FieldKind)
    (size alignment : Nat) (padding : Bool) (line : Nat) :
    Continues d (d.place s name kind size alignment padding line) :=
  (continues_flush s d).trans ((continues_allocate _ _ _).trans (continues_add _ _))

/-- A field statement adds its name, and may note an open array. -/
theorem continues_put (f : FieldStatement) (u : Surroundings) (d : Draft) (c : Content) :
    Continues { d with names := d.names ++ [f.name.text], flexible := (f.put u d c).flexible }
      (f.put u d c) := by
  let named : Draft := { d with names := d.names ++ [f.name.text] }
  cases c with
  | bits count boolean declaredBytes => exact (continues_addBits _ named _).withFlexible _
  | plain kind size alignment => exact (continues_place _ named _ _ _ _ _ _).withFlexible _
  | tail p => exact (continues_place _ named _ _ _ _ _ _).withFlexible _

theorem follows_put (f : FieldStatement) (u : Surroundings) (d : Draft) (c : Content) :
    Follows d (f.put u d c) := by
  have h := continues_put f u d c
  exact ⟨h.name, h.discarded, h.form, h.location, h.parent, h.alignment, h.steps⟩

theorem continues_placeUnion (d : Draft) (o : Overlap) : Continues d (d.placeUnion o) := by
  unfold placeUnion
  dsimp only
  generalize o.members.map _ = fs
  exact (continues_addAll d fs).trans
    ⟨⟨rfl, rfl, rfl, rfl, rfl, Nat.le_max_left _ _, List.prefix_append _ _⟩, rfl, rfl, rfl⟩

/-- A union that is closed is left, whether it has a size or not. -/
theorem continues_closeUnion (s : Settings) (d : Draft) :
    Continues { d.flush s with overlap := none } (d.closeUnion s).1 := by
  unfold closeUnion
  dsimp only
  split
  · exact .refl _
  · exact continues_placeUnion _ _

theorem follows_closeUnion (s : Settings) (d : Draft) : Follows d (d.closeUnion s).1 := by
  have hclosed : Follows d { d.flush s with overlap := none } :=
    (follows_flush s d).trans ⟨rfl, rfl, rfl, rfl, rfl, Nat.le_refl _, List.prefix_rfl⟩
  exact hclosed.trans (continues_closeUnion s d).toFollows

def layout (d : Draft) : Form × List Field × Nat × Option Overlap :=
  (d.form, d.fields, d.cursor, d.overlap)

theorem layout_flush (s : Settings) (h : d.run.isEmpty = false) :
    (d.flush s).layout = (d.store (wordPiece s d.run)).layout := by
  rw [flush_eq s h]
  simp [layout, note, fields, Step.field?]

/-- The storage units of a struct so far, and the pieces of the union that is open. -/
structure Laid (r : Registry) (base : Nat) (d : Draft) (us : List StorageUnit) (ps : List Piece) :
    Prop where
  form : d.form = .struct
  fields : d.fields = us.flatMap StorageUnit.fields
  tiled : Tiled base us d.cursor
  units : ∀ u ∈ us, u.Sound r
  pieces : ∀ p ∈ ps, p.Sound r
  outside : d.overlap = none → ps = []
  inside : ∀ o, d.overlap = some o →
    o = ⟨StorageUnit.maxBytes ps, StorageUnit.maxAlignment ps, ps.flatMap (·.fields)⟩

/-- Some units and pieces are added under the given setting. -/
structure Grown (r : Registry) (base : Nat) (pack : Pack) (d : Draft) (us : List StorageUnit)
    (ps : List Piece) (d' : Draft) (us' : List StorageUnit) (ps' : List Piece) : Prop where
  laid : Laid r base d' us' ps'
  fields : Adds d.fields d'.fields []
  waiting : Adds d.waiting d'.waiting []
  units : ∀ u ∈ us', u ∈ us ∨
    ∃ n p, u = .single n p ∧ p.pack = pack ∧ Adds d.fields d'.fields u.fields
  pieces : ∀ p ∈ ps', p ∈ ps ∨ (p.pack = pack ∧ Adds d.waiting d'.waiting p.fields)

variable {r : Registry} {base : Nat} {pack : Pack} {d d' : Draft} {us : List StorageUnit}
  {ps : List Piece}

def Grows (r : Registry) (base : Nat) (pack : Pack) (d : Draft) (us : List StorageUnit)
    (ps : List Piece) (d' : Draft) : Prop := ∃ us' ps', Grown r base pack d us ps d' us' ps'

theorem Laid.congr (h : Laid r base d us ps) (hd : d'.layout = d.layout) : Laid r base d' us ps := by
  simp only [layout, Prod.mk.injEq] at hd
  obtain ⟨hf, hs, hc, ho⟩ := hd
  exact ⟨by rw [hf, h.form], by rw [hs, h.fields], by rw [hc]; exact h.tiled, h.units, h.pieces,
    by rw [ho]; exact h.outside, by rw [ho]; exact h.inside⟩

theorem Laid.grown (h : Laid r base d us ps) (hd : d'.layout = d.layout) :
    Grown r base pack d us ps d' us ps := by
  have hl := h.congr hd
  simp only [layout, Prod.mk.injEq] at hd
  obtain ⟨-, hs, -, ho⟩ := hd
  refine ⟨hl, ?_, ?_, fun _ hu => .inl hu, fun _ hp => .inl hp⟩
  · rw [hs]
    exact .refl _
  · simp only [waiting, ho]
    exact .refl _

theorem Laid.grows (h : Laid r base d us ps) (hd : d'.layout = d.layout) :
    Grows r base pack d us ps d' := ⟨us, ps, h.grown hd⟩

/-- One thing is placed after another. -/
theorem Grown.trans {us' : List StorageUnit} {ps' : List Piece} {d'' : Draft}
    (h : Grown r base pack d us ps d' us' ps') (h' : Grows r base pack d' us' ps' d'') :
    Grows r base pack d us ps d'' := by
  obtain ⟨us'', ps'', h'⟩ := h'
  refine ⟨us'', ps'', h'.laid, h.fields.before h'.fields, h.waiting.before h'.waiting, ?_, ?_⟩
  · intro u hu
    rcases h'.units u hu with hu | ⟨n, p, rfl, hp, ha⟩
    · rcases h.units u hu with hu | ⟨n, p, rfl, hp, ha⟩
      · exact .inl hu
      · exact .inr ⟨n, p, rfl, hp, ha.after h'.fields⟩
    · exact .inr ⟨n, p, rfl, hp, h.fields.before ha⟩
  · intro p hp
    rcases h'.pieces p hp with hp | ⟨hp, ha⟩
    · rcases h.pieces p hp with hp | ⟨hp, ha⟩
      · exact .inl hp
      · exact .inr ⟨hp, ha.after h'.waiting⟩
    · exact .inr ⟨hp, h.waiting.before ha⟩

/-! ## What the operations add -/

theorem fields_append (d : Draft) (fs : List Field) :
    (d.steps ++ fs.map Step.field).filterMap Step.field? = d.fields ++ fs := by
  have hid : (fs.map Step.field).filterMap Step.field? = fs := by
    rw [List.filterMap_map]
    exact List.filterMap_some
  rw [List.filterMap_append, hid]
  rfl

/-- A piece is placed at once, or waits with the others and the union is no smaller than it. -/
theorem store_cases (d : Draft) (p : Piece) :
    ((d.overlap = none ∨ d.form ≠ .struct) ∧ (d.store p).waiting = d.waiting ∧
      ∃ n, (n = 0 ∨ n = alignUp d.cursor p.alignment) ∧
        (d.store p).fields = d.fields ++ p.fields.map (.shift n)) ∨
    (d.form = .struct ∧ (d.store p).fields = d.fields ∧
      (d.store p).waiting = d.waiting ++ p.fields ∧
      ((d.store p).overlap.getD {}).width = max (d.overlap.getD {}).width p.bytes) := by
  cases ho : d.overlap with
  | none =>
    rw [store_outside ho]
    refine .inl ⟨.inl rfl, rfl, _, .inr rfl, (fields_append d _).trans ?_⟩
    simp [StorageUnit.fields, StorageUnit.pieces, StorageUnit.start]
  | some o =>
    by_cases hf : d.form = .struct
    · rw [store_inside ho hf]
      exact .inr ⟨hf, rfl, by simp only [waiting, ho, Option.getD_some], rfl⟩
    · -- a member of a named union is recorded at once, from its first byte
      rw [store_named ho hf]
      refine .inl ⟨.inr hf, by simp only [waiting, ho, Option.getD_some], 0, .inl rfl, ?_⟩
      rw [map_shift_zero]
      exact fields_append d _

theorem laid_outside (h : Laid r base d us ps) (ho : d.overlap = none) (hp : p.Sound r) :
    Laid r base (d.store p) (us ++ [.single (alignUp d.cursor p.alignment) p]) [] := by
  rw [store_outside ho]
  refine ⟨h.form, ?_, ?_, ?_, nofun, fun _ => rfl, ?_⟩
  · rw [List.flatMap_append, List.flatMap_singleton, ← h.fields]
    exact fields_append d _
  · exact tiled_append h.tiled (isLeast_alignUp hp.alignment_pos)
  · intro u hu
    rcases List.mem_append.mp hu with hu | hu
    · exact h.units u hu
    · obtain rfl := List.mem_singleton.mp hu
      intro q hq
      obtain rfl := List.mem_singleton.mp hq
      exact hp
  · intro o ho'
    rw [ho] at ho'
    cases ho'

theorem laid_inside (h : Laid r base d us ps) (ho : d.overlap = some o) (hp : p.Sound r) :
    Laid r base (d.store p) us (ps ++ [p]) := by
  rw [store_inside ho h.form]
  refine ⟨h.form, h.fields, h.tiled, h.units, ?_, nofun, ?_⟩
  · intro q hq
    rcases List.mem_append.mp hq with hq | hq
    · exact h.pieces q hq
    · obtain rfl := List.mem_singleton.mp hq
      exact hp
  · rintro o' ⟨⟩
    obtain rfl := h.inside o ho
    simp [StorageUnit.maxBytes, StorageUnit.maxAlignment]

theorem grows_store (h : Laid r base d us ps) (hp : p.Sound r) : Grows r base p.pack d us ps (d.store p) := by
  cases ho : d.overlap with
  | none =>
    let u : StorageUnit := .single (alignUp d.cursor p.alignment) p
    have hf : (d.store p).fields = d.fields ++ u.fields := by
      rw [store_outside ho]
      exact fields_append d u.fields
    have hw : (d.store p).waiting = d.waiting := by rw [store_outside ho]; rfl
    refine ⟨us ++ [u], [], laid_outside h ho hp, ?_, ?_, ?_, nofun⟩
    · rw [hf]
      exact .some _ _
    · rw [hw]
      exact .refl _
    · intro v hv
      rcases List.mem_append.mp hv with hv | hv
      · exact .inl hv
      · obtain rfl := List.mem_singleton.mp hv
        rw [hf]
        exact .inr ⟨_, p, rfl, rfl, .last _ _⟩
  | some o =>
    have hf : (d.store p).fields = d.fields := by rw [store_inside ho h.form]; rfl
    have hw : (d.store p).waiting = d.waiting ++ p.fields := by
      simp only [store_inside ho h.form, waiting, ho, Option.getD_some]
    refine ⟨us, ps ++ [p], laid_inside h ho hp, ?_, ?_, fun u hu => .inl hu, ?_⟩
    · rw [hf]
      exact .refl _
    · rw [hw]
      exact .some _ _
    · intro q hq
      rcases List.mem_append.mp hq with hq | hq
      · exact .inl hq
      · obtain rfl := List.mem_singleton.mp hq
        rw [hw]
        exact .inr ⟨rfl, .last _ _⟩

theorem Grows.congr {d'' : Draft} (h : Grows r base pack d us ps d') (hd : d''.layout = d'.layout) :
    Grows r base pack d us ps d'' := by
  obtain ⟨us', ps', h⟩ := h
  exact h.trans (h.laid.grows hd)

theorem mem_wordFields {run : BitRun} {order : BitOrder} {offset : Nat} {f : Field}
    (h : f ∈ wordFields run order offset) :
    f.offset = offset ∧ f.bytes = run.wordBytes ∧ ∃ b, f.kind = .bits b ∧ b.word = run.wordBytes := by
  obtain ⟨x, -, rfl⟩ := List.mem_map.mp h
  exact ⟨rfl, rfl, _, rfl, rfl⟩

theorem length_wordFields (run : BitRun) (order : BitOrder) (offset : Nat) :
    (wordFields run order offset).length = run.pending.length := by
  have hs (n : Nat) (ps : List PendingBits) : (BitRun.starts n ps).length = ps.length := by
    induction ps generalizing n with
    | nil => rfl
    | cons p ps ih => simp [BitRun.starts, ih]
  simp [wordFields, BitRun.assign, hs]

theorem wordPiece_sound (s : Settings) {run : BitRun} (h : run.isEmpty = false) :
    (wordPiece s run).Sound r := by
  refine ⟨.inr ⟨?_, ?_⟩, ?_, run.wordBytes_pos⟩
  · rw [← List.length_pos_iff, wordPiece, length_wordFields]
    simpa [BitRun.isEmpty, List.isEmpty_eq_false_iff, List.length_pos_iff] using h
  · intro f hf
    exact (mem_wordFields hf).2.2
  · intro f hf
    obtain ⟨ho, hb, b, hk, hw⟩ := mem_wordFields hf
    refine ⟨ho, hb, ?_⟩
    rw [hk, wordPiece, ← hw]
    exact .bits b

theorem grows_flush (s : Settings) (h : Laid r base d us ps) :
    Grows r base s.pack d us ps (d.flush s) := by
  cases hr : d.run.isEmpty with
  | true =>
    rw [flush_of_isEmpty s hr]
    exact h.grows rfl
  | false =>
    exact (grows_store h (wordPiece_sound s hr)).congr (layout_flush s hr)

/-- A field statement adds units under the setting that is in effect. -/
theorem grows_put (h : Laid u.registry base d us ps) (hr : u.registry.Aligned) (hc : c.Admitted u) :
    Grows u.registry base u.settings.pack d us ps (f.put u d c) := by
  refine put_induction hc (h.grows rfl) ?_ (fun _ _ _ _ hg => hg.congr rfl) ?_ fun _ _ hg => hg.congr rfl
  · rintro d' ⟨us', ps', hg⟩
    exact hg.trans (grows_flush u.settings hg.laid)
  · rintro d' g p hp ⟨us', ps', hg⟩
    have hstore := grows_store hg.laid (hp.sound hr)
    rw [hp.pack] at hstore
    exact hg.trans hstore

/-! ## Anonymous unions -/

theorem inUnion_of_anonymous (h : d.inAnonymousUnion = true) : d.inUnion = true := by
  simp only [inAnonymousUnion, Bool.and_eq_true] at h
  exact h.1

theorem overlap_eq_none (h : d.inUnion = false) : d.overlap = none := by
  simpa [inUnion] using h

theorem overlap_flush (s : Settings) (h : d.inUnion = false) : (d.flush s).overlap = none :=
  overlap_eq_none ((continues_flush s d).inUnion.trans h)

/-- A union that is opened has no members yet. -/
theorem members_openUnion (s : Settings) (hd : d.inUnion = false) :
    (d.openUnion s).fields ++ (d.openUnion s).waiting = (d.flush s).fields ++ (d.flush s).waiting := by
  simp only [fields, waiting, overlap_flush s hd, openUnion, Option.getD_some, Option.getD_none]

theorem grows_openUnion (s : Settings) (h : Laid r base d us ps) (hd : d.inUnion = false) :
    Grows r base s.pack d us ps (d.openUnion s) := by
  obtain ⟨us', ps', hg⟩ := grows_flush s h
  have ho : (d.flush s).overlap = none := overlap_flush s hd
  obtain rfl := hg.laid.outside ho
  have hl : Laid r base (d.openUnion s) us' [] := by
    refine ⟨hg.laid.form, hg.laid.fields, hg.laid.tiled, hg.laid.units, nofun, nofun, ?_⟩
    rintro o ⟨⟩
    rfl
  refine hg.trans ⟨us', [], hl, .refl _, ?_, fun _ hu => .inl hu, nofun⟩
  simp only [waiting, ho, openUnion]
  exact .refl _

theorem maxAlignment_pos (ps : List Piece) : 0 < StorageUnit.maxAlignment ps := by
  have hmax : (1 :: ps.map (·.alignment)).max? = some (StorageUnit.maxAlignment ps) :=
    List.max?_cons'
  exact (List.max?_le_iff hmax).mp (Nat.le_refl _) 1 List.mem_cons_self

theorem closeUnion_empty (s : Settings) (hrun : d.run.isEmpty = true) (ho : d.overlap = some o)
    (hw : o.width = 0) : (d.closeUnion s).1 = { d with overlap := none } := by
  have hflush : d.flush s = d := if_pos hrun
  simp [closeUnion, hflush, ho, hw]

theorem closeUnion_filled (s : Settings) (hrun : d.run.isEmpty = true) (ho : d.overlap = some o)
    (hw : o.width ≠ 0) :
    (d.closeUnion s).1 =
      { d with
        overlap := none
        cursor := alignUp d.cursor o.alignment + alignUp o.width o.alignment
        alignment := max d.alignment o.alignment
        steps := d.steps ++ (o.members.map (.shift (alignUp d.cursor o.alignment))).map .field ++
          [.note (.overlapped (alignUp d.cursor o.alignment) o.width)] } := by
  have hflush : d.flush s = d := if_pos hrun
  unfold closeUnion
  rw [hflush]
  simp only [ho, Option.getD_some, if_neg hw]
  unfold placeUnion
  dsimp only
  rw [addAll_steps rfl]
  rfl

theorem fields_closeUnion (s : Settings) (hrun : d.run.isEmpty = true) (ho : d.overlap = some o)
    (hw : o.width ≠ 0) :
    (d.closeUnion s).1.fields =
      d.fields ++ o.members.map (.shift (alignUp d.cursor o.alignment)) := by
  rw [closeUnion_filled s hrun ho hw, ← fields_append]
  simp [fields, Step.field?]

/-- The members of a union that is closed get their places, or the union has no size. -/
theorem closeUnion_cases (s : Settings) (hd : d.inUnion = true) (hrun : d.run.isEmpty = true) :
    (d.closeUnion s).1.waiting = [] ∧
      (((d.overlap.getD {}).width = 0 ∧ (d.closeUnion s).1.fields = d.fields) ∨
        ∃ n, (d.closeUnion s).1.fields = d.fields ++ d.waiting.map (.shift n)) := by
  obtain ⟨o, ho⟩ := Option.isSome_iff_exists.mp hd
  by_cases hw : o.width = 0
  · rw [closeUnion_empty s hrun ho hw, ho]
    exact ⟨rfl, .inl ⟨hw, rfl⟩⟩
  · refine ⟨?_, .inr ⟨alignUp d.cursor o.alignment, ?_⟩⟩
    · rw [closeUnion_filled s hrun ho hw]
      rfl
    · rw [waiting, ho]
      exact fields_closeUnion s hrun ho hw

/-- The pieces of a union become one unit when it is closed. -/
theorem laid_closeUnion (s : Settings) (h : Laid r base d us ps) (hd : d.inUnion = true)
    (hrun : d.run.isEmpty = true) :
    ∃ us', Laid r base (d.closeUnion s).1 us' [] ∧
      (us' = us ∨ ∃ n, us' = us ++ [.union n ps] ∧ d.waiting = ps.flatMap (·.fields) ∧
        (d.closeUnion s).1.fields = d.fields ++ (StorageUnit.union n ps).fields) := by
  obtain ⟨o, ho⟩ := Option.isSome_iff_exists.mp hd
  obtain rfl := h.inside o ho
  by_cases hw : StorageUnit.maxBytes ps = 0
  · refine ⟨us, ?_, .inl rfl⟩
    rw [closeUnion_empty s hrun ho hw]
    exact ⟨h.form, h.fields, h.tiled, h.units, nofun, fun _ => rfl, nofun⟩
  · let n := alignUp d.cursor (StorageUnit.maxAlignment ps)
    have hf : (d.closeUnion s).1.fields = d.fields ++ (StorageUnit.union n ps).fields :=
      fields_closeUnion s hrun ho hw
    refine ⟨us ++ [.union n ps], ?_, .inr ⟨n, rfl, ?_, hf⟩⟩
    · refine ⟨?_, ?_, ?_, ?_, nofun, fun _ => rfl, ?_⟩
      · rw [closeUnion_filled s hrun ho hw]
        exact h.form
      · rw [hf, h.fields, List.flatMap_append, List.flatMap_singleton]
      · rw [closeUnion_filled s hrun ho hw]
        exact tiled_append h.tiled (isLeast_alignUp (maxAlignment_pos ps))
      · intro u hu
        rcases List.mem_append.mp hu with hu | hu
        · exact h.units u hu
        · obtain rfl := List.mem_singleton.mp hu
          exact h.pieces
      · rw [closeUnion_filled s hrun ho hw]
        exact nofun
    · simp only [waiting, ho, Option.getD_some]

end Draft
end RecordView
