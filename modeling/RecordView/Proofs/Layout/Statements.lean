import RecordView.Proofs.Declaration.Registry

/-! Every field statement makes one field: whether it is placed at once, waits for a word or waits for
the place of a union, its field comes after those of the statements before it. -/
namespace RecordView

def Field.unplaced (f : Field) : Field :=
  match f.kind with
  | .bits b => { f with kind := .bits { b with offset := 0, word := 0 }, offset := 0, bytes := 0 }
  | _ => { f with offset := 0 }

theorem Field.unplaced_shift (n : Nat) (f : Field) : (f.shift n).unplaced = f.unplaced := by
  unfold unplaced
  cases hk : f.kind <;> simp only [shift, hk]

theorem map_unplaced_shift (n : Nat) (fs : List Field) :
    (fs.map (.shift n)).map Field.unplaced = fs.map Field.unplaced := by
  rw [List.map_map]
  exact List.map_congr_left fun f _ => f.unplaced_shift n

def PendingBits.unplaced (p : PendingBits) : Field :=
  { name := p.name, kind := .bits ⟨p.bits, 0, 0, p.boolean⟩, offset := 0, bytes := 0
    padding := p.padding, line := p.line }

def FieldStatement.unplaced (f : FieldStatement) (padding : Bool) : Content → Field
  | .bits count boolean declaredBytes =>
    PendingBits.unplaced ⟨f.name.text, count, boolean, declaredBytes, padding, f.name.line⟩
  | .plain kind size _ => Field.unplaced ⟨f.name.text, kind, 0, size, padding, f.name.line⟩
  | .tail p => ⟨f.name.text, .flexible p, 0, 0, padding, f.name.line⟩

theorem BitRun.starts_fst (n : Nat) (ps : List PendingBits) : (starts n ps).map (·.1) = ps := by
  induction ps generalizing n with
  | nil => rfl
  | cons p ps ih => rw [starts, List.map_cons, ih]

namespace Draft

variable {d d' : Draft} {u : Surroundings} {s : Settings} {p : Piece}

theorem unplaced_wordFields (run : BitRun) (order : BitOrder) (offset : Nat) :
    (wordFields run order offset).map Field.unplaced = run.pending.map PendingBits.unplaced := by
  have hfst : (run.assign order).map (·.1) = run.pending := by
    rw [BitRun.assign, List.map_map]
    refine Eq.trans (List.map_congr_left fun x _ => ?_) (BitRun.starts_fst 0 run.pending)
    cases order <;> rfl
  rw [wordFields, List.map_map]
  conv_rhs => rw [← hfst, List.map_map]
  rfl

/-- The fields of all statements so far: those that are placed, then those that wait for the place of
a union, then those that wait for a word. -/
def entries (d : Draft) : List Field :=
  (d.fields ++ d.waiting).map Field.unplaced ++ d.run.pending.map PendingBits.unplaced

theorem tells_unplaced : Tells (List.map Field.unplaced) :=
  ⟨fun _ _ => List.map_append, fun fs n => map_unplaced_shift n fs⟩

abbrev Filled (d : Draft) : Prop := Accounts (List.map Field.unplaced) d

/-! ## Placing -/

theorem entries_flush (hd : d.Filled) (s : Settings) : (d.flush s).entries = d.entries := by
  have hflush := tells_unplaced.flush hd s
  rw [unplaced_wordFields] at hflush
  rw [entries, run_flush]
  exact (List.append_nil _).trans hflush

theorem filled_flush (hd : d.Filled) (s : Settings) : (d.flush s).Filled :=
  tells_unplaced.accounts_flush hd s

theorem entries_addBits (hd : d.Filled) (s : Settings) (p : PendingBits) :
    (d.addBits s p).entries = d.entries ++ [p.unplaced] := by
  have hroom : (d.room s p.bits).entries = d.entries ∧ (d.room s p.bits).Filled := by
    unfold room
    split
    · exact ⟨rfl, hd⟩
    · exact ⟨entries_flush hd s, filled_flush hd s⟩
  have hpend : ((d.room s p.bits).pend p).entries = (d.room s p.bits).entries ++ [p.unplaced] := by
    rw [entries, entries, List.append_assoc]
    exact congrArg _ List.map_append
  have hfilled : ((d.room s p.bits).pend p).Filled := ⟨hroom.2.named, hroom.2.sized⟩
  unfold addBits
  dsimp only
  split
  · rw [entries_flush hfilled, hpend, hroom.1]
  · rw [hpend, hroom.1]

end Draft

/-! ## Statements -/

def Registry.Sized (r : Registry) : Prop := ∀ t ∈ r.types, 0 < t.byteLength ∧ 0 < t.alignedLength

theorem Registry.Sound.sized {r : Registry} (h : r.Sound) : r.Sized := by
  intro t ht
  obtain ⟨_, _, -, hs⟩ := h.type ht
  have haligned : t.byteLength ≤ t.alignedLength := hs.aligned.1.1
  have hbytes := hs.bytes
  omega

theorem Counted.pos {count : Option Nat} (h : Counted count) : 0 < count.getD 1 := by
  cases count with
  | none => decide
  | some n => exact (h n rfl).1

theorem Content.Resolved.size_ne {u : Surroundings} {d : Draft} {kind : FieldKind}
    {size alignment : Nat} (h : (Content.plain kind size alignment).Resolved u d)
    (hr : u.registry.Sized) : size ≠ 0 := by
  cases h with
  | number p counted => exact (Nat.mul_pos (bytes_pos p) counted.pos).ne'
  | text counted => exact counted.pos.ne'
  | @nested t count found other closed counted =>
    obtain ⟨hbytes, haligned⟩ := hr t (List.mem_of_find?_eq_some found)
    cases count with
    | none => exact hbytes.ne'
    | some n => exact (Nat.mul_pos (counted n rfl).1 haligned).ne'

namespace Draft

variable {d d' : Draft} {u : Surroundings}

/-- A statement adds its field at the end. -/
theorem entries_put {f : FieldStatement} {c : Content} (hd : d.Filled) (hc : c.Admitted u) :
    (f.put u d c).entries = d.entries ++ [f.unplaced (f.isPadding u) c] := by
  let named : Draft := { d with names := d.names ++ [f.name.text] }
  have hn : named.Filled := ⟨hd.named, hd.sized⟩
  refine put_cases (P := fun d' => d'.entries = d.entries ++ [f.unplaced (f.isPadding u) c]) hc ?_ ?_
  · rintro count boolean declaredBytes rfl
    exact entries_addBits hn _ _
  · intro kind size p tail hp
    have hfield : f.unplaced (f.isPadding u) c =
        Field.unplaced ⟨f.name.text, kind, 0, size, f.isPadding u, f.name.line⟩ := by
      have hcontent := hp.content
      rw [← hp.bytes] at hcontent
      cases c <;> cases hcontent <;> rfl
    have hstore := tells_unplaced.store (filled_flush hn u.settings) p
    have hentries := entries_flush hn u.settings
    rw [entries, run_flush] at hentries
    show ((named.flush u.settings).store p).entries = named.entries ++ _
    rw [entries, run_store, run_flush, hstore, hp.fields, hfield, ← hentries]
    simp

theorem filled_put {f : FieldStatement} {c : Content} (hd : d.Filled) (hc : c.Resolved u d)
    (hr : u.registry.Sized) : (f.put u d c).Filled := by
  let named : Draft := { d with names := d.names ++ [f.name.text] }
  have hn : named.Filled := ⟨hd.named, hd.sized⟩
  cases c with
  | bits count boolean declaredBytes => exact tells_unplaced.accounts_addBits hn _ _
  | plain kind size alignment =>
    refine put_induction hc.admitted hn (fun _ h => filled_flush h _)
      (fun _ _ _ _ h => ⟨h.named, h.sized⟩) ?_ fun _ _ h => ⟨h.named, h.sized⟩
    intro d' g p hp h
    obtain ⟨-, rfl⟩ : kind = g.kind ∧ size = p.bytes := by simpa [Content.whole?] using hp.content
    exact tells_unplaced.accounts_store h fun _ => hc.size_ne hr
  | tail p =>
    cases hc with
    | tail byte outside =>
      -- an open array stands in no union, so that nothing waits for the place of one
      let placed := named.place u.settings f.name.text (.flexible p) 0 1 (f.isPadding u) f.name.line
      have hplaced : placed.inUnion = false := (continues_place _ named _ _ _ _ _ _).inUnion.trans outside
      have hw : placed.waiting = [] := by rw [waiting, overlap_eq_none hplaced]; rfl
      exact tells_unplaced.accounts_of_waiting (d := { placed with flexible := some f.name.text }) hw

theorem entries_openUnion (hd : d.Filled) (s : Settings) (ho : d.inUnion = false) :
    (d.openUnion s).entries = d.entries := by
  rw [← entries_flush hd s, entries, entries, members_openUnion s ho]
  rfl

theorem entries_closeUnion (hd : d.Filled) (s : Settings) (hu : d.inUnion = true)
    (hrun : d.run.isEmpty = true) : (d.closeUnion s).1.entries = d.entries := by
  rw [entries, entries, tells_unplaced.closeUnion hd s hu hrun, run_closeUnion, BitRun.eq_of_isEmpty hrun]

theorem Change.filled (h : Change u d d') (hd : d.Filled) (hs : d.Settled) (hr : u.registry.Sized) :
    d'.Filled := by
  cases h with
  | same => exact hd
  | field f hc => exact filled_put hd (FieldStatement.resolve_eq_ok hc).2.2 hr
  | openUnion ho => exact tells_unplaced.accounts_of_waiting rfl
  | closeUnion hu =>
    have hu' := inUnion_of_anonymous hu
    exact tells_unplaced.accounts_of_waiting (closeUnion_cases u.settings hu' (hs hu')).1

end Draft
end RecordView
