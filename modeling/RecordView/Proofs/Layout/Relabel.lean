import RecordView.Declaration.Aggregate

/-! What the layout does not look at: the marks of padding fields, and the places in the description.
All that places fields does the same whatever they are changed to. -/
namespace RecordView

/-- A change of the marks of padding fields, of lines, and of places along with their lines. -/
structure Relabeling where
  mark : Bool → Bool := id
  line : Nat → Nat := id
  place : Location → Location := id
  located : ∀ (file : String) (n column : Nat), place ⟨file, n, column⟩ = ⟨file, line n, column⟩

variable (R : Relabeling)

/-! ## Changing the labels -/

def Token.relabel (t : Token) : Token := { t with line := R.line t.line }

def Problem.relabel : Problem → Problem
  | .condition (.secondElse opened) => .condition (.secondElse (R.place opened))
  | p => p

def Note.relabel : Note → Note
  | conditionSkipped line => conditionSkipped (R.line line)
  | condition line holds => condition (R.line line) holds
  | setting line name value => setting (R.line line) name value
  | opened line word name => opened (R.line line) word name
  | unnamed location form => unnamed (R.place location) form
  | onlyPadding location name => onlyPadding (R.place location) name
  | n => n

def Field.relabel (f : Field) : Field := { f with padding := R.mark f.padding, line := R.line f.line }

def PendingBits.relabel (p : PendingBits) : PendingBits :=
  { p with padding := R.mark p.padding, line := R.line p.line }

def BitRun.relabel (r : BitRun) : BitRun := ⟨r.pending.map (·.relabel R)⟩

def Overlap.relabel (o : Overlap) : Overlap := { o with members := o.members.map (·.relabel R) }

def Step.relabel : Step → Step
  | .field f => .field (f.relabel R)
  | .note n => .note (n.relabel R)

def Draft.relabel (d : Draft) : Draft :=
  { d with
    location := R.place d.location
    run := d.run.relabel R
    overlap := d.overlap.map (·.relabel R)
    steps := d.steps.map (·.relabel R) }

def TypeInfo.relabel (t : TypeInfo) : TypeInfo := { t with fields := t.fields.map (·.relabel R) }

def Registry.relabel (r : Registry) : Registry := ⟨r.types.map (·.relabel R)⟩

variable {R}

@[simp] theorem Problem.kind_relabel (p : Problem) : (p.relabel R).kind = p.kind := by
  unfold relabel
  split
  · rfl
  · rfl

@[simp] theorem Problem.message_relabel (p : Problem) : (p.relabel R).message = p.message := by
  unfold relabel
  split
  · rfl
  · rfl

@[simp] theorem Token.kind_relabel (t : Token) : (t.relabel R).kind = t.kind := rfl

@[simp] theorem Token.text_relabel (t : Token) : (t.relabel R).text = t.text := rfl

@[simp] theorem Token.location_relabel (t : Token) : (t.relabel R).location = R.place t.location :=
  (R.located t.file t.line t.column).symm

/-! ## Words -/

namespace BitRun

variable (r : BitRun)

@[simp] theorem isEmpty_relabel : (r.relabel R).isEmpty = r.isEmpty := by
  simp [isEmpty, relabel]

@[simp] theorem totalBits_relabel : (r.relabel R).totalBits = r.totalBits := by
  simp [totalBits, relabel, List.foldr_map, PendingBits.relabel]

@[simp] theorem wordBytes_relabel : (r.relabel R).wordBytes = r.wordBytes := by
  have h : (r.relabel R).pending.map (·.declaredBytes) = r.pending.map (·.declaredBytes) := by
    simp [relabel, PendingBits.relabel, Function.comp_def]
  simp only [wordBytes, h, totalBits_relabel]

theorem starts_relabel (before : Nat) (ps : List PendingBits) :
    starts before (ps.map (·.relabel R)) =
      (starts before ps).map fun (p, n) => (p.relabel R, n) := by
  induction ps generalizing before with
  | nil => rfl
  | cons p ps ih =>
    simp only [List.map_cons, starts]
    rw [ih]
    rfl

theorem assign_relabel (order : BitOrder) :
    (r.relabel R).assign order = (r.assign order).map fun (p, n) => (p.relabel R, n) := by
  simp only [assign, wordBytes_relabel]
  simp only [relabel, starts_relabel, List.map_map]
  refine List.map_congr_left fun x _ => ?_
  cases order <;> rfl

end BitRun

/-! ## Drafts -/

namespace Draft

variable (s : Settings) (d : Draft)

@[simp] theorem inUnion_relabel : (d.relabel R).inUnion = d.inUnion := by
  simp [inUnion, relabel]

@[simp] theorem inAnonymousUnion_relabel :
    (d.relabel R).inAnonymousUnion = d.inAnonymousUnion := by
  rw [inAnonymousUnion, inUnion_relabel]
  rfl

theorem fields_relabel : (d.relabel R).fields = d.fields.map (·.relabel R) := by
  simp only [fields, relabel, List.filterMap_map, List.map_filterMap]
  congr 1
  funext x
  cases x <;> rfl

theorem allocate_relabel (size alignment : Nat) :
    (d.relabel R).allocate size alignment =
      ((d.allocate size alignment).1, (d.allocate size alignment).2.relabel R) := by
  obtain ⟨_, _, _, _, _, _, _, _, _, overlap, _, _, _⟩ := d
  cases overlap <;> rfl

theorem add_relabel (f : Field) : (d.add f).relabel R = (d.relabel R).add (f.relabel R) := by
  obtain ⟨_, form, _, _, _, _, _, _, _, overlap, _, _, _⟩ := d
  cases overlap with
  | none => simp [add, relabel, Step.relabel]
  | some o => cases form <;> simp [add, relabel, Step.relabel, Overlap.relabel]

theorem addAll_relabel (fs : List Field) :
    (d.addAll fs).relabel R = (d.relabel R).addAll (fs.map (·.relabel R)) := by
  induction fs generalizing d with
  | nil => rfl
  | cons f fs ih =>
    show ((d.add f).addAll fs).relabel R = _
    rw [ih, add_relabel]
    rfl

theorem wordFields_relabel (run : BitRun) (order : BitOrder) (offset : Nat) :
    (wordFields run order offset).map (·.relabel R) =
      wordFields (run.relabel R) order offset := by
  simp only [wordFields, BitRun.assign_relabel, BitRun.wordBytes_relabel, List.map_map]
  rfl

theorem note_relabel (n : Note) : (d.note n).relabel R = (d.relabel R).note (n.relabel R) := by
  simp [note, relabel, Step.relabel]

theorem flush_relabel : (d.flush s).relabel R = (d.relabel R).flush s := by
  have hrun : (d.relabel R).run = d.run.relabel R := rfl
  have hlength : (d.run.relabel R).pending.length = d.run.pending.length := List.length_map _
  have hnote (d : Draft) (count bits word : Nat) :
      (d.relabel R).note (.flushed count bits word) = (d.note (.flushed count bits word)).relabel R :=
    (d.note_relabel (R := R) (.flushed count bits word)).symm
  unfold flush
  rw [hrun, BitRun.isEmpty_relabel]
  split
  · rfl
  · simp only [BitRun.wordBytes_relabel, BitRun.totalBits_relabel, hlength,
      allocate_relabel, ← wordFields_relabel, ← addAll_relabel, hnote]
    rfl

theorem place_relabel (name : String) (kind : FieldKind) (size alignment : Nat) (padding : Bool)
    (line : Nat) :
    (d.place s name kind size alignment padding line).relabel R =
      (d.relabel R).place s name kind size alignment (R.mark padding) (R.line line) := by
  simp only [place, ← flush_relabel, allocate_relabel, add_relabel]
  rfl

theorem addBits_relabel (p : PendingBits) :
    (d.addBits s p).relabel R = (d.relabel R).addBits s (p.relabel R) := by
  have hroom : (d.room s p.bits).relabel R = (d.relabel R).room s p.bits := by
    have hfits : (d.relabel R).run.fits p.bits = d.run.fits p.bits := by
      show (d.run.relabel R).fits p.bits = _
      simp [BitRun.fits]
    simp only [room, hfits]
    split
    · rfl
    · exact flush_relabel s d
  have hpend (d : Draft) : (d.pend p).relabel R = (d.relabel R).pend (p.relabel R) := by
    simp [pend, relabel, BitRun.add, BitRun.relabel]
  have hbits : (p.relabel R).bits = p.bits := rfl
  simp only [addBits, hbits, ← hroom, ← hpend, inUnion_relabel]
  split
  · exact flush_relabel s _
  · rfl

theorem openUnion_relabel : (d.openUnion s).relabel R = (d.relabel R).openUnion s := by
  simp only [openUnion, ← flush_relabel]
  rfl

theorem placeUnion_relabel (o : Overlap) :
    (d.placeUnion o).relabel R = (d.relabel R).placeUnion (o.relabel R) := by
  have hmembers (start : Nat) :
      (o.relabel R).members.map (fun f => { f with offset := f.offset + start }) =
        (o.members.map fun f => { f with offset := f.offset + start }).map (·.relabel R) := by
    simp [Overlap.relabel, Field.relabel]
  have hcursor : (d.relabel R).cursor = d.cursor := rfl
  have hwidth : (o.relabel R).width = o.width := rfl
  have halignment : (o.relabel R).alignment = o.alignment := rfl
  simp only [placeUnion, hmembers, hcursor, hwidth, halignment, ← addAll_relabel, note_relabel]
  rfl

theorem closeUnion_relabel :
    (d.relabel R).closeUnion s = ((d.closeUnion s).1.relabel R, (d.closeUnion s).2) := by
  have hoverlap : ((d.flush s).relabel R).overlap.getD {} =
      ((d.flush s).overlap.getD {}).relabel R := by
    show ((d.flush s).overlap.map _).getD _ = _
    cases (d.flush s).overlap <;> rfl
  have hwidth (o : Overlap) : (o.relabel R).width = o.width := rfl
  have hclosed : { (d.flush s).relabel R with overlap := none } =
      { d.flush s with overlap := none }.relabel R := rfl
  simp only [closeUnion, ← flush_relabel, hoverlap, hwidth, hclosed, ← placeUnion_relabel]
  split <;> rfl

theorem finish_relabel (name : String) :
    (d.relabel R).finish s name = (d.finish s name).map (·.relabel R) := by
  have hfields : (d.relabel R).fields = d.fields.map (·.relabel R) := d.fields_relabel
  have hsize : (d.relabel R).size = d.size := by
    obtain ⟨_, form, _, _, _, _, _, _, _, overlap, _, _, _⟩ := d
    cases form <;> cases overlap <;> rfl
  have halignment : (d.relabel R).fullAlignment = d.fullAlignment := by
    obtain ⟨_, form, _, _, _, _, _, _, _, overlap, _, _, _⟩ := d
    cases form <;> cases overlap <;> rfl
  simp only [finish, hsize, halignment, hfields]
  split
  · rfl
  · rfl

end Draft

/-! ## Declared types -/

namespace Registry

variable (r : Registry)

theorem find?_relabel (name : String) :
    (r.relabel R).find? name = (r.find? name).map (·.relabel R) := by
  simp only [find?, relabel, List.find?_map]
  rfl

@[simp] theorem taken_relabel (name : String) : (r.relabel R).taken name = r.taken name := by
  simp [taken, contains, find?_relabel]

@[simp] theorem similar_relabel (name : String) :
    (r.relabel R).similar name = r.similar name := by
  simp [similar, relabel, TypeInfo.relabel, Function.comp_def]

theorem lineage_relabel (n : Nat) (t : TypeInfo) :
    (r.relabel R).lineage n (t.relabel R) = (r.lineage n t).map (·.relabel R) := by
  induction n generalizing t with
  | zero => rfl
  | succ n ih =>
    have hbase : (t.relabel R).base?.bind (r.relabel R).find? =
        (t.base?.bind r.find?).map (·.relabel R) := by
      show t.base?.bind _ = _
      cases t.base? with
      | none => rfl
      | some name => exact r.find?_relabel name
    rw [lineage, lineage, hbase]
    cases t.base?.bind r.find? with
    | none => rfl
    | some parent =>
      simp only [Option.map_some, List.map_cons]
      rw [ih]

theorem allFields_relabel (t : TypeInfo) :
    (r.relabel R).allFields (t.relabel R) = (r.allFields t).map (·.relabel R) := by
  have hlength : (r.relabel R).types.length = r.types.length := List.length_map _
  simp only [allFields, hlength, lineage_relabel, ← List.map_reverse, List.flatMap_map,
    List.map_flatMap]
  rfl

theorem register_relabel (t : TypeInfo) :
    (r.relabel R).register (t.relabel R) = (r.register t).map (·.relabel R) := by
  have hname : (t.relabel R).name = t.name := rfl
  simp only [register, taken_relabel, hname]
  split
  · rfl
  · simp [Except.map, relabel]

end Registry

/-! ## Statements -/

namespace FieldStatement

def putAs (f : FieldStatement) (u : Settings) (padding : Bool) (d : Draft) (c : Content) : Draft :=
  let named := { d with names := d.names ++ [f.name.text] }
  match c with
  | .bits count boolean declaredBytes =>
    named.addBits u ⟨f.name.text, count, boolean, declaredBytes, padding, f.name.line⟩
  | .plain kind size alignment =>
    named.place u f.name.text kind size alignment padding f.name.line
  | .tail p =>
    let placed := named.place u f.name.text (.flexible p) 0 1 padding f.name.line
    { placed with flexible := some f.name.text }

theorem put_eq (f : FieldStatement) (s : Surroundings) (d : Draft) (c : Content) :
    f.put s d c = f.putAs s.settings (f.isPadding s) d c := rfl

variable (f : FieldStatement) (s : Surroundings) (d : Draft)

def relabel (R : Relabeling) (f : FieldStatement) : FieldStatement :=
  ⟨f.type.relabel R, f.name.relabel R, f.count.map (·.map (·.relabel R)),
    f.bits.map (·.map (·.relabel R))⟩

theorem putAs_relabel (u : Settings) (padding : Bool) (c : Content) :
    (f.putAs u padding d c).relabel R = (f.relabel R).putAs u (R.mark padding) (d.relabel R) c := by
  have hnamed : { d.relabel R with names := (d.relabel R).names ++ [(f.relabel R).name.text] } =
      { d with names := d.names ++ [f.name.text] }.relabel R := rfl
  cases c with
  | bits count boolean declaredBytes =>
    simp only [putAs, hnamed, Draft.addBits_relabel]
    rfl
  | plain kind size alignment =>
    simp only [putAs, hnamed, Draft.place_relabel]
    rfl
  | tail p =>
    have hplace := Draft.place_relabel (R := R) u { d with names := d.names ++ [f.name.text] }
      f.name.text (.flexible p) 0 1 padding f.name.line
    exact congrArg (fun d : Draft => { d with flexible := some f.name.text }) hplace

end FieldStatement

/-! ## Headers -/

namespace Declaration.Header

def relabel (R : Relabeling) (h : Header) : Header :=
  ⟨h.draft.relabel R, h.errors.map fun e => (R.place e.1, e.2.relabel R), h.notes.map (·.relabel R)⟩

theorem discard_relabel (h : Header) (location : Location) (p : Problem) :
    (h.discard location p).relabel R = (h.relabel R).discard (R.place location) (p.relabel R) := by
  simp [discard, relabel, Draft.relabel]

theorem withName_relabel (h : Header) (r : Registry) (name : Option Token) :
    (h.withName r name).relabel R =
      (h.relabel R).withName (r.relabel R) (name.map (·.relabel R)) := by
  have htypedef : (h.relabel R).draft.typedef = h.draft.typedef := rfl
  simp only [withName, htypedef]
  split
  · rfl
  · cases name with
    | none =>
      simp only [Option.map_none, relabel, discard, List.map_append]
      rfl
    | some t =>
      simp only [Option.map_some, Registry.taken_relabel, Token.text_relabel]
      split
      · rw [discard_relabel, Token.location_relabel]
        rfl
      · rfl

theorem withParent_relabel (h : Header) (r : Registry) (parent : Option Token) :
    (h.withParent r parent).relabel R =
      (h.relabel R).withParent (r.relabel R) (parent.map (·.relabel R)) := by
  cases parent with
  | none => rfl
  | some t =>
    have hparent : ((r.relabel R).find? (t.relabel R).text).filter (·.isAggregate) =
        ((r.find? t.text).filter (·.isAggregate)).map (·.relabel R) := by
      rw [Registry.find?_relabel, Option.filter_map]
      rfl
    simp only [withParent, Option.map_some, hparent, Registry.similar_relabel]
    cases (r.find? t.text).filter (·.isAggregate) with
    | none =>
      simp only [Option.map_none, discard_relabel, Token.location_relabel]
      rfl
    | some p =>
      have hflexible : (p.relabel R).hasFlexible = p.hasFlexible := rfl
      have hform : (h.relabel R).draft.form = h.draft.form := rfl
      simp only [Option.map_some, hflexible, hform, Registry.allFields_relabel]
      split
      · rw [discard_relabel, Token.location_relabel]
        rfl
      split
      · rw [discard_relabel, Token.location_relabel]
        rfl
      · simp [relabel, Draft.extend, Draft.relabel, TypeInfo.relabel, Field.relabel,
          Function.comp_def]

theorem of_relabel (r : Registry) (form : Form) (typedef : Bool) (keyword : Token)
    (name parent : Option Token) :
    (of r form typedef keyword name parent).relabel R =
      of (r.relabel R) form typedef (keyword.relabel R) (name.map (·.relabel R))
        (parent.map (·.relabel R)) := by
  have hempty (given : Option String) (location : Location) :
      (Draft.empty given form location typedef).relabel R =
        Draft.empty given form (R.place location) typedef := by
    cases form <;> rfl
  have hname : (name.map (·.relabel R)).map (·.text) = name.map (·.text) := by
    cases name <;> rfl
  simp only [of, withParent_relabel, withName_relabel, hname, Token.location_relabel]
  simp only [relabel, hempty]
  rfl

end Declaration.Header

/-! ## Moving down -/

def Location.down (k : Nat) (l : Location) : Location := { l with line := l.line + k }

def Relabeling.down (k : Nat) : Relabeling where
  line n := n + k
  place := Location.down k
  located := fun _ _ _ => rfl

abbrev Token.down (k : Nat) : Token → Token := Token.relabel (.down k)

abbrev Draft.down (k : Nat) : Draft → Draft := Draft.relabel (.down k)

end RecordView
