import RecordView.Layout.BitRun
import RecordView.Log

/-! A struct or union whose members are being placed. -/
namespace RecordView

/-- What happens while members are placed, in order: a field gets its place, or there is something
to remark. -/
inductive Step where
  | field (f : Field)
  | note (n : Note)
  deriving DecidableEq, Repr

def Step.field? : Step → Option Field
  | .field f => some f
  | .note _ => none

/-- Members that share their first byte: the size of the largest, the largest alignment, and, if
they are members of an anonymous union, the fields that wait for the place of the union. -/
structure Overlap where
  width : Nat := 0
  alignment : Nat := 1
  members : List Field := []
  deriving DecidableEq, Repr

/-- A struct or union under construction. The cursor is the next free byte. -/
structure Draft where
  name : Option String
  form : Form
  location : Location
  typedef : Bool := false
  parent : Option String := none
  cursor : Nat := 0
  alignment : Nat := 1
  names : List String := []
  run : BitRun := {}
  overlap : Option Overlap := none
  flexible : Option String := none
  steps : List Step := []
  discarded : Bool := false
  deriving DecidableEq, Repr

namespace Draft

/-- A draft without members. All members of a named union overlap. -/
def empty (name : Option String) (form : Form) (location : Location) (typedef : Bool) : Draft :=
  { name, form, location, typedef, overlap := if form = .union then some {} else none }

def fields (d : Draft) : List Field := d.steps.filterMap Step.field?

/-- Whether members overlap at this point. -/
def inUnion (d : Draft) : Bool := d.overlap.isSome

/-- Whether an anonymous union is open. -/
def inAnonymousUnion (d : Draft) : Bool := d.inUnion && d.form == .struct

/-- Starts from the end of a type that is extended. -/
def extend (d : Draft) (parent : TypeInfo) (inherited : List Field) : Draft :=
  { d with
    parent := some parent.name
    cursor := parent.byteLength
    alignment := parent.alignment
    names := inherited.map (·.name) }

/-- Takes so many bytes at the next multiple of the alignment, or where the members of a union
start. -/
def allocate (d : Draft) (size alignment : Nat) : Nat × Draft :=
  match d.overlap with
  | some o =>
    let grown := { o with width := max o.width size, alignment := max o.alignment alignment }
    (0, { d with overlap := some grown })
  | none =>
    let offset := alignUp d.cursor alignment
    (offset, { d with cursor := offset + size, alignment := max d.alignment alignment })

def note (d : Draft) (n : Note) : Draft := { d with steps := d.steps ++ [.note n] }

/-- Records a field. A member of an anonymous union waits until the union is closed. -/
def add (d : Draft) (f : Field) : Draft :=
  match d.overlap with
  | some o =>
    if d.form = .struct then { d with overlap := some { o with members := o.members ++ [f] } }
    else { d with steps := d.steps ++ [.field f] }
  | none => { d with steps := d.steps ++ [.field f] }

def addAll (d : Draft) (fs : List Field) : Draft := fs.foldl add d

/-- The fields of a run whose word is at the given offset. -/
def wordFields (run : BitRun) (order : BitOrder) (offset : Nat) : List Field :=
  (run.assign order).map fun (p, bit) =>
    { name := p.name
      kind := .bits ⟨p.bits, bit.toNat, run.wordBytes, p.boolean⟩
      offset
      bytes := run.wordBytes
      padding := p.padding
      line := p.line }

/-- Places the word of the bit fields that wait, if there are any. -/
def flush (s : Settings) (d : Draft) : Draft :=
  if d.run.isEmpty then d
  else
    let word := d.run.wordBytes
    let (offset, placed) := d.allocate word (min s.pack.bytes word)
    let filled := placed.addAll (wordFields d.run s.bitOrder offset)
    { filled.note (.flushed d.run.pending.length d.run.totalBits word) with run := {} }

/-- Places a field that is no bit field. -/
def place (s : Settings) (d : Draft) (name : String) (kind : FieldKind) (size alignment : Nat)
    (padding : Bool) (line : Nat) : Draft :=
  let (offset, placed) := (d.flush s).allocate size alignment
  placed.add ⟨name, kind, offset, size, padding, line⟩

/-- Makes room for more bits: a run that has none gets its word now. -/
def room (s : Settings) (d : Draft) (bits : Nat) : Draft :=
  if d.run.fits bits then d else d.flush s

/-- Lets a bit field wait for its word. -/
def pend (d : Draft) (p : PendingBits) : Draft := { d with run := d.run.add p }

/-- Adds a bit field to the run, or starts a new run if the word would be too large. In a union each
has its own word. -/
def addBits (s : Settings) (d : Draft) (p : PendingBits) : Draft :=
  let added := (d.room s p.bits).pend p
  if added.inUnion then added.flush s else added

def openUnion (s : Settings) (d : Draft) : Draft := { d.flush s with overlap := some {} }

/-- Gives the members of a union that is no longer open their place. -/
def placeUnion (d : Draft) (o : Overlap) : Draft :=
  let start := alignUp d.cursor o.alignment
  let placed := d.addAll (o.members.map fun f => { f with offset := f.offset + start })
  let moved :=
    { placed with
      cursor := start + alignUp o.width o.alignment
      alignment := max placed.alignment o.alignment }
  moved.note (.overlapped start o.width)

/-- Closes an anonymous union and places it; tells whether it has a size. -/
def closeUnion (s : Settings) (d : Draft) : Draft × Bool :=
  let flushed := d.flush s
  let o := flushed.overlap.getD {}
  let closed := { flushed with overlap := none }
  if o.width = 0 then (closed, false) else (closed.placeUnion o, true)

/-- The size of all that is placed. -/
def size (d : Draft) : Nat :=
  match d.form, d.overlap with
  | .union, some o => o.width
  | _, _ => d.cursor

/-- The largest alignment of what is placed. -/
def fullAlignment (d : Draft) : Nat :=
  match d.form, d.overlap with
  | .union, some o => max d.alignment o.alignment
  | _, _ => d.alignment

/-- The type that a closed draft declares, none if it has no size. -/
def finish (s : Settings) (d : Draft) (name : String) : Option TypeInfo :=
  if d.size = 0 then none
  else
    some
      { name
        form := d.form
        byteLength := d.size
        alignment := min s.pack.bytes d.fullAlignment
        parent := d.parent
        fields := d.fields
        hasFlexible := d.flexible.isSome }

end Draft
end RecordView
