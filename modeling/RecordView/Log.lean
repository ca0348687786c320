import RecordView.Location
import RecordView.Number.Decimal
import RecordView.Types.Primitive

/-! What a compilation tells about its progress. -/
namespace RecordView

/-- A remark on the progress of a compilation. -/
inductive Note where
  | conditionSkipped (line : Nat)
  | condition (line : Nat) (holds : Bool)
  | setting (line : Nat) (name value : String)
  | opened (line : Nat) (word : String) (name : Option String)
  | unnamed (location : Location) (form : Form)
  | flushed (count bits word : Nat)
  | overlapped (start width : Nat)
  | classEmitted (name : String) (bytes : Nat)
  | enumEmitted (name : String) (members : Nat)
  | onlyPadding (location : Location) (name : String)
  | aggregate (form : Form) (name : String) (bytes alignment : Nat)
  | enumeration (name : String) (members : Nat) (backing : Primitive)
  | scanFailed (message : String)
  | finished (file : String) (types errors : Nat)
  deriving DecidableEq, Repr

namespace Note

/-- Whether the remark is shown without being asked for. -/
def isWarning : Note → Bool
  | onlyPadding .. => true
  | _ => false

def text : Note → String
  | conditionSkipped line => s!"line {line}: #if skipped in inactive region"
  | condition line holds =>
    let shown := if holds then "True" else "False"
    s!"line {line}: #if -> {shown}"
  | setting line name value => s!"line {line}: pragma {name}({value})"
  | opened line word name =>
    let shown := name.getD "None"
    s!"line {line}: open {word} {shown}"
  | unnamed location form => s!"{location.text}: unnamed {form.word} discarded"
  | flushed count bits word => s!"flushed {count} bitfields ({bits} bits) into {word}-byte word"
  | overlapped start width => s!"anonymous union at {start}, {width} bytes"
  | classEmitted name bytes => s!"emitted class {name} ({bytes} bytes)"
  | enumEmitted name members => s!"emitted enum {name} with {members} members"
  | onlyPadding location name => s!"{location.text}: '{name}' has only padding fields"
  | aggregate form name bytes alignment =>
    s!"registered {form.word} {name}: {bytes} bytes, align {alignment}"
  | enumeration name members backing =>
    s!"registered enum {name} ({members} members, {backing.name})"
  | scanFailed message => s!"lexing failed: {message}"
  | finished file types errors => s!"{file}: {types} types, {errors} errors"

/-- Whether all sizes in the remark have a decimal text. -/
def writable : Note → Bool
  | overlapped start width => Decimal.writable start && Decimal.writable width
  | classEmitted _ bytes => Decimal.writable bytes
  | aggregate _ _ bytes _ => Decimal.writable bytes
  | _ => true

end Note
end RecordView
