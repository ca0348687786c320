import RecordView.Problem
import RecordView.Settings
import RecordView.Types.Field

/-! Runs of bit fields that share one word. -/
namespace RecordView

/-- A bit field that waits for its word. `declaredBytes` is the size of the integer type it is
declared with, or zero. -/
structure PendingBits where
  name : String
  bits : Nat
  boolean : Bool := false
  declaredBytes : Nat := 0
  padding : Bool := false
  line : Nat := 0
  deriving DecidableEq, Repr

/-- Bit fields that go into one word, in order of declaration. -/
structure BitRun where
  pending : List PendingBits := []
  deriving DecidableEq, Repr

namespace BitRun

def isEmpty (r : BitRun) : Bool := r.pending.isEmpty

def add (r : BitRun) (p : PendingBits) : BitRun := ⟨r.pending ++ [p]⟩

def totalBits (r : BitRun) : Nat := r.pending.foldr (fun p n => p.bits + n) 0

/-- Whether so many more bits still go into a word of the largest size. -/
def fits (r : BitRun) (bits : Int) : Bool := r.totalBits + bits ≤ maxBits

/-- The smallest word that holds all bits and is no smaller than a declared type. -/
def wordBytes (r : BitRun) : Nat :=
  let size := if r.totalBits ≤ 8 then 1 else if r.totalBits ≤ 16 then 2 else 4
  (r.pending.map (·.declaredBytes)).foldl max size

/-- The number of bits before each field. -/
def starts (before : Nat) : List PendingBits → List (PendingBits × Nat)
  | [] => []
  | p :: ps => (p, before) :: starts (before + p.bits) ps

/-- The lowest bit of each field: the first field takes the lowest bits, or the highest. -/
def assign (r : BitRun) (order : BitOrder) : List (PendingBits × Int) :=
  (starts 0 r.pending).map fun (p, before) =>
    match order with
    | .lsb => (p, before)
    | .msb => (p, (8 * r.wordBytes : Int) - before - p.bits)

end BitRun
end RecordView
