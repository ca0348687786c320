/-! Failures that end a run, and results that may be refused or fail. -/
namespace RecordView

/-- What no diagnostic can report: the run ends. -/
inductive Failure where
  /-- The remainder of an infinite number. -/
  | infiniteDividend
  /-- A decimal text of more digits than are written. -/
  | tooManyDigits
  /-- A calculation with a constant that has no value. -/
  | absentOperand
  /-- A bit field in a word of a size that no accessor reads. -/
  | wordSize
  /-- Accessors for a field of unknown kind. -/
  | unresolvedField
  /-- A loop over tokens that takes none. -/
  | stalled
  deriving DecidableEq, Repr

def Failure.message : Failure → String
  | .infiniteDividend => "math domain error"
  | .tooManyDigits =>
    "Exceeds the limit (4300 digits) for integer string conversion; " ++
      "use sys.set_int_max_str_digits() to increase the limit"
  | .absentOperand => "constant without a value"
  | .wordSize => "unsupported word size"
  | .unresolvedField => "unhandled field kind"
  | .stalled => "no progress"

/-- Why a step does not give a result: it is refused for a reason, or the run fails. -/
inductive Halt (ε : Type) where
  | refused (reason : ε)
  | failed (f : Failure)
  deriving DecidableEq, Repr

def Halt.map {ε δ : Type} (f : ε → δ) : Halt ε → Halt δ
  | .refused e => .refused (f e)
  | .failed f => .failed f

/-- A sequence gives a result if and only if both of its parts do. -/
theorem bind_eq_ok_iff {ε α β : Type} {x : Except ε α} {f : α → Except ε β} {b : β} :
    (x >>= f) = .ok b ↔ ∃ a, x = .ok a ∧ f a = .ok b := by
  cases x with
  | error e => simp [bind, Except.bind]
  | ok a => simp [bind, Except.bind]

end RecordView
