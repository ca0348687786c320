import RecordView.Number.Basic

/-! Thirty-two bit words: every number wraps into one, and bitwise operators work on them. -/
namespace RecordView.Number

/-- The integer part of a number; an infinite or absent one counts as zero. -/
def whole : Number → Int
  | .int n => n
  | .real x => (Binary64.truncate? x).getD 0

/-- The word of a number: its integer part modulo `2 ^ 32`. -/
def word (n : Number) : BitVec 32 := BitVec.ofInt 32 n.whole

/-- The signed value of the word of a number. -/
def toInt32 (n : Number) : Int := n.word.toInt

/-- The unsigned value of the word of a number. -/
def toUint32 (n : Number) : Nat := n.word.toNat

def bitOr (a b : Number) : Number := .int (a.word ||| b.word).toInt

def bitXor (a b : Number) : Number := .int (a.word ^^^ b.word).toInt

def bitAnd (a b : Number) : Number := .int (a.word &&& b.word).toInt

def complement (a : Number) : Number := .int (~~~ a.word).toInt

/-- Shifts count modulo thirty-two. -/
def shiftCount (b : Number) : Nat := b.toUint32 % 32

def shiftLeft (a b : Number) : Number := .int (a.word <<< b.shiftCount).toInt

/-- The sign bit fills from the left. -/
def shiftRight (a b : Number) : Number := .int (a.word.sshiftRight b.shiftCount).toInt

/-- Zeros fill from the left, and the result is unsigned. -/
def shiftRightZero (a b : Number) : Number := .int (a.word >>> b.shiftCount).toNat

end RecordView.Number
