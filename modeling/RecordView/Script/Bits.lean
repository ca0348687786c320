import RecordView.Text.Digit
import RecordView.Types.Field

/-! The code that reads and writes some bits of a word. -/
namespace RecordView.Script

/-- An expression of the script over the word, a variable with a part of the word, and the value to
be written. -/
inductive BitCode where
  | word
  | temp
  | value
  | decimal (n : Nat)
  | hex (n : Nat)
  | and (a b : BitCode)
  | or (a b : BitCode)
  | shiftLeft (a : BitCode) (n : Nat)
  | shiftRight (a : BitCode) (n : Nat)
  | paren (a : BitCode)
  | boolean (a : BitCode)
  | choose (cond yes no : BitCode)
  deriving DecidableEq, Repr

/-- The text of an expression, given that of the word. -/
def BitCode.text (word : String) : BitCode → String
  | .word => word
  | .temp => "t"
  | .value => "value"
  | .decimal n => toString n
  | .hex n => "0x" ++ Text.hexUpper n
  | .and a b => a.text word ++ " & " ++ b.text word
  | .or a b => a.text word ++ " | " ++ b.text word
  | .shiftLeft a n => a.text word ++ " << " ++ toString n
  | .shiftRight a n => a.text word ++ " >> " ++ toString n
  | .paren a => "(" ++ a.text word ++ ")"
  | .boolean a => "Boolean(" ++ a.text word ++ ")"
  | .choose c a b => c.text word ++ " ? " ++ a.text word ++ " : " ++ b.text word

/-- What reads a slice, and what writes it: the part of the word that is read first, and the word
that is stored. -/
structure BitAccess where
  get : BitCode
  temp : Option BitCode
  set : BitCode
  deriving DecidableEq, Repr

/-- The lowest bytes of a number. -/
def lowBytes (n bytes : Nat) : Nat := n % (1 <<< (8 * bytes))

/-- A number as a hexadecimal literal of at most so many bytes. -/
def hexBytes (n : Int) (bytes : Nat) : String :=
  "0x" ++ Text.hexUpper (n % (1 <<< (8 * bytes) : Nat)).toNat

/-- All bits of a word that are not in a number. -/
def otherBits (n bytes : Nat) : Nat := (1 <<< (8 * bytes)) - 1 - lowBytes n bytes

namespace BitCode

/-- A shift by nothing is left out. -/
def up (a : BitCode) (n : Nat) : BitCode := if n = 0 then a else shiftLeft a n

def down (a : BitCode) (n : Nat) : BitCode := if n = 0 then a else shiftRight a n

end BitCode

open BitCode in
/-- How a slice is read and written. A whole word needs no masks; a single bit is set or cleared. -/
def access (b : BitSlice) : BitAccess :=
  let inPlace := b.mask <<< b.offset
  let own := hex (lowBytes inPlace b.word)
  let others := hex (otherBits inPlace b.word)
  let mask := hex (lowBytes b.mask b.word)
  if b.count = 32 then ⟨word, none, value⟩
  else if b.boolean then
    ⟨boolean (and word own), some word, choose value (paren (or temp own)) (paren (and temp others))⟩
  else if b.count = 1 then
    ⟨and (paren (down word b.offset)) (hex 1), some word,
     choose (paren (and value (decimal 1))) (paren (or temp own)) (paren (and temp others))⟩
  else
    ⟨if b.offset = 0 then and word mask else and (paren (shiftRight word b.offset)) mask,
     some (and word others),
     or temp (paren (up (paren (and value mask)) b.offset))⟩

end RecordView.Script
