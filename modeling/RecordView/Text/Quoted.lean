import RecordView.Text.Digit
import RecordView.Text.Printable

/-! Quoted texts: script literals in ASCII, and the quotation of a token for display. -/
namespace RecordView.Text

/-- The escape of one character in a script literal. Above the basic plane it is a surrogate pair.
-/
def escapeChar (c : Char) : List Char :=
  let n := c.toNat
  if c = '\"' then ['\\', '\"']
  else if c = '\\' then ['\\', '\\']
  else if c = '\n' then ['\\', 'n']
  else if c = '\r' then ['\\', 'r']
  else if c = '\t' then ['\\', 't']
  else if n = 8 then ['\\', 'b']
  else if n = 12 then ['\\', 'f']
  else if 32 ≤ n ∧ n ≤ 126 then [c]
  else if n < 0x10000 then '\\' :: 'u' :: hexUnit n
  else
    let m := n - 0x10000
    '\\' :: 'u' :: hexUnit (0xD800 + m / 1024) ++ '\\' :: 'u' :: hexUnit (0xDC00 + m % 1024)

def escape (cs : List Char) : List Char := cs.flatMap escapeChar

/-- A double-quoted literal of ASCII characters that reads back as the text. -/
def quoteAscii (s : String) : String := String.ofList ('\"' :: escape s.toList ++ ['\"'])

/-- The number of a character with as many digits as it needs: two, four or eight. -/
def displayNumber (n : Nat) : List Char :=
  if n < 0x100 then '\\' :: 'x' :: (hexUnit n).drop 2
  else if n < 0x10000 then '\\' :: 'u' :: hexUnit n
  else '\\' :: 'U' :: hexUnit (n / 0x10000) ++ hexUnit n

/-- Shows one character inside the quotation mark `q`. -/
def displayChar (q : Char) (c : Char) : List Char :=
  if c = q ∨ c = '\\' then ['\\', c]
  else if c = '\n' then ['\\', 'n']
  else if c = '\r' then ['\\', 'r']
  else if c = '\t' then ['\\', 't']
  else if isPrintable c then [c]
  else displayNumber c.toNat

/-- Apostrophe and double quote, as numbers of characters. -/
def apostrophe : Char := Char.ofNat 39

/-- A text in single quotes, or in double quotes when it holds an apostrophe and no double quote. -/
def display (s : String) : String :=
  let cs := s.toList
  let q := if cs.contains apostrophe && !cs.contains '\"' then '\"' else apostrophe
  String.ofList (q :: cs.flatMap (displayChar q) ++ [q])

end RecordView.Text
