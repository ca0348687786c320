/-! Blank characters, trimming, and the cutting of a text into lines. -/
namespace RecordView.Text

/-- The characters of the Unicode white-space property, and the four ASCII separators below the
space. -/
def isBlank (c : Char) : Bool :=
  let n := c.toNat
  (9 ≤ n && n ≤ 13) || (28 ≤ n && n ≤ 32) || n == 0x85 || n == 0xA0 || n == 0x1680 ||
    (0x2000 ≤ n && n ≤ 0x200A) || n == 0x2028 || n == 0x2029 || n == 0x202F || n == 0x205F ||
    n == 0x3000

/-- Drops from the end of a list what satisfies `p`. -/
def dropEnd (p : Char → Bool) (cs : List Char) : List Char :=
  (cs.reverse.dropWhile p).reverse

def trimEndChars (cs : List Char) : List Char := dropEnd isBlank cs

def trimChars (cs : List Char) : List Char := trimEndChars (cs.dropWhile isBlank)

/-- The text without blanks at either end. -/
def trim (s : String) : String := String.ofList (trimChars s.toList)

/-- The text without blanks at its end. -/
def trimEnd (s : String) : String := String.ofList (trimEndChars s.toList)

/-- Cuts a text at every separator; a text with `n` separators has `n + 1` parts. -/
def splitChars (sep : Char) : List Char → List (List Char)
  | [] => [[]]
  | c :: cs =>
    if c = sep then [] :: splitChars sep cs
    else
      match splitChars sep cs with
      | [] => [[c]]
      | l :: ls => (c :: l) :: ls

def split (sep : Char) (s : String) : List String := (splitChars sep s.toList).map String.ofList

def lines (s : String) : List String := split '\n' s

/-- Lines joined by newlines. -/
def unlines (ls : List String) : String := "\n".intercalate ls

/-- A line of a description, counted from one, without its trailing carriage returns; empty outside
the text. -/
def lineAt (ls : List String) (n : Int) : String :=
  if n < 1 then ""
  else
    match ls[(n - 1).toNat]? with
    | some l => String.ofList (dropEnd (· == '\r') l.toList)
    | none => ""

theorem splitChars_ne_nil (sep : Char) (cs : List Char) : splitChars sep cs ≠ [] := by
  cases cs with
  | nil => simp [splitChars]
  | cons c cs =>
    rw [splitChars]
    split
    · simp
    · split <;> simp

end RecordView.Text
