/-! Names that resemble a name. The likeness of two texts counts the characters in their common
blocks, the longest block first and then what lies to the left and to the right of it. -/
namespace RecordView.Text

/-- For each place of `b` the length of the run that starts there and with `x` agrees, where `below`
are the lengths of the runs that follow `x`. A character that is not `ok` is in no run. -/
def runRow (ok : Char → Bool) (x : Char) (b : List Char) (below : List Nat) : List Nat :=
  List.zipWith (fun c n => if c == x && ok c then n + 1 else 0) b (below.drop 1 ++ [0])

/-- The run lengths for all places of `a` and `b`. -/
def runTable (ok : Char → Bool) (a b : List Char) : List (List Nat) :=
  a.foldr (fun x rows => runRow ok x b (rows.headD (b.map fun _ => 0)) :: rows) []

/-- A common block: where it starts in both texts, and its length. -/
structure Block where
  left : Nat
  right : Nat
  size : Nat
  deriving DecidableEq, Repr

/-- The longest run, and of equally long ones the first. -/
def longestRun (ok : Char → Bool) (a b : List Char) : Block :=
  (runTable ok a b).zipIdx.foldl
    (fun best (row, i) =>
      row.zipIdx.foldl (fun best (n, j) => if best.size < n then ⟨i, j, n⟩ else best) best)
    ⟨0, 0, 0⟩

/-- How many characters two texts agree on from their beginning. -/
def agreement (a b : List Char) : Nat := ((a.zip b).takeWhile fun (x, y) => x == y).length

/-- The longest run, extended over all characters that agree before and after it. -/
def longestBlock (ok : Char → Bool) (a b : List Char) : Block :=
  let run := longestRun ok a b
  let before := agreement (a.take run.left).reverse (b.take run.right).reverse
  let after := agreement (a.drop (run.left + run.size)) (b.drop (run.right + run.size))
  ⟨run.left - before, run.right - before, before + run.size + after⟩

/-- The number of characters in common blocks. -/
def matched (ok : Char → Bool) (a b : List Char) : Nat :=
  let k := longestBlock ok a b
  if 0 < k.size ∧ k.left + k.size ≤ a.length then
    k.size + matched ok (a.take k.left) (b.take k.right) +
      matched ok (a.drop (k.left + k.size)) (b.drop (k.right + k.size))
  else 0
termination_by a.length
decreasing_by all_goals simp only [k, List.length_take, List.length_drop] at *; omega

/-- In a text of two hundred characters or more, those that fill more than a hundredth of it start
no block. -/
def isTelling (word : List Char) (c : Char) : Bool :=
  word.length < 200 || word.count c ≤ word.length / 100 + 1

/-- A fraction of natural numbers. -/
structure Ratio where
  num : Nat
  den : Nat
  deriving DecidableEq, Repr

def Ratio.le (p q : Ratio) : Bool := p.num * q.den ≤ q.num * p.den

/-- The share of the characters of both texts that are in common blocks; one if both are empty. -/
def likeness (candidate word : String) : Ratio :=
  let a := candidate.toList
  let b := word.toList
  if a.length + b.length = 0 then ⟨1, 1⟩ else ⟨2 * matched (isTelling b) a b, a.length + b.length⟩

/-- The least likeness of a resembling name. -/
def threshold : Ratio := ⟨3, 5⟩

/-- How many resembling names are given. -/
def maxSimilar : Nat := 3

/-- The candidates that resemble a word, the most similar first, and of equally similar ones the
last in alphabetical order. -/
def similar (word : String) (candidates : List String) : List String :=
  let rated := (candidates.map fun c => (likeness c word, c)).filter fun (r, _) => threshold.le r
  let before (x y : Ratio × String) : Bool :=
    if x.1.le y.1 && y.1.le x.1 then decide (y.2 ≤ x.2) else y.1.le x.1
  ((rated.mergeSort before).take maxSimilar).map (·.2)

end RecordView.Text
