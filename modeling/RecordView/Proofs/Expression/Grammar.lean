import RecordView.Expression.Value

/-! The grammar of constant expressions: derivation trees, the tokens they spell, and their values.
-/
namespace RecordView

def UnaryOp.symbol : UnaryOp → String
  | .plus => "+"
  | .minus => "-"
  | .complement => "~"
  | .not => "!"

def BinaryOp.symbol : BinaryOp → String
  | .or => "||"
  | .and => "&&"
  | .bitOr => "|"
  | .bitXor => "^"
  | .bitAnd => "&"
  | .equal => "=="
  | .unequal => "!="
  | .less => "<"
  | .lessEqual => "<="
  | .greater => ">"
  | .greaterEqual => ">="
  | .shiftLeft => "<<"
  | .shiftRight => ">>"
  | .shiftRightZero => ">>>"
  | .add => "+"
  | .sub => "-"
  | .mul => "*"
  | .div => "/"
  | .mod => "%"

variable {op : BinaryOp} {s : String}

namespace Grammar

/-- The phrases of the grammar: conditional expressions, ten levels of binary operators over the
level 0 of unary operators, and primary expressions. -/
inductive Phrase where
  | conditional
  | level (k : Nat)
  | primary
  deriving DecidableEq, Repr

def operators : Nat → List BinaryOp
  | 1 => [.mul, .div, .mod]
  | 2 => [.add, .sub]
  | 3 => [.shiftLeft, .shiftRight, .shiftRightZero]
  | 4 => [.less, .lessEqual, .greater, .greaterEqual]
  | 5 => [.equal, .unequal]
  | 6 => [.bitAnd]
  | 7 => [.bitXor]
  | 8 => [.bitOr]
  | 9 => [.and]
  | 10 => [.or]
  | _ => []

abbrev Sign (text : String) := { t : Token // t.isSymbol text = true }

abbrev Leaf (kind : Token.Kind) := { t : Token // t.kind = kind }

/-- An opening parenthesis is known by its kind, but a token that spells a unary operator is that
operator. -/
abbrev Opening := { t : Leaf .leftParen // ∀ op : UnaryOp, t.1.isSymbol op.symbol = false }

/-- A name; `defined` is none where it is a word of the grammar. -/
abbrev Name (allowDefined : Bool) :=
  { t : Leaf .identifier // ¬ (t.1.text = "defined" ∧ allowDefined = true) }

abbrev Defined (allowDefined : Bool) :=
  { t : Leaf .identifier // t.1.text = "defined" ∧ allowDefined = true }

/-- Derivation trees. Binary operators group to the left, conditional expressions to the right. -/
inductive Derivation (allowDefined : Bool) : Phrase → Type where
  | choice (cond : Derivation allowDefined (.level 10)) (question : Sign "?")
      (yes : Derivation allowDefined .conditional) (colon : Sign ":")
      (no : Derivation allowDefined .conditional) : Derivation allowDefined .conditional
  | plain (e : Derivation allowDefined (.level 10)) : Derivation allowDefined .conditional
  | binary {k : Nat} (op : { op : BinaryOp // op ∈ operators (k + 1) })
      (left : Derivation allowDefined (.level (k + 1))) (mark : Sign op.1.symbol)
      (right : Derivation allowDefined (.level k)) : Derivation allowDefined (.level (k + 1))
  | tighter {k : Nat} (e : Derivation allowDefined (.level k)) :
      Derivation allowDefined (.level (k + 1))
  | unary (op : UnaryOp) (mark : Sign op.symbol) (e : Derivation allowDefined (.level 0)) :
      Derivation allowDefined (.level 0)
  | atom (e : Derivation allowDefined .primary) : Derivation allowDefined (.level 0)
  | number (t : Leaf .number) : Derivation allowDefined .primary
  | text (t : Leaf .string) : Derivation allowDefined .primary
  | name (t : Name allowDefined) : Derivation allowDefined .primary
  | group (opening : Opening) (e : Derivation allowDefined .conditional) (closing : Sign ")") :
      Derivation allowDefined .primary
  | definedName (word : Defined allowDefined) (name : Leaf .identifier) :
      Derivation allowDefined .primary
  | definedGroup (word : Defined allowDefined) (opening : Sign "(") (name : Leaf .identifier)
      (closing : Sign ")") : Derivation allowDefined .primary

namespace Derivation
variable {allowDefined : Bool} {p : Phrase}

def yield {p : Phrase} : Derivation allowDefined p → List Token
  | choice c question yes colon no =>
    c.yield ++ question.1 :: (yes.yield ++ colon.1 :: no.yield)
  | plain e => e.yield
  | binary _ left mark right => left.yield ++ mark.1 :: right.yield
  | tighter e => e.yield
  | unary _ mark e => mark.1 :: e.yield
  | atom e => e.yield
  | number t => [t.1]
  | text t => [t.1]
  | name t => [t.1.1]
  | group opening e closing => opening.1.1 :: (e.yield ++ [closing.1])
  | definedName word n => [word.1.1, n.1]
  | definedGroup word opening n closing => [word.1.1, opening.1, n.1, closing.1]

/-- The value of a name: `true` and `false` are constants, all others are looked up. -/
def nameValue (scope : Scope) (n : String) : Evaluation Constant :=
  if n = "true" then .ok (.bool true)
  else if n = "false" then .ok (.bool false)
  else
    match scope.find? n with
    | some c => .ok c
    | none => Expr.refuse (.undefined n)

/-- The value of a tree, from the values of all its parts. -/
def value (scope : Scope) {p : Phrase} : Derivation allowDefined p → Evaluation Constant
  | choice c _ yes _ no => do
    let c ← c.value scope
    let a ← yes.value scope
    let b ← no.value scope
    return if c.truthy then a else b
  | plain e => e.value scope
  | binary op left _ right => do
    let a ← left.value scope
    let b ← right.value scope
    op.1.apply a b
  | tighter e => e.value scope
  | unary op _ e => do op.apply (← e.value scope)
  | atom e => e.value scope
  | number t =>
    match Constant.literal? t.1.text with
    | some c => .ok c
    | none => Expr.refuse (.badNumber t.1.text)
  | text t => .ok (.text t.1.text)
  | name t => nameValue scope t.1.1.text
  | group _ e _ => e.value scope
  | definedName _ n => .ok (.bool (scope.contains n.1.text))
  | definedGroup _ _ n _ => .ok (.bool (scope.contains n.1.text))

def parts {p : Phrase} : Derivation allowDefined p → List (Σ q, Derivation allowDefined q)
  | choice c q yes k no => ⟨_, choice c q yes k no⟩ :: (c.parts ++ (yes.parts ++ no.parts))
  | plain e => ⟨_, plain e⟩ :: e.parts
  | binary op left m right => ⟨_, binary op left m right⟩ :: (left.parts ++ right.parts)
  | tighter e => ⟨_, tighter e⟩ :: e.parts
  | unary op m e => ⟨_, unary op m e⟩ :: e.parts
  | atom e => ⟨_, atom e⟩ :: e.parts
  | group o e c => ⟨_, group o e c⟩ :: e.parts
  | d => [⟨_, d⟩]

def expr {p : Phrase} : Derivation allowDefined p → Expr
  | choice c _ yes _ no => .choice c.expr yes.expr no.expr
  | plain e => e.expr
  | binary op left _ right => .binary op.1 left.expr right.expr
  | tighter e => e.expr
  | unary op _ e => .unary op e.expr
  | atom e => e.expr
  | number t => .number t.1.text
  | text t => .text t.1.text
  | name t =>
    if t.1.1.text = "true" then .truth true
    else if t.1.1.text = "false" then .truth false
    else .name t.1.1.text
  | group _ e _ => .group e.expr
  | definedName _ n => .defined n.1.text
  | definedGroup _ _ n _ => .defined n.1.text

theorem value_expr (scope : Scope) (d : Derivation allowDefined p) :
    d.expr.value scope = d.value scope := by
  induction d with
  | choice c question yes colon no ihc ihy ihn => simp only [expr, value, Expr.value, ihc, ihy, ihn]
  | plain e ih => exact ih
  | binary op left mark right ihl ihr => simp only [expr, value, Expr.value, ihl, ihr]
  | tighter e ih => exact ih
  | unary op mark e ih => simp only [expr, value, Expr.value, ih]
  | atom e ih => exact ih
  | number t => rfl
  | text t => rfl
  | name t =>
    simp only [expr, value, nameValue]
    split
    · rfl
    · split <;> rfl
  | group opening e closing ih => exact ih
  | definedName word n => rfl
  | definedGroup word opening n closing => rfl

/-- No part of a tree that has a value is without one, not even a part that the value does not
depend on. -/
theorem value_of_mem_parts {scope : Scope} {d : Derivation allowDefined p} {v : Constant}
    (h : d.value scope = .ok v) {x : Σ q, Derivation allowDefined q} (hx : x ∈ d.parts) :
    ∃ w, x.2.value scope = .ok w := by
  induction d generalizing v with
  | choice c question yes colon no ihc ihy ihn =>
    obtain ⟨a, ha, h'⟩ := bind_eq_ok_iff.mp h
    obtain ⟨b, hb, h'⟩ := bind_eq_ok_iff.mp h'
    obtain ⟨e, he, -⟩ := bind_eq_ok_iff.mp h'
    simp only [parts, List.mem_cons, List.mem_append] at hx
    rcases hx with rfl | hx | hx | hx
    · exact ⟨v, h⟩
    · exact ihc ha hx
    · exact ihy hb hx
    · exact ihn he hx
  | binary op left mark right ihl ihr =>
    obtain ⟨a, ha, h'⟩ := bind_eq_ok_iff.mp h
    obtain ⟨b, hb, -⟩ := bind_eq_ok_iff.mp h'
    simp only [parts, List.mem_cons, List.mem_append] at hx
    rcases hx with rfl | hx | hx
    · exact ⟨v, h⟩
    · exact ihl ha hx
    · exact ihr hb hx
  | unary op mark e ih =>
    obtain ⟨a, ha, -⟩ := bind_eq_ok_iff.mp h
    simp only [parts, List.mem_cons] at hx
    rcases hx with rfl | hx
    · exact ⟨v, h⟩
    · exact ih ha hx
  | plain e ih | tighter e ih | atom e ih | group opening e closing ih =>
    simp only [parts, List.mem_cons] at hx
    rcases hx with rfl | hx
    · exact ⟨v, h⟩
    · exact ih h hx
  | number | text | name | definedName | definedGroup =>
    obtain rfl := List.mem_singleton.mp hx
    exact ⟨v, h⟩

end Derivation

/-! ## Signs of operators -/

theorem mem_operators_iff {k : Nat} : op ∈ operators k ↔ op.level = k := by
  constructor
  · intro h
    unfold operators at h
    split at h <;> simp only [List.mem_cons, List.not_mem_nil, or_false] at h <;>
      rcases h with rfl | rfl | rfl | rfl <;> rfl
  · rintro rfl
    cases op <;> decide

theorem ofText?_unary {op : UnaryOp} : UnaryOp.ofText? s = some op ↔ s = op.symbol := by
  constructor
  · intro h
    unfold UnaryOp.ofText? at h
    split at h <;> cases h <;> rfl
  · rintro rfl
    cases op <;> rfl

theorem ofText?_binary : BinaryOp.ofText? s = some op ↔ s = op.symbol := by
  constructor
  · intro h
    unfold BinaryOp.ofText? at h
    split at h <;> cases h <;> rfl
  · rintro rfl
    cases op <;> rfl

theorem isSymbol_iff {t : Token} : t.isSymbol s = true ↔ t.kind.isContent = false ∧ t.text = s := by
  simp [Token.isSymbol]

theorem unaryOp?_eq_some_iff {t : Token} {op : UnaryOp} :
    Expr.unaryOp? t = some op ↔ t.isSymbol op.symbol = true := by
  unfold Expr.unaryOp?
  cases h : t.kind.isContent <;> simp [isSymbol_iff, h, ofText?_unary]

theorem binaryOp?_eq_some_iff {t : Token} {k : Nat} :
    Expr.binaryOp? k t = some op ↔ t.isSymbol op.symbol = true ∧ op ∈ operators k := by
  unfold Expr.binaryOp?
  cases h : t.kind.isContent <;>
    simp [isSymbol_iff, h, Option.filter_eq_some_iff, ofText?_binary, mem_operators_iff]

end Grammar

theorem not_isSymbol_of_ne {t : Token} {s u : String} (h : t.isSymbol s = true) (hne : s ≠ u) :
    t.isSymbol u = false := by
  obtain ⟨hc, rfl⟩ := Grammar.isSymbol_iff.mp h
  simp [Token.isSymbol, hc, hne]

theorem not_isSymbol_of_name {t : Token} (h : t.kind = .identifier) (symbol : String) :
    t.isSymbol symbol = false := by
  simp [Token.isSymbol, h, Token.Kind.isContent]

end RecordView
