import RecordView.Expression.Value
import RecordView.Log

/-! Conditional lines: which tokens of a description are seen. Tokens are drawn one at a time, so
that a setting on an earlier line is in force when a later condition is decided. -/
namespace RecordView

/-- An open `#if`: whether its present branch is seen, whether its `#else` has passed, and where it
stands. -/
structure Frame where
  active : Bool
  elseSeen : Bool := false
  location : Location
  deriving DecidableEq, Repr

/-- The open `#if` lines, the innermost first. -/
abbrev Frames := List Frame

/-- The lines that conditions are made of. -/
inductive ConditionWord where
  | opening
  | alternative
  | closing
  | error
  deriving DecidableEq, Repr

def ConditionWord.ofToken? (t : Token) : Option ConditionWord :=
  match t.directive? with
  | some "if" => some .opening
  | some "else" => some .alternative
  | some "endif" => some .closing
  | some "error" => some .error
  | _ => none

namespace Frames

/-- Whether tokens are seen here. -/
def active : Frames → Bool
  | [] => true
  | f :: _ => f.active

/-- What one conditional line leads to. -/
structure Effect where
  frames : Frames
  problem : Option Problem := none
  note : Option Note := none

/-- An `#if` line. Its condition is evaluated only where tokens are seen; one without a value counts
as false. -/
def enter (flags : Scope) (fs : Frames) (t : Token) (body : List Token) : Except Failure Effect :=
  let frame (active : Bool) : Frame := ⟨active, false, t.location⟩
  if !fs.active then .ok ⟨frame false :: fs, none, some (.conditionSkipped t.line)⟩
  else
    match Expr.evaluate flags true body t.location with
    | .ok c => .ok ⟨frame c.truthy :: fs, none, some (.condition t.line c.truthy)⟩
    | .error (.refused d) => .ok ⟨frame false :: fs, some d.problem, none⟩
    | .error (.failed f) => .error f

/-- An `#else` line turns a frame over where the lines around it are seen. -/
def turn (fs : Frames) : Effect :=
  match fs with
  | [] => ⟨[], some (.condition .strayElse), none⟩
  | f :: rest =>
    if f.elseSeen then ⟨fs, some (.condition (.secondElse f.location)), none⟩
    else ⟨⟨if active rest then !f.active else f.active, true, f.location⟩ :: rest, none, none⟩

def leave (fs : Frames) : Effect :=
  match fs with
  | [] => ⟨[], some (.condition .strayEndif), none⟩
  | _ :: rest => ⟨rest, none, none⟩

def raise (fs : Frames) (body : List Token) : Effect :=
  if fs.active then
    let text := Text.trim (" ".intercalate (body.map (·.text)))
    ⟨fs, some (.condition (.raised text)), none⟩
  else ⟨fs, none, none⟩

def line (flags : Scope) (fs : Frames) (word : ConditionWord) (t : Token) (body : List Token) :
    Except Failure Effect :=
  match word with
  | .opening => enter flags fs t body
  | .alternative => .ok (turn fs)
  | .closing => .ok (leave fs)
  | .error => .ok (raise fs body)

/-- What drawing the next token gives: the token (none at the end of the stream), what is left, and
all that happened on the way to it. -/
structure Draw where
  found : Except Failure (Option Token)
  rest : List Token
  frames : Frames
  errors : List Diagnostic := []
  notes : List Note := []

/-- Puts what happened on an earlier line in front. -/
def Draw.after (d : Draw) (errors : List Diagnostic) (notes : List Note) : Draw :=
  { d with errors := errors ++ d.errors, notes := notes ++ d.notes }

/-- At the end of the input the outermost open `#if` is reported, and all are closed. -/
def finish (sourceLine : Int → String) (fs : Frames) (eof : Token) : Draw :=
  match fs.getLast? with
  | none => ⟨.ok (some eof), [], [], [], []⟩
  | some f =>
    let error := ⟨.condition .unterminated, some f.location, some (sourceLine f.location.line)⟩
    ⟨.ok (some eof), [], [], [error], []⟩

/-- The tokens up to the end of a line. -/
def inLine (t : Token) : Bool := t.kind != .newline && t.kind != .eof

/-- Draws the next token that is seen. -/
def draw (flags : Scope) (sourceLine : Int → String) (fs : Frames) (ts : List Token) : Draw :=
  match ts with
  | [] => ⟨.ok none, [], fs, [], []⟩
  | t :: ts =>
    if t.kind = .eof then finish sourceLine fs t
    else
      match ConditionWord.ofToken? t with
      | none => if fs.active then ⟨.ok (some t), ts, fs, [], []⟩ else draw flags sourceLine fs ts
      | some word =>
        match line flags fs word t (ts.takeWhile inLine) with
        | .error f => ⟨.error f, ts, fs, [], []⟩
        | .ok effect =>
          let errors :=
            effect.problem.toList.map fun p => ⟨p, some t.location, some (sourceLine t.line)⟩
          match h : ts.dropWhile inLine with
          | [] => ⟨.ok none, [], effect.frames, errors, effect.note.toList⟩
          | e :: rest =>
            have : rest.length < ts.length + 1 := by
              have := (List.dropWhile_suffix (l := ts) inLine).length_le
              rw [h, List.length_cons] at this
              omega
            (if e.kind = .eof then finish sourceLine effect.frames e
             else draw flags sourceLine effect.frames rest).after errors effect.note.toList
termination_by ts.length

theorem finish_rest (sourceLine : Int → String) (fs : Frames) (eof : Token) :
    (finish sourceLine fs eof).rest = [] := by
  unfold finish
  split <;> rfl

/-- A drawn token is taken from the stream. -/
theorem draw_rest_lt {flags : Scope} {sourceLine : Int → String} {fs : Frames} {ts : List Token}
    {t : Token} (h : (draw flags sourceLine fs ts).found = .ok (some t)) :
    (draw flags sourceLine fs ts).rest.length < ts.length := by
  fun_induction draw flags sourceLine fs ts with
  | case1 fs => simp at h
  | case2 fs t ts ht => simp [finish_rest]
  | case3 fs t ts ht hw ha => simp
  | case4 fs t ts ht hw ha ih => exact Nat.lt_succ_of_lt (ih h)
  | case5 fs t ts ht word hw f hf => simp at h
  | case6 fs t ts ht word hw effect he errors hd => simp at h
  | case7 fs t ts ht word hw effect he errors e rest hd hlt ih =>
    simp only [Draw.after] at h ⊢
    split
    · simp [finish_rest]
    · rename_i hk
      rw [if_neg hk] at h
      simp only [List.length_cons]
      exact Nat.lt_trans (ih h) hlt

/-- All tokens that are seen, each with the truth of the condition after it was drawn, and the
errors. -/
def select (flags : Scope) (sourceLine : Int → String) (fs : Frames) (ts : List Token) :
    Except Failure (List (Token × Bool) × List Diagnostic) :=
  match h : (draw flags sourceLine fs ts).found with
  | .error f => .error f
  | .ok none => .ok ([], (draw flags sourceLine fs ts).errors)
  | .ok (some t) => do
    let d := draw flags sourceLine fs ts
    have : d.rest.length < ts.length := draw_rest_lt h
    let (seen, errors) ← select flags sourceLine d.frames d.rest
    return ((t, active d.frames) :: seen, d.errors ++ errors)
termination_by ts.length

end Frames
end RecordView
