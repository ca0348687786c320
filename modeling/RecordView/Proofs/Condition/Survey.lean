import RecordView.Proofs.Condition.Drawing
import RecordView.Proofs.Settings

/-! A survey of a description: one pass over its tokens that follows its conditions and its language
settings, and decides every condition under the language that has been set before it. -/
namespace RecordView

inductive Pragma where
  | outside
  | marked
  | named (name : String)
  deriving DecidableEq, Repr

namespace Pragma

def begin (t : Token) : Pragma := if t.directive? = some "pragma" then .marked else .outside

def next (p : Pragma) (t : Token) : Pragma :=
  match p with
  | .marked => if t.kind = .identifier then .named t.text else begin t
  | _ => begin t

def language? (p : Pragma) (t : Token) : Option String :=
  match p with
  | .named name => if name = "language" ∧ t.kind = .blob then some t.text else none
  | _ => none

end Pragma

/-- What is known after some tokens: the open conditions, the settings, how much of a pragma has been
seen, and the errors and remarks of the conditions. -/
structure Survey where
  settings : Settings
  frames : Frames := []
  pragma : Pragma := .outside
  errors : List Diagnostic := []
  notes : List Note := []

variable {t : Token} {ts : List Token}

namespace Survey
open Frames

/-- One more token that is seen. -/
def see (v : Survey) (t : Token) : Survey :=
  { v with
    pragma := v.pragma.next t
    settings := (v.pragma.language? t).elim v.settings v.settings.speak }

def pass (sourceLine : Int → String) (v : Survey) (t : Token) (effect : Effect) : Survey :=
  { v with
    frames := effect.frames
    errors := v.errors ++ effect.problem.toList.map fun p => ⟨p, some t.location, some (sourceLine t.line)⟩
    notes := v.notes ++ effect.note.toList }

def close (sourceLine : Int → String) (v : Survey) (eof : Token) : Survey :=
  { v with frames := [], errors := v.errors ++ (finish sourceLine v.frames eof).errors }

/-- Follows all tokens. It fails where a condition fails. -/
def follow (sourceLine : Int → String) (v : Survey) (ts : List Token) : Survey × Option Failure :=
  match ts with
  | [] => (v, none)
  | t :: ts =>
    if t.kind = .eof then (v.close sourceLine t, none)
    else
      match ConditionWord.ofToken? t with
      | none => follow sourceLine (if v.frames.active then v.see t else v) ts
      | some word =>
        match line v.settings.flags v.frames word t (ts.takeWhile inLine) with
        | .error f => (v, some f)
        | .ok effect =>
          let v := v.pass sourceLine t effect
          match h : ts.dropWhile inLine with
          | [] => (v, none)
          | e :: rest =>
            have : rest.length < ts.length + 1 := by
              have := (List.dropWhile_suffix (l := ts) inLine).length_le
              rw [h, List.length_cons] at this
              omega
            if e.kind = .eof then (v.close sourceLine e, none) else follow sourceLine v rest
termination_by ts.length

variable {sourceLine : Int → String} {v : Survey}

theorem follow_nil (v : Survey) : v.follow sourceLine [] = (v, none) := by rw [follow]

theorem follow_eof (ht : t.kind = .eof) (ts : List Token) :
    v.follow sourceLine (t :: ts) = (v.close sourceLine t, none) := by
  rw [follow, if_pos ht]

theorem follow_plain (ht : t.kind ≠ .eof) (hw : ConditionWord.ofToken? t = none) (ts : List Token) :
    v.follow sourceLine (t :: ts) = (if v.frames.active then v.see t else v).follow sourceLine ts := by
  rw [follow, if_neg ht]
  simp only [hw]

theorem follow_line {word : ConditionWord} {effect : Effect} (ht : t.kind ≠ .eof)
    (hw : ConditionWord.ofToken? t = some word)
    (he : line v.settings.flags v.frames word t (ts.takeWhile inLine) = .ok effect) :
    v.follow sourceLine (t :: ts) = (v.pass sourceLine t effect).follow sourceLine (behindLine ts) := by
  rw [follow, if_neg ht]
  simp only [hw, he]
  split
  · rename_i hd
    rw [behindLine, hd, follow_nil]
  · rename_i e rest hd
    rw [behindLine, hd]
    dsimp only
    by_cases hk : e.kind = .eof
    · rw [if_pos hk, if_pos hk, follow_eof hk]
    · rw [if_neg hk, if_neg hk]

/-! ## Drawing -/

def drawn (v : Survey) (d : Draw) : Survey :=
  { v with frames := d.frames, errors := v.errors ++ d.errors, notes := v.notes ++ d.notes }

/-- What a survey finds where a drawing stops: what the drawing has passed, and then the token that it
has drawn. -/
structure Meets (sourceLine : Int → String) (v : Survey) (ts : List Token) (d : Draw) : Prop where
  failed : ∀ f, d.found = .error f → v.follow sourceLine ts = (v.drawn d, some f)
  ended : ∀ o, d.found = .ok o → (∀ t, o = some t → t.kind = .eof) →
    v.follow sourceLine ts = (v.drawn d, none)
  seen : ∀ t, d.found = .ok (some t) → t.kind ≠ .eof → ∃ p, ts = p ++ d.rest ∧
    ∀ q, v.follow sourceLine (p ++ q) = ((v.drawn d).see t).follow sourceLine q

theorem drawn_after (v : Survey) (t : Token) (effect : Effect) (d : Draw) :
    v.drawn (d.after (errorsAt sourceLine t effect.problem) effect.note.toList) =
      (v.pass sourceLine t effect).drawn d := by
  simp [drawn, Draw.after, pass, errorsAt]

theorem drawn_self (v : Survey) (found : Except Failure (Option Token)) (rest : List Token) :
    v.drawn ⟨found, rest, v.frames, [], []⟩ = v := by simp [drawn]

/-- A survey passes what a drawing under its settings passes, and sees what it draws. -/
theorem follow_of_draws {d : Draw} (h : Draws v.settings.flags sourceLine v.frames ts d) :
    v.follow sourceLine ts =
      match d.found with
      | .error f => (v.drawn d, some f)
      | .ok none => (v.drawn d, none)
      | .ok (some t) =>
        if t.kind = .eof then (v.drawn d, none) else ((v.drawn d).see t).follow sourceLine d.rest := by
  generalize hflags : v.settings.flags = flags at h
  generalize hframes : v.frames = fs at h
  induction h generalizing v with
  | nil =>
    subst hframes
    rw [follow_nil, drawn_self]
  | eof fs ht ts =>
    subst hframes
    rw [follow_eof ht, finish_found]
    dsimp only
    rw [if_pos ht]
    unfold drawn close finish
    split <;> simp
  | seen ht hw ha ts =>
    subst hframes
    dsimp only
    rw [follow_plain ht hw, if_pos ha, if_neg ht, drawn_self]
  | skipped ht hw ha _ ih => rw [follow_plain ht hw, hframes, if_neg ha, ih hflags hframes]
  | failed ht hw hf =>
    subst hframes hflags
    rw [follow, if_neg ht, drawn_self]
    simp only [hw, hf]
  | line ht hw he _ ih =>
    subst hframes hflags
    rw [follow_line ht hw he, drawn_after]
    exact ih rfl rfl

theorem meets_draw (v : Survey) (ts : List Token) :
    v.Meets sourceLine ts (draw v.settings.flags sourceLine v.frames ts) := by
  have hdraws := draws v.settings.flags sourceLine v.frames ts
  have hfollow := follow_of_draws hdraws
  constructor
  · intro f hf
    rw [hfollow, hf]
  · intro o ho hk
    rw [hfollow, ho]
    cases o with
    | none => rfl
    | some t => exact if_pos (hk t rfl)
  · intro t ht hk
    obtain ⟨hw, c, hts, hall⟩ := hdraws.seen_append ht hk
    have hactive := hdraws.stops.seen t ht hk
    refine ⟨c ++ [t], by rw [List.append_assoc]; exact hts, fun q => ?_⟩
    -- what stands in front of the token is passed in the same way, whatever follows it
    have hq := follow_of_draws (draws v.settings.flags sourceLine v.frames (c ++ t :: q))
    rw [hall, draw_plain_cons hk hw, if_pos hactive] at hq
    rw [List.append_assoc, List.singleton_append, hq]
    simp [Draw.after, hk, drawn]

/-! ## What conditions tell -/

end Survey

def Problem.isCondition (p : Problem) : Bool := p.kind == .condition || p.kind == .expression

def Note.isCondition : Note → Bool
  | .condition .. | .conditionSkipped _ => true
  | _ => false

namespace Frames

variable {flags : Scope} {sourceLine : Int → String} {fs : Frames}

theorem isCondition_line {word : ConditionWord} {body : List Token} {effect : Effect}
    (h : line flags fs word t body = .ok effect) :
    (∀ p ∈ effect.problem, p.isCondition = true) ∧ ∀ n ∈ effect.note, n.isCondition = true := by
  constructor
  · intro p hp
    rcases problem_of_line h hp with ⟨x, rfl⟩ | ⟨x, rfl, -⟩ <;> rfl
  · cases word with
    | opening =>
      simp only [line, enter] at h
      split at h
      · cases h
        simp [Note.isCondition]
      split at h <;> cases h <;> simp [Note.isCondition]
    | alternative =>
      cases h
      unfold turn
      split
      · simp
      · split <;> simp
    | closing =>
      cases h
      unfold leave
      split <;> simp
    | error =>
      cases h
      unfold raise
      split <;> simp

/-- All that a drawing adds to the report and the log is of conditions. -/
structure Draw.OfConditions (d : Draw) : Prop where
  errors : ∀ e ∈ d.errors, e.problem.isCondition = true
  notes : ∀ n ∈ d.notes, n.isCondition = true

theorem Draws.ofConditions {d : Draw} (h : Draws flags sourceLine fs ts d) : d.OfConditions := by
  have hempty (found : Except Failure (Option Token)) (rest : List Token) (fs : Frames) :
      (⟨found, rest, fs, [], []⟩ : Draw).OfConditions := by
    constructor <;> simp
  induction h with
  | nil | seen | failed => exact hempty _ _ _
  | eof =>
    unfold finish
    split
    · exact hempty _ _ _
    · constructor <;> simp [Problem.isCondition, Problem.kind]
  | skipped _ _ _ _ ih => exact ih
  | line _ _ he _ ih =>
    obtain ⟨hproblem, hnote⟩ := isCondition_line he
    constructor
    · intro x hx
      rcases List.mem_append.mp hx with hx | hx
      · obtain ⟨p, hp, rfl⟩ := List.mem_map.mp hx
        exact hproblem p (by simpa using hp)
      · exact ih.errors x hx
    · intro n hn
      rcases List.mem_append.mp hn with hn | hn
      · exact hnote n (by simpa using hn)
      · exact ih.notes n hn

end Frames
end RecordView
