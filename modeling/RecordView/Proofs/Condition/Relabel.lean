import RecordView.Proofs.Condition.Drawing
import RecordView.Proofs.Expression.Derived
import RecordView.Proofs.Layout.Relabel

/-! Where tokens stand has no part in what expressions mean and which tokens are seen. -/
namespace RecordView

variable {R : Relabeling} {ts : List Token}

@[simp] theorem Token.isSymbol_relabel (t : Token) (s : String) : (t.relabel R).isSymbol s = t.isSymbol s :=
  rfl

/-! ## Expressions -/

namespace Expr

variable {allowDefined : Bool}

def relabelRest (R : Relabeling) (r : Expr × List Token) : Expr × List Token :=
  (r.1, r.2.map (·.relabel R))

theorem bare_readDefined (t : Token) (ts : List Token) :
    bare (readDefined (t :: ts)) =
      if t.isSymbol "(" then
        match ts with
        | n :: close :: rest =>
          if n.kind = .identifier then
            if close.isSymbol ")" then (.defined n.text, rest) else (.fault .definedClose, [])
          else (.fault .definedName, [])
        | [n] => if n.kind = .identifier then (.fault .definedClose, []) else (.fault .definedName, [])
        | [] => (.fault .definedName, [])
      else if t.kind = .identifier then (.defined t.text, ts)
      else (.fault .definedName, []) := by
  unfold readDefined
  dsimp only
  split
  · match ts with
    | [] => rfl
    | [n] => dsimp only; split <;> rfl
    | n :: close :: rest =>
      dsimp only
      split
      · split <;> rfl
      · rfl
  · split <;> rfl

theorem readDefined_relabel (ts : List Token) :
    bare (readDefined (ts.map (·.relabel R))) = relabelRest R (bare (readDefined ts)) := by
  cases ts with
  | nil => rfl
  | cons t ts =>
    rw [List.map_cons, bare_readDefined, bare_readDefined, Token.isSymbol_relabel, Token.kind_relabel]
    split
    · match ts with
      | [] => rfl
      | [n] =>
        by_cases hn : n.kind = .identifier <;> simp [hn, relabelRest]
      | n :: close :: rest =>
        by_cases hn : n.kind = .identifier
        · by_cases hc : close.isSymbol ")" = true <;> simp [hn, hc, relabelRest]
        · simp [hn, relabelRest]
    · split <;> rfl

theorem moreOf_relabel {k : Nat}
    (ih : ∀ r : List Token, r.length < ts.length →
      levelOf allowDefined k (r.map (·.relabel R)) = relabelRest R (levelOf allowDefined k r))
    (left : Expr) :
    moreOf allowDefined k left (ts.map (·.relabel R)) = relabelRest R (moreOf allowDefined k left ts) := by
  induction hn : ts.length using Nat.strongRecOn generalizing left ts with
  | ind n ih' =>
    cases ts with
    | nil => rw [List.map_nil, moreOf_nil]; rfl
    | cons t r =>
      have hop : binaryOp? (k + 1) (t.relabel R) = binaryOp? (k + 1) t := rfl
      rw [List.map_cons]
      cases h : binaryOp? (k + 1) t with
      | none => rw [moreOf_none left _ (hop.trans h), moreOf_none left r h]; rfl
      | some op =>
        have hl := levelOf_length allowDefined k r
        rw [List.length_cons] at hn
        rw [moreOf_some left _ (hop.trans h), moreOf_some left r h, ih r (by simp)]
        refine ih' _ (by omega) (fun q hq => ih q ?_) _ rfl
        rw [List.length_cons]
        omega

theorem levelOf_relabel
    (ih : ∀ r : List Token, r.length < ts.length →
      ∀ k, levelOf allowDefined k (r.map (·.relabel R)) = relabelRest R (levelOf allowDefined k r))
    (hu : unaryOf allowDefined (ts.map (·.relabel R)) = relabelRest R (unaryOf allowDefined ts)) (k : Nat) :
    levelOf allowDefined k (ts.map (·.relabel R)) = relabelRest R (levelOf allowDefined k ts) := by
  induction k with
  | zero => rwa [levelOf_zero, levelOf_zero]
  | succ k ihk =>
    have hl := levelOf_length allowDefined k ts
    rw [levelOf_succ, levelOf_succ, ihk]
    exact moreOf_relabel (fun r hr => ih r (by omega) k) _

theorem primaryOf_relabel (t : Token) {r : List Token}
    (ih : choiceOf allowDefined (r.map (·.relabel R)) = relabelRest R (choiceOf allowDefined r)) :
    primaryOf allowDefined (t.relabel R) (r.map (·.relabel R)) =
      relabelRest R (primaryOf allowDefined t r) := by
  rw [primaryOf_eq, primaryOf_eq, Token.kind_relabel, Token.text_relabel]
  cases t.kind with
  | identifier =>
    dsimp only
    rw [readDefined_relabel]
    split
    · rfl
    split
    · rfl
    split <;> rfl
  | leftParen =>
    dsimp only
    rw [ih]
    cases choiceOf allowDefined r with
    | mk e q =>
      cases q with
      | nil => rfl
      | cons u s =>
        by_cases hu : u.isSymbol ")" = true <;> simp [hu, relabelRest]
  | _ => rfl

theorem unaryOf_relabel
    (ih : ∀ r : List Token, r.length < ts.length →
      choiceOf allowDefined (r.map (·.relabel R)) = relabelRest R (choiceOf allowDefined r) ∧
        unaryOf allowDefined (r.map (·.relabel R)) = relabelRest R (unaryOf allowDefined r)) :
    unaryOf allowDefined (ts.map (·.relabel R)) = relabelRest R (unaryOf allowDefined ts) := by
  cases ts with
  | nil => rw [List.map_nil, unaryOf_nil]; rfl
  | cons t r =>
    have hop : unaryOp? (t.relabel R) = unaryOp? t := rfl
    obtain ⟨hc, hu⟩ := ih r (by simp)
    rw [List.map_cons]
    cases h : unaryOp? t with
    | none => rw [unaryOf_none _ (hop.trans h), unaryOf_none r h, primaryOf_relabel t hc]
    | some op => rw [unaryOf_some _ (hop.trans h), unaryOf_some r h, hu]; rfl

theorem choiceOf_relabel
    (ih : ∀ r : List Token, r.length < ts.length →
      choiceOf allowDefined (r.map (·.relabel R)) = relabelRest R (choiceOf allowDefined r))
    (hl : levelOf allowDefined 10 (ts.map (·.relabel R)) = relabelRest R (levelOf allowDefined 10 ts)) :
    choiceOf allowDefined (ts.map (·.relabel R)) = relabelRest R (choiceOf allowDefined ts) := by
  have hlen := levelOf_length allowDefined 10 ts
  rw [choiceOf_eq, choiceOf_eq, hl]
  cases hc : levelOf allowDefined 10 ts with
  | mk c l =>
    rw [hc] at hlen
    cases l with
    | nil => rfl
    | cons t r =>
      have hr : r.length < ts.length := hlen
      have hclen := choiceOf_length allowDefined r
      by_cases ht : t.isSymbol "?" = true
      · simp only [relabelRest, List.map_cons, Token.isSymbol_relabel, ht, if_true, ih r hr]
        cases hc : choiceOf allowDefined r with
        | mk a q =>
          rw [hc] at hclen
          cases q with
          | nil => rfl
          | cons u s =>
            rw [List.length_cons] at hclen
            by_cases hu : u.isSymbol ":" = true <;>
              simp [hu, relabelRest, ih s (by omega)]
      · simp [relabelRest, ht]

/-- Induction on the number of tokens, as for the readers themselves. -/
theorem choiceOf_levelOf_relabel (ts : List Token) :
    choiceOf allowDefined (ts.map (·.relabel R)) = relabelRest R (choiceOf allowDefined ts) ∧
      ∀ k, levelOf allowDefined k (ts.map (·.relabel R)) = relabelRest R (levelOf allowDefined k ts) := by
  induction hn : ts.length using Nat.strongRecOn generalizing ts with
  | ind n ih =>
    have ihc (r : List Token) (hr : r.length < ts.length) := (ih _ (hn ▸ hr) r rfl).1
    have ihl (r : List Token) (hr : r.length < ts.length) := (ih _ (hn ▸ hr) r rfl).2
    have hu : unaryOf allowDefined (ts.map (·.relabel R)) = relabelRest R (unaryOf allowDefined ts) :=
      unaryOf_relabel fun r hr => ⟨ihc r hr, by simpa only [levelOf_zero] using ihl r hr 0⟩
    have hl := levelOf_relabel ihl hu
    exact ⟨choiceOf_relabel ihc (hl 10), hl⟩

theorem read_relabel (ts : List Token) :
    read allowDefined (ts.map (·.relabel R)) = read allowDefined ts := by
  rw [read_eq, read_eq, (choiceOf_levelOf_relabel ts).1]
  cases choiceOf allowDefined ts with
  | mk e q => cases q <;> rfl

theorem content_relabel (ts : List Token) :
    content (ts.map (·.relabel R)) = (content ts).map (·.relabel R) := by
  simp only [content, List.filter_map]
  rfl

end Expr

/-- The diagnostic at another place. The line that it quotes is left blank, for it may be another
one. -/
def Diagnostic.relabel (R : Relabeling) (d : Diagnostic) : Diagnostic :=
  ⟨d.problem.relabel R, d.location.map R.place, d.line.map fun _ => ""⟩

namespace Expr

theorem place_relabel (location : Option Location) (ts : List Token) :
    place (location.map R.place) (ts.map (·.relabel R)) = (place location ts).map R.place := by
  cases location with
  | some l => rfl
  | none =>
    simp only [place, content_relabel, List.head?_map]
    cases (content ts).head? with
    | none => rfl
    | some t => exact congrArg some t.location_relabel

theorem located_relabel {α : Type} (location : Option Location) (ts : List Token) (r : Evaluation α) :
    located (location.map R.place) (ts.map (·.relabel R)) r =
      (located location ts r).mapError (·.map (·.relabel R)) := by
  cases r with
  | ok a => rfl
  | error h =>
    cases h with
    | failed f => rfl
    | refused p =>
      simp only [located, place_relabel]
      rfl

theorem evaluate_relabel (scope : Scope) (allowDefined : Bool) (ts : List Token)
    (location : Option Location) :
    evaluate scope allowDefined (ts.map (·.relabel R)) (location.map R.place) =
      (evaluate scope allowDefined ts location).mapError (·.map (·.relabel R)) := by
  simp only [evaluate, content_relabel, read_relabel, List.isEmpty_map, located_relabel]

theorem evaluateCount_relabel (scope : Scope) (allowDefined : Bool) (ts : List Token)
    (location : Option Location) (what : String) :
    evaluateCount scope allowDefined (ts.map (·.relabel R)) (location.map R.place) what =
      (evaluateCount scope allowDefined ts location what).mapError (·.map (·.relabel R)) := by
  simp only [evaluateCount, evaluate_relabel, located_relabel]
  cases evaluate scope allowDefined ts location <;> rfl

end Expr

/-! ## Conditions -/

def Frame.relabel (R : Relabeling) (f : Frame) : Frame := { f with location := R.place f.location }

namespace Frames

def relabel (R : Relabeling) (fs : Frames) : Frames := fs.map (·.relabel R)

def Effect.relabel (R : Relabeling) (e : Effect) : Effect :=
  ⟨e.frames.relabel R, e.problem.map (·.relabel R), e.note.map (·.relabel R)⟩

def Draw.relabel (R : Relabeling) (d : Draw) : Draw :=
  ⟨d.found.map (·.map (·.relabel R)), d.rest.map (·.relabel R), d.frames.relabel R,
    d.errors.map (·.relabel R), d.notes.map (·.relabel R)⟩

/-- The text that a diagnostic quotes once its place is changed. -/
def blankLine : Int → String := fun _ => ""

variable (flags : Scope) (sourceLine : Int → String)

theorem active_relabel (fs : Frames) : (fs.relabel R).active = fs.active := by
  cases fs <;> rfl

theorem enter_relabel (fs : Frames) (t : Token) (body : List Token) :
    enter flags (fs.relabel R) (t.relabel R) (body.map (·.relabel R)) =
      (enter flags fs t body).map (·.relabel R) := by
  have heval : Expr.evaluate flags true (body.map (·.relabel R)) (R.place t.location) = _ :=
    Expr.evaluate_relabel flags true body (some t.location)
  simp only [enter, active_relabel, Token.location_relabel, heval]
  split
  · rfl
  · cases Expr.evaluate flags true body t.location with
    | ok c => rfl
    | error h => cases h <;> rfl

theorem turn_relabel (fs : Frames) : turn (fs.relabel R) = (turn fs).relabel R := by
  cases fs with
  | nil => rfl
  | cons f rest =>
    have hactive : active (rest.map (·.relabel R)) = active rest := active_relabel rest
    have helse : (f.relabel R).elseSeen = f.elseSeen := rfl
    simp only [relabel, List.map_cons, turn, hactive, helse]
    split
    · rfl
    · split <;> rfl

theorem leave_relabel (fs : Frames) : leave (fs.relabel R) = (leave fs).relabel R := by
  cases fs <;> rfl

theorem raise_relabel (fs : Frames) (body : List Token) :
    raise (fs.relabel R) (body.map (·.relabel R)) = (raise fs body).relabel R := by
  simp only [raise, active_relabel, List.map_map]
  split <;> rfl

theorem line_relabel (fs : Frames) (word : ConditionWord) (t : Token) (body : List Token) :
    line flags (fs.relabel R) word (t.relabel R) (body.map (·.relabel R)) =
      (line flags fs word t body).map (·.relabel R) := by
  cases word with
  | opening => exact enter_relabel flags fs t body
  | alternative => exact congrArg Except.ok (turn_relabel fs)
  | closing => exact congrArg Except.ok (leave_relabel fs)
  | error => exact congrArg Except.ok (raise_relabel fs body)

theorem finish_relabel (fs : Frames) (eof : Token) :
    finish blankLine (fs.relabel R) (eof.relabel R) = (finish sourceLine fs eof).relabel R := by
  simp only [finish, relabel, List.getLast?_map]
  cases fs.getLast? <;> rfl

theorem Draw.after_relabel (d : Draw) (errors : List Diagnostic) (notes : List Note) :
    (d.after errors notes).relabel R =
      (d.relabel R).after (errors.map (·.relabel R)) (notes.map (·.relabel R)) := by
  simp only [after, relabel, List.map_append]

/-- The line that starts at a token, wherever its tokens stand. -/
theorem line_takeWhile_relabel (fs : Frames) (word : ConditionWord) (t : Token) (ts : List Token) :
    line flags (fs.relabel R) word (t.relabel R) ((ts.map (·.relabel R)).takeWhile inLine) =
      (line flags fs word t (ts.takeWhile inLine)).map (·.relabel R) := by
  rw [List.takeWhile_map]
  exact line_relabel flags fs word t _

theorem behindLine_relabel (ts : List Token) :
    behindLine (ts.map (·.relabel R)) = (behindLine ts).map (·.relabel R) := by
  have hdrop : (ts.map (·.relabel R)).dropWhile inLine = (ts.dropWhile inLine).map (·.relabel R) := by
    rw [List.dropWhile_map]
    rfl
  rw [behindLine, behindLine, hdrop]
  cases ts.dropWhile inLine with
  | nil => rfl
  | cons e rest =>
    simp only [List.map_cons, Token.kind_relabel]
    rw [apply_ite (List.map _)]
    rfl

theorem errorsAt_relabel (t : Token) (o : Option Problem) :
    errorsAt blankLine (t.relabel R) (o.map (·.relabel R)) =
      (errorsAt sourceLine t o).map (·.relabel R) := by
  cases o with
  | none => rfl
  | some p =>
    simp only [errorsAt, Token.location_relabel]
    rfl

theorem Effect.notes_relabel (e : Effect) :
    (e.relabel R).note.toList = e.note.toList.map (·.relabel R) := by
  simp only [relabel]
  cases e.note <;> rfl

theorem Draws.relabel {fs : Frames} {d : Draw} (h : Draws flags sourceLine fs ts d) :
    draw flags blankLine (fs.relabel R) (ts.map (·.relabel R)) = d.relabel R := by
  induction h with
  | nil =>
    rw [List.map_nil, draw]
    rfl
  | eof fs ht ts => rw [List.map_cons, draw, Token.kind_relabel, if_pos ht, finish_relabel]
  | seen ht hw ha ts =>
    rw [List.map_cons, draw_plain_cons (by exact ht) (by exact hw), active_relabel, if_pos ha]
    rfl
  | skipped ht hw ha _ ih =>
    rw [List.map_cons, draw_plain_cons (by exact ht) (by exact hw), active_relabel, if_neg ha, ih]
  | @failed fs t ts word f ht hw hf =>
    have hw' : ConditionWord.ofToken? (t.relabel R) = some word := hw
    have hline := line_takeWhile_relabel (R := R) flags fs word t ts
    rw [hf] at hline
    rw [List.map_cons, draw, Token.kind_relabel, if_neg ht]
    simp only [hw', hline]
    rfl
  | @line fs t ts word effect d ht hw he _ ih =>
    have hline := line_takeWhile_relabel (R := R) flags fs word t ts
    rw [he] at hline
    rw [List.map_cons, draw_line_cons (by exact ht) (by exact hw) hline, behindLine_relabel,
      Draw.after_relabel, ← errorsAt_relabel, effect.notes_relabel, ← ih]
    rfl

end Frames
end RecordView
