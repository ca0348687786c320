import RecordView.Proofs.Condition.Drawing
import RecordView.Proofs.Token.Thinning

/-! Drawing from a stream without some of its comments: conditions are decided alike, and the same
tokens are seen. -/
namespace RecordView.Frames

variable {flags : Scope} {sourceLine : Int → String} {fs : Frames} {ts us : List Token}

def Draw.outcome (d : Draw) : Except Failure (Option Token) × List Token × Frames × List Diagnostic :=
  (d.found, d.rest, d.frames, d.errors)

theorem inLine_comment {c : Token} (h : c.kind = .comment) : inLine c = true := by
  simp [inLine, h]

/-- A token that starts a conditional line is a directive. -/
theorem kind_of_ofToken? {t : Token} {word : ConditionWord}
    (h : ConditionWord.ofToken? t = some word) : t.kind = .directive := by
  unfold ConditionWord.ofToken? Token.directive? at h
  by_cases hkind : t.kind = .directive
  · exact hkind
  · simp [hkind] at h

/-- A line without an error has the same effect without the comments in it. -/
theorem line_thins {word : ConditionWord} {t : Token} {body body' : List Token} {effect : Effect}
    (h : Thins body body') (hline : line flags fs word t body = .ok effect)
    (hproblem : effect.problem = none) : line flags fs word t body' = .ok effect := by
  cases word with
  | opening =>
    simp only [line, enter] at hline ⊢
    rwa [← h.evaluate_eq]
  | alternative => exact hline
  | closing => exact hline
  | error =>
    simp only [line, raise] at hline ⊢
    split at hline
    · cases hline
      cases hproblem
    · rename_i hactive
      rwa [if_neg hactive]

/-- How the drawing `d` that found `o` goes on a stream without some of the comments. If it found one of
them, the other drawing is the one from behind it; otherwise that one finds the same. -/
inductive Thinned (flags : Scope) (sourceLine : Int → String) (d d' : Draw) (o : Option Token) : Prop where
  | dropped {c : Token} {us : List Token} (found : o = some c) (comment : c.kind = .comment)
      (rest : Thins d.rest us) (onward : d'.outcome = (draw flags sourceLine d.frames us).outcome)
  | same (found : d'.found = .ok o) (rest : Thins d.rest d'.rest) (frames : d'.frames = d.frames)
      (errors : d'.errors = [])

theorem Thinned.after {d d' : Draw} {o : Option Token} (h : Thinned flags sourceLine d d' o)
    (notes : List Note) : Thinned flags sourceLine (d.after [] notes) (d'.after [] notes) o := by
  cases h with
  | dropped found comment rest onward => exact .dropped found comment rest onward
  | same found rest frames errors => exact .same found rest frames errors

/-- What stands behind a line, without some of the comments. -/
theorem behindLine_thins (h : Thins ts us) : Thins (behindLine ts) (behindLine us) := by
  have hend := (h.cut fun _ => inLine_comment).2
  unfold behindLine
  split
  · rename_i hd
    rw [hd] at hend
    rw [hend.nil_inv]
    exact .nil
  · rename_i e rest hd
    have hhead := List.head?_dropWhile_not inLine ts
    rw [hd] at hend hhead
    obtain ⟨us', hd', hafter⟩ := hend.cons_inv fun hcomment => by simp [inLine_comment hcomment] at hhead
    rw [hd']
    dsimp only
    split
    · exact .keep e hafter
    · exact hafter

theorem Draws.thins {d : Draw} (h : Draws flags sourceLine fs ts d) (hthins : Thins ts us)
    {o : Option Token} (hfound : d.found = .ok o) (hclean : d.errors = []) :
    Thinned flags sourceLine d (draw flags sourceLine fs us) o := by
  induction h generalizing us with
  | nil =>
    cases hthins.nil_inv
    cases hfound
    rw [draw]
    exact .same rfl .nil rfl rfl
  | eof fs ht ts =>
    obtain ⟨us, rfl, -⟩ := hthins.cons_inv (by rw [ht]; decide)
    rw [draw, if_pos ht]
    exact .same hfound (.refl _) rfl hclean
  | seen ht hw ha ts =>
    cases hfound
    cases hthins with
    | keep _ rest =>
      rw [draw_plain_cons ht hw, if_pos ha]
      exact .same rfl rest rfl rfl
    | drop comment rest => exact .dropped rfl comment rest rfl
  | skipped ht hw ha _ ih =>
    cases hthins with
    | keep _ rest =>
      rw [draw_plain_cons ht hw, if_neg ha]
      exact ih rest hfound hclean
    | drop comment rest => exact ih rest hfound hclean
  | failed => cases hfound
  | @line fs t ts word effect d ht hw he _ ih =>
    obtain ⟨us, rfl, hrest⟩ := hthins.cons_inv (by rw [kind_of_ofToken? hw]; decide)
    have hbody := (hrest.cut fun _ => inLine_comment).1
    obtain ⟨herrors, hclean⟩ := List.append_eq_nil_iff.mp hclean
    have hproblem : effect.problem = none := by simpa [errorsAt] using herrors
    rw [draw_line_cons ht hw (line_thins hbody he hproblem), herrors]
    exact (ih (behindLine_thins hrest) hfound hclean).after _

end RecordView.Frames
