import RecordView.Proofs.Layout.Placing

/-! What the rounds of a body keep of a draft. -/
namespace RecordView
namespace Draft

variable {d d' : Draft} {u : Surroundings} {s : Settings}

theorem Change.follows (h : Change u d d') : Follows d d' := by
  cases h with
  | same => exact .refl d
  | field f => exact follows_put f u d _
  | openUnion => exact (follows_flush _ d).trans ⟨rfl, rfl, rfl, rfl, rfl, Nat.le_refl _, List.prefix_rfl⟩
  | closeUnion => exact follows_closeUnion _ d

/-! ## Runs in a union -/

theorem run_addAll (d : Draft) (fs : List Field) : (d.addAll fs).run = d.run := by
  induction fs generalizing d with
  | nil => rfl
  | cons f fs ih =>
    refine (ih (d.add f)).trans ?_
    unfold add
    split
    · split <;> rfl
    · rfl

theorem run_store (d : Draft) (p : Piece) : (d.store p).run = d.run := by
  rw [store, run_addAll]
  unfold allocate
  split <;> rfl

theorem run_flush (s : Settings) (d : Draft) : (d.flush s).run = {} := by
  cases hr : d.run.isEmpty with
  | true =>
    rw [flush_of_isEmpty s hr]
    exact BitRun.eq_of_isEmpty hr
  | false => rw [flush_eq s hr]

theorem run_place (s : Settings) (d : Draft) (name : String) (kind : FieldKind)
    (size alignment : Nat) (padding : Bool) (line : Nat) :
    (d.place s name kind size alignment padding line).run = {} := by
  have hp : d.place s name kind size alignment padding line =
      (((d.flush s).allocate size alignment).2.addAll
        [⟨name, kind, ((d.flush s).allocate size alignment).1, size, padding, line⟩]) := rfl
  rw [hp, run_addAll]
  unfold allocate
  split <;> exact run_flush s d

theorem run_closeUnion (s : Settings) (d : Draft) : (d.closeUnion s).1.run = {} := by
  unfold closeUnion
  dsimp only
  split
  · exact run_flush s d
  · exact (run_addAll _ _).trans (run_flush s d)

/-- In a union no bit field waits for a word. -/
def Settled (d : Draft) : Prop := d.inUnion = true → d.run.isEmpty = true

theorem settled_of_run {d : Draft} (h : d.run = {}) : d.Settled := by
  intro _
  rw [h]
  rfl

theorem settled_addBits (s : Settings) (d : Draft) (p : PendingBits) : (d.addBits s p).Settled := by
  unfold addBits
  dsimp only
  split
  · exact settled_of_run (run_flush s _)
  · rename_i hu
    exact fun hu' => absurd hu' hu

theorem Change.settled (h : Change u d d') (hd : d.Settled) : d'.Settled := by
  cases h with
  | same => exact hd
  | @field f c =>
    cases c with
    | bits count boolean declaredBytes => exact settled_addBits _ _ _
    | plain kind size alignment => exact settled_of_run (run_place _ _ _ _ _ _ _ _)
    | tail p => exact settled_of_run (run_place _ _ _ _ _ _ _ _)
  -- a union starts and ends without a run
  | openUnion => exact settled_of_run (run_flush _ d)
  | closeUnion => exact settled_of_run (run_closeUnion _ d)

end Draft

namespace Declaration
open Reader Draft

variable {env : Env} {d₀ d : Draft} {s₀ s : State}

theorem runs_registry (h : Runs memberRound env d₀ s₀ d s) : s.registry = s₀.registry :=
  h.keeps fun d => Keeps.registry (bodyPath_declarations.memberRound d)

theorem runs_follows (h : Runs memberRound env d₀ s₀ d s) : Follows d₀ d := by
  induction h with
  | start => exact .refl d₀
  | next _ round _ ih => exact ih.trans (memberRound_again round).follows

theorem runs_settled (h : Runs memberRound env d₀ s₀ d s) (h₀ : d₀.Settled) : d.Settled := by
  induction h with
  | start => exact h₀
  | next _ round _ ih => exact (memberRound_again round).settled ih

theorem Fresh.settled {r : Registry} {form : Form} (h : Fresh r form d₀) : d₀.Settled :=
  settled_of_run h.run_eq

end Declaration
end RecordView
