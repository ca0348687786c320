import RecordView.Proofs.Condition.Block
import RecordView.Proofs.Condition.Drawing

/-! Drawing a stream of nested blocks. One lemma for each kind of line says what it does to the
frames; then a block in a dead branch leaves no trace, and a block in a selected branch yields what
its tree selects and leaves the frames as they were. -/
namespace RecordView

variable {w : ConditionWord} {fs : Frames} {f : Failure}

namespace Frames
open Conditional

variable {flags : Scope} {sourceLine : Int → String}

/-! ## One line -/

theorem ofToken?_of_directive {t : Token} (h : t.directive? = some w.text) :
    ConditionWord.ofToken? t = some w := by
  unfold ConditionWord.ofToken?
  rw [h]
  cases w <;> rfl

theorem ofToken?_plain (p : Plain) : ConditionWord.ofToken? p.token = none := by
  have h := p.not_mark
  unfold ConditionWord.ofToken?
  split
  · exact absurd ‹_› (h .opening)
  · exact absurd ‹_› (h .alternative)
  · exact absurd ‹_› (h .closing)
  · exact absurd ‹_› (h .error)
  · rfl

theorem kind_of_directive {t : Token} {s : String} (h : t.directive? = some s) :
    t.kind = .directive := by
  unfold Token.directive? at h
  split at h
  · assumption
  · cases h

theorem inLine_of_mem (l : Line w) {t : Token} (h : t ∈ l.body) : inLine t = true := by
  obtain ⟨hn, he⟩ := l.body_inLine t h
  simp [inLine, hn, he]

theorem not_inLine_ending (l : Line w) : inLine l.ending = false := by
  simp [inLine, l.ending_newline]

/-- A conditional line is taken as a whole, and the drawing goes on behind it. -/
theorem draw_line (l : Line w) (fs : Frames) (rest : List Token) :
    draw flags sourceLine fs (l.tokens ++ rest) =
      match line flags fs w l.mark l.body with
      | .error f => ⟨.error f, l.body ++ [l.ending] ++ rest, fs, [], []⟩
      | .ok e =>
        (draw flags sourceLine e.frames rest).after (e.problem.toList.map (l.diagnostic sourceLine))
          e.note.toList := by
  have hk : l.mark.kind ≠ .eof := by
    rw [kind_of_directive l.mark_word]
    decide
  have ht : (l.body ++ [l.ending] ++ rest).takeWhile inLine = l.body := by
    rw [List.append_assoc, List.takeWhile_append_of_pos fun t => inLine_of_mem l]
    simp [not_inLine_ending]
  have hd : behindLine (l.body ++ [l.ending] ++ rest) = rest := by
    rw [behindLine, List.append_assoc, List.dropWhile_append_of_pos fun t => inLine_of_mem l]
    simp [not_inLine_ending, l.ending_newline]
  have hw := ofToken?_of_directive l.mark_word
  cases he : line flags fs w l.mark l.body with
  | error f =>
    rw [Line.tokens, List.cons_append, List.cons_append, draw, if_neg hk]
    simp only [hw, ht, he]
  | ok e =>
    rw [Line.tokens, List.cons_append, List.cons_append, draw_line_cons hk hw (ht.symm ▸ he), hd]
    rfl

theorem draw_plain (p : Plain) (fs : Frames) (rest : List Token) :
    draw flags sourceLine fs (p.token :: rest) =
      if fs.active then ⟨.ok (some p.token), rest, fs, [], []⟩
      else draw flags sourceLine fs rest := draw_plain_cons p.not_eof (ofToken?_plain p) rest

theorem draw_eof (text file : String) (n c : Nat) :
    draw flags sourceLine [] [⟨.eof, text, file, n, c⟩] =
      ⟨.ok (some ⟨.eof, text, file, n, c⟩), [], [], [], []⟩ := by
  rw [draw]
  rfl

theorem after_after (d : Draw) (es es' : List Diagnostic) (ns ns' : List Note) :
    (d.after es ns).after es' ns' = d.after (es' ++ es) (ns' ++ ns) := by
  simp [Draw.after]

/-! ## Whole streams -/

/-- The outcome of a run: the tokens that are seen, the errors, and the frames that are left. -/
abbrev Outcome := Except Failure (List (Token × Bool) × List Diagnostic × Frames)

def report (es : List Diagnostic) (r : Outcome) : Outcome := r.map fun r => (r.1, es ++ r.2.1, r.2.2)

theorem report_nil (r : Outcome) : report [] r = r := by
  cases r <;> rfl

def run (flags : Scope) (sourceLine : Int → String) (fs : Frames) (ts : List Token) : Outcome :=
  match h : (draw flags sourceLine fs ts).found with
  | .error f => .error f
  | .ok none => .ok ([], (draw flags sourceLine fs ts).errors, (draw flags sourceLine fs ts).frames)
  | .ok (some t) =>
    have : (draw flags sourceLine fs ts).rest.length < ts.length := draw_rest_lt h
    (run flags sourceLine (draw flags sourceLine fs ts).frames (draw flags sourceLine fs ts).rest).map
      fun r =>
        ((t, active (draw flags sourceLine fs ts).frames) :: r.1,
          (draw flags sourceLine fs ts).errors ++ r.2.1, r.2.2)
termination_by ts.length

theorem run_eq (fs : Frames) (ts : List Token) :
    run flags sourceLine fs ts =
      match (draw flags sourceLine fs ts).found with
      | .error f => .error f
      | .ok none =>
        .ok ([], (draw flags sourceLine fs ts).errors, (draw flags sourceLine fs ts).frames)
      | .ok (some t) =>
        (run flags sourceLine (draw flags sourceLine fs ts).frames
            (draw flags sourceLine fs ts).rest).map
          fun r =>
            ((t, active (draw flags sourceLine fs ts).frames) :: r.1,
              (draw flags sourceLine fs ts).errors ++ r.2.1, r.2.2) := by
  rw [run]
  split <;> simp [*]

theorem select_eq_run (fs : Frames) (ts : List Token) :
    select flags sourceLine fs ts = (run flags sourceLine fs ts).map fun r => (r.1, r.2.1) := by
  fun_induction run flags sourceLine fs ts with
  | case1 fs ts f h =>
    rw [select]
    split <;> simp_all [Except.map]
  | case2 fs ts h =>
    rw [select]
    split <;> simp_all [Except.map]
  | case3 fs ts t h hlt ih =>
    rw [select]
    split
    · simp_all
    · simp_all
    · rename_i u hu
      obtain rfl : u = t := by simpa [hu] using h
      dsimp only
      rw [ih]
      cases run flags sourceLine (draw flags sourceLine fs ts).frames
          (draw flags sourceLine fs ts).rest with
      | error f => rfl
      | ok r => rfl

/-- A draw that comes down to another one adds its errors to that run. -/
theorem run_of_draw {fs' : Frames} {ts ts' : List Token} {es : List Diagnostic} {ns : List Note}
    (h : draw flags sourceLine fs ts = (draw flags sourceLine fs' ts').after es ns) :
    run flags sourceLine fs ts = report es (run flags sourceLine fs' ts') := by
  rw [run_eq, run_eq fs' ts', h]
  simp only [Draw.after]
  cases (draw flags sourceLine fs' ts').found with
  | error f => rfl
  | ok o =>
    cases o with
    | none => rfl
    | some t =>
      cases run flags sourceLine (draw flags sourceLine fs' ts').frames
          (draw flags sourceLine fs' ts').rest with
      | error f => rfl
      | ok r => simp [report, Except.map]

theorem run_failed {ts : List Token} (h : (draw flags sourceLine fs ts).found = .error f) :
    run flags sourceLine fs ts = .error f := by
  rw [run_eq, h]

/-! ## Lines of a block -/

theorem draw_closing (l : Line .closing) (f : Frame) (fs : Frames) (rest : List Token) :
    draw flags sourceLine (f :: fs) (l.tokens ++ rest) =
      (draw flags sourceLine fs rest).after [] [] := by
  rw [draw_line]
  rfl

theorem draw_alternative (l : Line .alternative) (a : Bool) (loc : Location) (fs : Frames)
    (rest : List Token) :
    draw flags sourceLine (⟨a, false, loc⟩ :: fs) (l.tokens ++ rest) =
      (draw flags sourceLine (⟨if fs.active then !a else a, true, loc⟩ :: fs) rest).after [] [] := by
  rw [draw_line]
  rfl

theorem draw_error (l : Line .error) (fs : Frames) (rest : List Token) :
    draw flags sourceLine fs (l.tokens ++ rest) =
      (draw flags sourceLine fs rest).after (if fs.active then [l.raised sourceLine] else []) [] := by
  rw [draw_line]
  by_cases h : fs.active <;> simp [line, raise, h, Line.raised]

/-- Where nothing is seen, an `#if` line is not evaluated. -/
theorem draw_opening_dead (l : Line .opening) (h : fs.active = false) (rest : List Token) :
    draw flags sourceLine fs (l.tokens ++ rest) =
      (draw flags sourceLine (⟨false, false, l.mark.location⟩ :: fs) rest).after []
        [.conditionSkipped l.mark.line] := by
  rw [draw_line]
  simp [line, enter, h]

theorem draw_opening_failed (l : Line .opening) (h : fs.active = true) (hf : l.failure? flags = some f)
    (rest : List Token) : (draw flags sourceLine fs (l.tokens ++ rest)).found = .error f := by
  rw [draw_line]
  unfold Line.failure? Line.verdict at hf
  split at hf
  · rename_i he
    obtain rfl := Option.some.inj hf
    simp [line, enter, h, he]
  · cases hf

theorem draw_opening (sourceLine : Int → String) (l : Line .opening) (h : fs.active = true)
    (hf : l.failure? flags = none) (rest : List Token) :
    ∃ ns, draw flags sourceLine fs (l.tokens ++ rest) =
      (draw flags sourceLine (⟨l.holds flags, false, l.mark.location⟩ :: fs) rest).after
        (l.complaints flags sourceLine) ns := by
  rw [draw_line]
  unfold Line.failure? Line.verdict at hf
  cases he : Expr.evaluate flags true l.body l.mark.location with
  | ok c => exact ⟨_, by simp [line, enter, h, he, Line.holds, Line.complaints, Line.verdict]; rfl⟩
  | error e =>
    cases e with
    | refused d =>
      exact ⟨[], by simp [line, enter, h, he, Line.holds, Line.complaints, Line.verdict]⟩
    | failed f => simp [he] at hf

/-! ## Blocks -/

theorem dead_cons (f : Frame) (fs : Frames) (h : f.active = false) : active (f :: fs) = false := h

/-- A block in a branch that is not selected yields nothing and reports nothing. -/
theorem draw_dead (flags : Scope) (sourceLine : Int → String) (b : Block) (h : fs.active = false)
    (rest : List Token) :
    ∃ ns, draw flags sourceLine fs (b.tokens ++ rest) =
      (draw flags sourceLine fs rest).after [] ns := by
  induction b generalizing fs rest with
  | empty => exact ⟨[], rfl⟩
  | plain t next ih =>
    obtain ⟨ns, hn⟩ := ih h rest
    exact ⟨ns, by rw [Block.tokens, List.cons_append, draw_plain, if_neg (by simp [h]), hn]⟩
  | error l next ih =>
    obtain ⟨ns, hn⟩ := ih h rest
    refine ⟨ns, ?_⟩
    rw [Block.tokens, List.append_assoc, draw_error, hn, after_after]
    simp [h]
  | single c yes close next ihy ihn =>
    obtain ⟨ns, hn⟩ := ihn h rest
    obtain ⟨ms, hm⟩ := ihy (dead_cons ⟨false, false, c.mark.location⟩ fs rfl)
      (close.tokens ++ (next.tokens ++ rest))
    refine ⟨[.conditionSkipped c.mark.line] ++ (ms ++ ns), ?_⟩
    simp only [Block.tokens, List.append_assoc]
    rw [draw_opening_dead c h, hm, draw_closing, hn]
    simp [after_after]
  | double c yes turn no close next ihy iho ihn =>
    obtain ⟨ns, hn⟩ := ihn h rest
    obtain ⟨ks, hk⟩ := iho (dead_cons ⟨false, true, c.mark.location⟩ fs rfl)
      (close.tokens ++ (next.tokens ++ rest))
    obtain ⟨ms, hm⟩ := ihy (dead_cons ⟨false, false, c.mark.location⟩ fs rfl)
      (turn.tokens ++ (no.tokens ++ (close.tokens ++ (next.tokens ++ rest))))
    refine ⟨[.conditionSkipped c.mark.line] ++ (ms ++ (ks ++ ns)), ?_⟩
    simp only [Block.tokens, List.append_assoc]
    rw [draw_opening_dead c h, hm, draw_alternative, if_neg (by simp [h]), hk, draw_closing, hn]
    simp [after_after]

theorem run_dead (b : Block) (h : fs.active = false) (rest : List Token) :
    run flags sourceLine fs (b.tokens ++ rest) = run flags sourceLine fs rest := by
  obtain ⟨ns, hd⟩ := draw_dead flags sourceLine b h rest
  rw [run_of_draw hd, report_nil]

theorem run_closing (l : Line .closing) (f : Frame) (fs : Frames) (rest : List Token) :
    run flags sourceLine (f :: fs) (l.tokens ++ rest) = run flags sourceLine fs rest := by
  rw [run_of_draw (draw_closing l f fs rest), report_nil]

theorem run_alternative (l : Line .alternative) (a : Bool) (loc : Location) (h : fs.active = true)
    (rest : List Token) :
    run flags sourceLine (⟨a, false, loc⟩ :: fs) (l.tokens ++ rest) =
      run flags sourceLine (⟨!a, true, loc⟩ :: fs) rest := by
  rw [run_of_draw (draw_alternative l a loc fs rest), report_nil, if_pos h]

/-- Puts what a block yields and reports in front of what follows it, unless a condition of the block
fails. -/
def precede (b : Block) (flags : Scope) (sourceLine : Int → String) (r : Outcome) : Outcome :=
  match b.failure? flags with
  | some f => .error f
  | none =>
    r.map fun r =>
      ((b.seen flags).map (·, true) ++ r.1, b.errors flags sourceLine ++ r.2.1, r.2.2)

theorem precede_empty (r : Outcome) : precede .empty flags sourceLine r = r := by
  cases r <;> rfl

theorem precede_plain (t : Plain) (next : Block) (r : Outcome) :
    precede (.plain t next) flags sourceLine r =
      (precede next flags sourceLine r).map fun r => ((t.token, true) :: r.1, r.2) := by
  unfold precede
  rw [show Block.failure? (.plain t next) flags = next.failure? flags from rfl]
  cases next.failure? flags with
  | some f => rfl
  | none => cases r <;> rfl

theorem precede_error (l : Line .error) (next : Block) (r : Outcome) :
    precede (.error l next) flags sourceLine r =
      report [l.raised sourceLine] (precede next flags sourceLine r) := by
  unfold precede
  rw [show Block.failure? (.error l next) flags = next.failure? flags from rfl]
  cases next.failure? flags with
  | some f => rfl
  | none => cases r <;> rfl

/-- An `#if` line with the branch that it selects. -/
theorem precede_node {b : Block} {c : Line .opening} (chosen next : Block)
    (hc : c.failure? flags = none)
    (hf : b.conditions flags = c :: (chosen.conditions flags ++ next.conditions flags))
    (hs : b.seen flags = chosen.seen flags ++ next.seen flags)
    (he : b.errors flags sourceLine = c.complaints flags sourceLine ++
      chosen.errors flags sourceLine ++ next.errors flags sourceLine) (r : Outcome) :
    precede b flags sourceLine r =
      report (c.complaints flags sourceLine)
        (precede chosen flags sourceLine (precede next flags sourceLine r)) := by
  have hb : b.failure? flags = (chosen.failure? flags).or (next.failure? flags) := by
    simp [Block.failure?, hf, hc, List.findSome?_append]
  simp only [precede, hb, hs, he]
  cases chosen.failure? flags with
  | some f => rfl
  | none =>
    cases next.failure? flags with
    | some f => rfl
    | none => cases r <;> simp [report, Except.map]

theorem failure?_of_first {b : Block} {c : Line .opening} {cs : List (Line .opening)}
    (h : b.conditions flags = c :: cs) (hc : c.failure? flags = some f) : b.failure? flags = some f := by
  simp [Block.failure?, h, hc]

theorem precede_failed {b : Block} (h : b.failure? flags = some f) (r : Outcome) :
    precede b flags sourceLine r = .error f := by
  simp [precede, h]

/-- In a branch that is selected, a block yields the tokens and errors of its tree, and the frames
are the same after it. -/
theorem run_block (b : Block) (h : fs.active = true) (rest : List Token) :
    run flags sourceLine fs (b.tokens ++ rest) =
      precede b flags sourceLine (run flags sourceLine fs rest) := by
  induction b generalizing fs rest with
  | empty => rw [precede_empty, Block.tokens, List.nil_append]
  | plain t next ih =>
    rw [Block.tokens, List.cons_append, run_eq, draw_plain, if_pos h, precede_plain, ← ih h]
    simp [h]
  | error l next ih =>
    rw [Block.tokens, List.append_assoc, run_of_draw (draw_error l fs _), if_pos h, precede_error,
      ← ih h]
  | single c yes close next ihy ihn =>
    simp only [Block.tokens, List.append_assoc]
    cases hc : c.failure? flags with
    | some f =>
      rw [run_failed (draw_opening_failed c h hc _), precede_failed (failure?_of_first rfl hc)]
    | none =>
      obtain ⟨ns, hd⟩ := draw_opening sourceLine c h hc
        (yes.tokens ++ (close.tokens ++ (next.tokens ++ rest)))
      rw [run_of_draw hd]
      cases hh : c.holds flags with
      | true =>
        rw [precede_node yes next hc (by simp [Block.conditions, hh])
          (by simp [Block.seen, hh]) (by simp [Block.errors, hh])]
        rw [ihy rfl, run_closing, ihn h]
      | false =>
        rw [precede_node .empty next hc (by simp [Block.conditions, hh])
          (by simp [Block.seen, hh]) (by simp [Block.errors, hh])]
        rw [run_dead yes rfl, run_closing, ihn h, precede_empty]
  | double c yes turn no close next ihy iho ihn =>
    simp only [Block.tokens, List.append_assoc]
    cases hc : c.failure? flags with
    | some f =>
      rw [run_failed (draw_opening_failed c h hc _), precede_failed (failure?_of_first rfl hc)]
    | none =>
      obtain ⟨ns, hd⟩ := draw_opening sourceLine c h hc
        (yes.tokens ++ (turn.tokens ++ (no.tokens ++ (close.tokens ++ (next.tokens ++ rest)))))
      rw [run_of_draw hd]
      -- The branch that is not selected is dead on one side of the turn or on the other.
      cases hh : c.holds flags with
      | true =>
        rw [precede_node yes next hc (by simp [Block.conditions, hh])
          (by simp [Block.seen, hh]) (by simp [Block.errors, hh])]
        rw [ihy rfl, run_alternative turn _ _ h, run_dead no rfl, run_closing, ihn h]
      | false =>
        rw [precede_node no next hc (by simp [Block.conditions, hh])
          (by simp [Block.seen, hh]) (by simp [Block.errors, hh])]
        rw [run_dead yes rfl, run_alternative turn _ _ h]
        rw [iho rfl, run_closing, ihn h]

/-- A stream of nested blocks: the run yields the plain tokens of the selected branches and then the
end, reports the errors of those branches in order, and ends with all blocks closed. The one way out
is a condition of a selected branch whose evaluation fails. -/
theorem select_block (flags : Scope) (sourceLine : Int → String) (b : Block) (text file : String)
    (n c : Nat) :
    select flags sourceLine [] (b.tokens ++ [⟨.eof, text, file, n, c⟩]) =
        (match b.failure? flags with
         | some f => .error f
         | none =>
           .ok ((b.seen flags).map (·, true) ++ [(⟨.eof, text, file, n, c⟩, true)],
             b.errors flags sourceLine)) ∧
      (run flags sourceLine [] b.tokens).map (fun r => r.2.2) =
        (match b.failure? flags with
         | some f => .error f
         | none => .ok []) := by
  have hn : run flags sourceLine [] [] = .ok ([], [], []) := by
    rw [run_eq, draw]
  have heof : run flags sourceLine [] [⟨.eof, text, file, n, c⟩] =
      .ok ([(⟨.eof, text, file, n, c⟩, true)], [], []) := by
    rw [run_eq, draw_eof]
    dsimp only
    rw [hn]
    rfl
  constructor
  · rw [select_eq_run, run_block b rfl, heof, precede]
    cases b.failure? flags with
    | some f => rfl
    | none => simp [Except.map]
  · rw [← List.append_nil b.tokens, run_block b rfl, hn, precede]
    cases b.failure? flags with
    | some f => rfl
    | none => rfl

end Frames
end RecordView
