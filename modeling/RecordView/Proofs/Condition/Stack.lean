import Mathlib.Logic.Relation
import RecordView.Proofs.Condition.Drawing

/-! The stack of conditions along any stream of tokens, balanced or not. The lines are passed one at a time,
each under flags of its own; what one line does to the stack gives what holds after all of them. -/
namespace RecordView

/-! ## Levels -/

/-- A level of the stack: an open `#if`, or the ground below all of them, which has no place. -/
structure Level where
  active : Bool
  elseSeen : Bool
  location : Option Location
  deriving DecidableEq, Repr

def Level.ground : Level := ⟨true, false, none⟩

def Frame.level (f : Frame) : Level := ⟨f.active, f.elseSeen, some f.location⟩

variable {word : ConditionWord} {p : Passage}

namespace Frames

variable {flags : Scope} {sourceLine : Int → String} {fs : Frames}

def levels (fs : Frames) : List Level := fs.map Frame.level ++ [Level.ground]

/-- What lies in an inactive branch is inactive. -/
def Nested (fs : Frames) : Prop := fs.Pairwise fun inner outer => outer.active = false → inner.active = false

theorem Nested.levels (h : Nested fs) :
    (levels fs).Pairwise fun inner outer => outer.active = false → inner.active = false := by
  unfold Frames.levels
  rw [List.pairwise_append]
  refine ⟨List.pairwise_map.mpr h, List.pairwise_singleton _ _, fun inner _ outer houter hactive => ?_⟩
  rw [List.mem_singleton.mp houter] at hactive
  cases hactive

/-- The innermost level decides for all. -/
theorem Nested.active_iff (h : Nested fs) : fs.active = true ↔ ∀ f ∈ fs, f.active = true := by
  cases fs with
  | nil => simp [active]
  | cons f fs =>
    have hinner := (List.pairwise_cons.mp h).1
    constructor
    · intro hactive g hg
      rcases List.mem_cons.mp hg with rfl | hg
      · exact hactive
      · refine (Bool.eq_false_or_eq_true g.active).resolve_right fun hg' => ?_
        rw [active, hinner g hg hg'] at hactive
        cases hactive
    · intro hall
      exact hall f List.mem_cons_self

theorem Nested.active_levels_iff (h : Nested fs) :
    fs.active = true ↔ ∀ l ∈ Frames.levels fs, l.active = true := by
  rw [h.active_iff, Frames.levels, List.forall_mem_append, List.forall_mem_map]
  simp [Frame.level, Level.ground]

/-! ## One line -/

theorem Moves.nested {t : Token} {fs' : Frames} (hmoves : Moves fs t word fs') (h : Nested fs) :
    Nested fs' := by
  -- a level that is inactive makes what lies in it dead
  have hdead {gs : Frames} (hgs : Nested gs) {g : Frame} (hg : g ∈ gs) (hinactive : g.active = false) :
      gs.active = false := by
    rw [← Bool.not_eq_true, hgs.active_iff]
    intro hall
    rw [hall g hg] at hinactive
    cases hinactive
  cases hmoves with
  | opens dead =>
    exact List.pairwise_cons.mpr ⟨fun g hg hinactive => dead (hdead h hg hinactive), h⟩
  | @turns f rest top =>
    subst top
    obtain ⟨hinner, hrest⟩ := List.pairwise_cons.mp h
    refine List.pairwise_cons.mpr ⟨fun g hg hinactive => ?_, hrest⟩
    dsimp only
    rw [if_neg (by simp [hdead hrest hg hinactive])]
    exact hinner g hg hinactive
  | closes top =>
    subst top
    exact (List.pairwise_cons.mp h).2
  | keeps _ _ => exact h

/-- An `#else` or `#endif` is an error on the ground, and a second `#else` is one. It leaves the stack as it
is. -/
theorem line_refused (hword : word = .alternative ∨ word = .closing) (flags : Scope) (fs : Frames) (t : Token)
    (body : List Token) :
    ∃ e, line flags fs word t body = .ok e ∧
      (e.problem ≠ none ↔ ∃ l ∈ (levels fs).head?, l.location = none ∨ word = .alternative ∧ l.elseSeen = true) ∧
      (e.problem ≠ none → e.frames = fs) := by
  rcases hword with rfl | rfl
  · refine ⟨turn fs, rfl, ?_⟩
    cases fs with
    | nil => simp [turn, levels, Level.ground]
    | cons f rest => by_cases helse : f.elseSeen = true <;> simp [turn, levels, Frame.level, helse]
  · refine ⟨leave fs, rfl, ?_⟩
    cases fs <;> simp [leave, levels, Level.ground, Frame.level]

/-! ## Many lines -/

/-- How far the tokens of a stream have been passed. -/
structure Passage where
  /-- What is left of the stream. -/
  unread : List Token
  frames : Frames := []
  /-- The tokens that were passed, of conditional lines only the marks. -/
  passed : List Token := []
  seen : List Token := []
  errors : List Diagnostic := []

/-- Passes a token, a conditional line, or the end of the input. -/
inductive Round (sourceLine : Int → String) (p : Passage) : Passage → Prop where
  | token {t : Token} {ts : List Token} (hunread : p.unread = t :: ts) (hkind : t.kind ≠ .eof)
      (hword : ConditionWord.ofToken? t = none) :
      Round sourceLine p
        { p with
          unread := ts
          passed := p.passed ++ [t]
          seen := if p.frames.active then p.seen ++ [t] else p.seen }
  | line {t : Token} {ts : List Token} {word : ConditionWord} {e : Effect} (flags : Scope)
      (hunread : p.unread = t :: ts) (hkind : t.kind ≠ .eof)
      (hword : ConditionWord.ofToken? t = some word)
      (hline : line flags p.frames word t (ts.takeWhile inLine) = .ok e) :
      Round sourceLine p
        { p with
          unread := behindLine ts
          frames := e.frames
          passed := p.passed ++ [t]
          errors := p.errors ++ e.problem.toList.map fun q => ⟨q, some t.location, some (sourceLine t.line)⟩ }
  | eof {t : Token} {ts : List Token} (hunread : p.unread = t :: ts) (hkind : t.kind = .eof) :
      Round sourceLine p
        { p with
          unread := []
          frames := []
          passed := p.passed ++ [t]
          seen := p.seen ++ [t]
          errors := p.errors ++ (finish sourceLine p.frames t).errors }

abbrev Rounds (sourceLine : Int → String) : Passage → Passage → Prop :=
  Relation.ReflTransGen (Round sourceLine)

/-- The places of the `#if` lines that are open after one more token: an `#endif` closes the innermost one,
and the end closes all. -/
def reopen (places : List Location) (t : Token) : List Location :=
  if t.kind = .eof then []
  else
    match ConditionWord.ofToken? t with
    | some .opening => t.location :: places
    | some .closing => places.tail
    | _ => places

def Passage.openings (p : Passage) : List Location := p.passed.foldl reopen []

theorem Moves.places {t : Token} {fs' : Frames} (h : Moves fs t word fs') (hkind : t.kind ≠ .eof)
    (hword : ConditionWord.ofToken? t = some word) :
    fs'.map (·.location) = reopen (fs.map (·.location)) t := by
  rw [reopen, if_neg hkind, hword]
  cases h with
  | opens _ => rfl
  | turns top =>
    subst top
    rfl
  | closes top =>
    subst top
    rfl
  | keeps hopening hclosing =>
    cases word with
    | opening => exact absurd rfl hopening
    | alternative => rfl
    | closing => rw [hclosing rfl]; rfl
    | error => rfl

def unclosed (sourceLine : Int → String) (places : List Location) : List Diagnostic :=
  places.getLast?.toList.map fun l => ⟨.condition .unterminated, some l, some (sourceLine l.line)⟩

theorem finish_eq (sourceLine : Int → String) (fs : Frames) (eof : Token) :
    finish sourceLine fs eof =
      ⟨.ok (some eof), [], [], unclosed sourceLine (fs.map (·.location)), []⟩ := by
  unfold finish unclosed
  rw [List.getLast?_map]
  cases fs.getLast? <;> rfl

def isUnterminated (d : Diagnostic) : Bool := d.problem = .condition .unterminated

structure Passage.Regular (p : Passage) : Prop where
  nested : Nested p.frames
  places : p.frames.map (·.location) = p.openings
  early : p.unread ≠ [] → p.errors.countP isUnterminated = 0
  once : p.errors.countP isUnterminated ≤ 1

theorem regular_start (ts : List Token) : Passage.Regular { unread := ts } :=
  ⟨List.Pairwise.nil, rfl, fun _ => rfl, Nat.zero_le 1⟩

theorem Round.regular {q : Passage} (h : Round sourceLine p q) (hp : p.Regular) : q.Regular := by
  have hearly {t : Token} {ts : List Token} (hunread : p.unread = t :: ts) :
      p.errors.countP isUnterminated = 0 := hp.early (by simp [hunread])
  cases h with
  | @token t ts hunread hkind hword =>
    have hsame : p.openings = (p.passed ++ [t]).foldl reopen [] := by
      rw [List.foldl_append, List.foldl_cons, List.foldl_nil, reopen, if_neg hkind, hword]
      rfl
    exact ⟨hp.nested, hp.places.trans hsame, fun _ => hearly hunread, hp.once⟩
  | @line t ts word e flags hunread hkind hword hline =>
    have hmoves := moves_line hline
    have hplaces : e.frames.map (·.location) = (p.passed ++ [t]).foldl reopen [] := by
      rw [hmoves.places hkind hword, hp.places, List.foldl_append]
      rfl
    have hcount : (p.errors ++ e.problem.toList.map fun q =>
        (⟨q, some t.location, some (sourceLine t.line)⟩ : Diagnostic)).countP isUnterminated = 0 := by
      rw [List.countP_append, hearly hunread]
      cases hq : e.problem with
      | none => rfl
      | some q => rcases problem_of_line hline hq with ⟨x, rfl⟩ | ⟨x, rfl, hx⟩ <;> simp [isUnterminated, *]
    exact ⟨hmoves.nested hp.nested, hplaces, fun _ => hcount, Nat.le_trans (Nat.le_of_eq hcount) (Nat.zero_le 1)⟩
  | @eof t ts hunread hkind =>
    have hplaces : [] = (p.passed ++ [t]).foldl reopen [] := by
      rw [List.foldl_append, List.foldl_cons, List.foldl_nil, reopen, if_pos hkind]
    have hcount : (p.errors ++ (finish sourceLine p.frames t).errors).countP isUnterminated ≤ 1 := by
      have hle : (unclosed sourceLine (p.frames.map (·.location))).length ≤ 1 := by
        rw [unclosed, List.length_map]
        cases (p.frames.map (·.location)).getLast? <;> simp
      rw [List.countP_append, hearly hunread, finish_eq, Nat.zero_add]
      exact Nat.le_trans List.countP_le_length hle
    exact ⟨List.Pairwise.nil, hplaces, fun hne => absurd rfl hne, hcount⟩

theorem Rounds.regular {q : Passage} (h : Rounds sourceLine p q) (hp : p.Regular) : q.Regular := by
  induction h with
  | refl => exact hp
  | tail _ hround ih => exact hround.regular ih

/-! ## Drawing -/

/-- The passage ends where a drawing from an earlier one ends. -/
structure Passage.Reached (p : Passage) (d : Draw) (q : Passage) : Prop where
  frames : q.frames = d.frames
  errors : q.errors = p.errors ++ d.errors
  found : ∀ o, d.found = .ok o → q.unread = d.rest ∧ q.seen = p.seen ++ o.toList

/-- A token is drawn by passing what stands before it. -/
theorem Draws.rounds {ts : List Token} {d : Draw} (h : Draws flags sourceLine fs ts d) (p : Passage)
    (hfs : p.frames = fs) (hts : p.unread = ts) : ∃ q, Rounds sourceLine p q ∧ p.Reached d q := by
  induction h generalizing p with
  | nil => exact ⟨p, .refl, hfs, by simp, fun o ho => by cases ho; simp [hts]⟩
  | eof fs ht ts =>
    subst hfs
    refine ⟨_, .single (.eof hts ht), ?_, rfl, fun o ho => ?_⟩
    · rw [finish_eq]
    · rw [finish_found] at ho
      cases ho
      exact ⟨(finish_rest _ _ _).symm, rfl⟩
  | seen ht hw ha ts =>
    refine ⟨_, .single (.token hts ht hw), hfs, by simp, fun o ho => ?_⟩
    cases ho
    simp [hfs, ha]
  | @skipped fs t ts d ht hw ha _ ih =>
    let p' : Passage := { p with unread := ts, passed := p.passed ++ [t] }
    have hround : Round sourceLine p p' := by
      have hround : Round sourceLine p _ := .token hts ht hw
      rwa [if_neg (by rwa [hfs])] at hround
    obtain ⟨q, hrounds, hq⟩ := ih p' hfs rfl
    exact ⟨q, hrounds.head hround, hq.frames, hq.errors, hq.found⟩
  | failed => exact ⟨p, .refl, hfs, by simp, fun o ho => by cases ho⟩
  | @line fs t ts word effect d ht hw he _ ih =>
    subst hfs
    obtain ⟨p', hround, hunread, hframes, hseen, herrors⟩ : ∃ p', Round sourceLine p p' ∧
        p'.unread = behindLine ts ∧ p'.frames = effect.frames ∧ p'.seen = p.seen ∧
        p'.errors = p.errors ++ errorsAt sourceLine t effect.problem :=
      ⟨_, .line flags hts ht hw he, rfl, rfl, rfl, rfl⟩
    obtain ⟨q, hrounds, hq⟩ := ih p' hframes hunread
    refine ⟨q, hrounds.head hround, hq.frames, ?_, hseen ▸ hq.found⟩
    rw [hq.errors, herrors, List.append_assoc]
    rfl

/-! ## The stack along a run -/

/-- What holds of the stack at a place of a run. -/
structure Passage.Sound (sourceLine : Int → String) (p : Passage) : Prop where
  /-- The stack has a ground, which is active and has no place. -/
  ground : (levels p.frames).getLast? = some ⟨true, false, none⟩
  /-- What lies above an inactive level is inactive. -/
  nested : (levels p.frames).Pairwise fun inner outer => outer.active = false → inner.active = false
  /-- A token outside the conditional lines is yielded if all levels are active, and passed over if not. -/
  yields : ∀ flags t ts, p.unread = t :: ts → t.kind ≠ .eof → ConditionWord.ofToken? t = none →
    draw flags sourceLine p.frames p.unread =
      if ∀ l ∈ levels p.frames, l.active = true then ⟨.ok (some t), ts, p.frames, [], []⟩
      else draw flags sourceLine p.frames ts
  /-- An `#else` or `#endif` is an error on the ground, and a second `#else` is one. It leaves the stack as it
  is. -/
  refuses : ∀ flags word t body, word = .alternative ∨ word = .closing →
    ∃ e, line flags p.frames word t body = .ok e ∧
      (e.problem ≠ none ↔
        ∃ l ∈ (levels p.frames).head?, l.location = none ∨ word = .alternative ∧ l.elseSeen = true) ∧
      (e.problem ≠ none → e.frames = p.frames)
  /-- At the end all levels are closed. If there is one above the ground, the outermost of them is the one
  error. -/
  ends : ∀ flags e ts, p.unread = e :: ts → e.kind = .eof →
    draw flags sourceLine p.frames p.unread = ⟨.ok (some e), [], [], unclosed sourceLine p.openings, []⟩ ∧
      (unclosed sourceLine p.openings ≠ [] ↔ 1 < (levels p.frames).length)
  /-- This error is not reported twice. -/
  once : p.errors.countP isUnterminated ≤ 1

theorem Passage.Regular.sound (h : p.Regular) : p.Sound sourceLine := by
  constructor
  · simp [levels, Level.ground]
  · exact h.nested.levels
  · intro flags t ts hunread hkind hword
    rw [hunread, draw_plain_cons hkind hword]
    simp only [h.nested.active_levels_iff]
  · intro flags word t body hword
    exact line_refused hword flags p.frames t body
  · intro flags e ts hunread hkind
    constructor
    · rw [hunread, draw, if_pos hkind, finish_eq, h.places]
    · rw [← h.places, levels, unclosed]
      cases p.frames <;> simp
  · exact h.once

/-- Along every run, over any stream of tokens and under any flags for each of its conditions, the stack of
conditions is sound: its ground is active and has no place, what lies above an inactive level is inactive, so
that a token is yielded if and only if all levels around it are active, lines out of balance leave it as it is,
and at the end one error is reported for all that is open, at the outermost. Every drawing goes on with such a
run. -/
theorem stack_sound {ts : List Token} {p : Passage} (h : Rounds sourceLine { unread := ts } p) :
    p.Sound sourceLine ∧
      ∀ flags, ∃ q, Rounds sourceLine p q ∧ p.Reached (draw flags sourceLine p.frames p.unread) q :=
  ⟨(h.regular (regular_start ts)).sound, fun flags => (draws flags sourceLine _ _).rounds p rfl rfl⟩

/-- A stream out of balance: a stray `#endif`, an `#if` without a condition, two `#else`, and an `#if` that is
open at the end. -/
def unbalancedStream : List Token :=
  [⟨.directive, "#endif", "", 1, 1⟩, ⟨.newline, "\n", "", 1, 7⟩,
   ⟨.directive, "#if", "", 2, 1⟩, ⟨.newline, "\n", "", 2, 4⟩, ⟨.identifier, "a", "", 3, 1⟩,
   ⟨.directive, "#else", "", 4, 1⟩, ⟨.newline, "\n", "", 4, 6⟩, ⟨.identifier, "b", "", 5, 1⟩,
   ⟨.directive, "#else", "", 6, 1⟩, ⟨.newline, "\n", "", 6, 6⟩,
   ⟨.directive, "#if", "", 7, 1⟩, ⟨.newline, "\n", "", 7, 4⟩, ⟨.identifier, "c", "", 8, 1⟩,
   ⟨.eof, "", "", 8, 2⟩]

theorem stack_sound_unbalanced : ∃ p, Rounds (fun _ => "") { unread := unbalancedStream } p ∧
    p.seen = [⟨.identifier, "b", "", 5, 1⟩] ∧ (levels p.frames).map (·.active) = [false, true, true] ∧
    draw {} (fun _ => "") p.frames p.unread =
      ⟨.ok (some ⟨.eof, "", "", 8, 2⟩), [], [], [⟨.condition .unterminated, some ⟨"", 2, 1⟩, some ""⟩], []⟩ := by
  have hrounds : Rounds (fun _ => "") { unread := unbalancedStream } _ :=
    .head (.line {} rfl (by decide) rfl rfl) <|
    .head (.line {} rfl (by decide) rfl rfl) <|
    .head (.token rfl (by decide) (by decide)) <|
    .head (.line {} rfl (by decide) rfl rfl) <|
    .head (.token rfl (by decide) (by decide)) <|
    .head (.line {} rfl (by decide) rfl rfl) <|
    .head (.line {} rfl (by decide) rfl rfl) <|
    .head (.token rfl (by decide) (by decide)) .refl
  exact ⟨_, hrounds, rfl, rfl, ((stack_sound hrounds).1.ends {} _ _ rfl rfl).1⟩

end Frames
end RecordView
