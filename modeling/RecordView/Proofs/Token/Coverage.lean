import Mathlib.Data.List.Induction
import Mathlib.Data.Prod.Lex
import RecordView.Proofs.Token.Lexeme
import RecordView.Proofs.Token.Line

/-! The tokens of a text lie in it one after another. Each of them takes a part of the text, and between two
parts, as before the first one, there are only blanks, newlines and line comments. -/
namespace RecordView.Token

variable {file : String} {p : Position} {mode : Mode} {before cs gap own rest : List Char} {t u : Token}
  {ts pre : List Token}

/-! ## Places -/

/-- The token stands in the file right after the given text. Lines and columns are counted from one. -/
structure Stands (file : String) (before : List Char) (t : Token) : Prop where
  file : t.file = file
  line : t.line = 1 + before.count '\n'
  column : t.column = 1 + (before.reverse.takeWhile (· != '\n')).length

theorem Position.start_after (before : List Char) :
    start.after before = ⟨1 + before.count '\n', 1 + (before.reverse.takeWhile (· != '\n')).length⟩ := by
  induction before using List.reverseRecOn with
  | nil => rfl
  | append_singleton before c ih =>
    rw [after_append, ih, List.count_append, List.reverse_append]
    by_cases hc : c = '\n'
    · subst hc
      rfl
    · have hline : [c].count '\n' = 0 := List.count_eq_zero.mpr (by simpa using Ne.symm hc)
      have hcolumn : ([c].reverse ++ before.reverse).takeWhile (· != '\n') =
          c :: before.reverse.takeWhile (· != '\n') := List.takeWhile_cons_of_pos (by simpa using hc)
      rw [hline, hcolumn]
      exact if_neg hc

theorem stands_make (file : String) (kind : Kind) (text before : List Char) :
    Stands file before (make file kind text (Position.start.after before)) := by
  rw [Position.start_after]
  exact ⟨rfl, rfl, rfl⟩

def Position.rank (p : Position) : ℕ ×ₗ ℕ := toLex (p.line, p.column)

def rank (t : Token) : ℕ ×ₗ ℕ := toLex (t.line, t.column)

theorem Position.rank_lt_step (p : Position) (c : Char) : p.rank < (p.step c).rank := by
  rw [rank, rank, Prod.Lex.toLex_lt_toLex]
  unfold step
  split
  · exact .inl (Nat.lt_succ_self p.line)
  · exact .inr ⟨rfl, Nat.lt_succ_self p.column⟩

theorem Position.rank_le_after (p : Position) (cs : List Char) : p.rank ≤ (p.after cs).rank := by
  induction cs generalizing p with
  | nil => exact le_rfl
  | cons c cs ih => exact (p.rank_lt_step c).le.trans (ih (p.step c))

theorem Position.rank_lt_after (p : Position) (h : cs ≠ []) : p.rank < (p.after cs).rank := by
  obtain ⟨c, cs, rfl⟩ := List.exists_cons_of_ne_nil h
  exact (p.rank_lt_step c).trans_le ((p.step c).rank_le_after cs)

theorem Stands.rank_eq (h : Stands file before t) : t.rank = (Position.start.after before).rank := by
  rw [Position.start_after, rank, h.line, h.column]
  rfl

/-- A token stands at one place only. -/
theorem Stands.unique {before' : List Char} (h : Stands file before t) (h' : Stands file before' t)
    (hcs : before <+: cs) (hcs' : before' <+: cs) : before = before' := by
  have eq_of_le {b b' : List Char} (hb : Stands file b t) (hb' : Stands file b' t) (hle : b <+: b') :
      b = b' := by
    obtain ⟨ds, rfl⟩ := hle
    by_contra hne
    have hds : ds ≠ [] := by
      rintro rfl
      exact hne (List.append_nil b).symm
    have hlt := (Position.start.after b).rank_lt_after hds
    rw [← Position.after_append, ← hb.rank_eq, ← hb'.rank_eq] at hlt
    exact lt_irrefl _ hlt
  rcases List.prefix_or_prefix_of_prefix hcs hcs' with hle | hle
  · exact eq_of_le h h' hle
  · exact (eq_of_le h' h hle).symm

/-! ## Gaps -/

/-- What stands between two tokens, before the text `rest`: blanks, newlines, and line comments, which go on
to the end of their line. -/
inductive Gap : List Char → List Char → Prop where
  | none (rest : List Char) : Gap [] rest
  | blank {c : Char} {gap rest : List Char} (blank : isGap c = true) (more : Gap gap rest) : Gap (c :: gap) rest
  | newline {gap rest : List Char} (more : Gap gap rest) : Gap ('\n' :: gap) rest
  | comment {body gap rest : List Char} (inline : '\n' ∉ body) (ends : ∀ d ∈ (gap ++ rest).head?, d = '\n')
      (more : Gap gap rest) : Gap ('/' :: '/' :: (body ++ gap)) rest

theorem Gap.append {gap' : List Char} (h : Gap gap (gap' ++ rest)) (h' : Gap gap' rest) :
    Gap (gap ++ gap') rest := by
  generalize hcs : gap' ++ rest = cs at h
  induction h with
  | none => exact h'
  | blank hblank _ ih => exact .blank hblank (ih hcs)
  | newline _ ih => exact .newline (ih hcs)
  | comment inline ends _ ih =>
    rw [List.cons_append, List.cons_append, List.append_assoc]
    subst hcs
    rw [← List.append_assoc] at ends
    exact .comment inline ends (ih rfl)

theorem isGap_of_isInlineBlank {d : Char} (h : isInlineBlank d = true) : isGap d = true := by
  rcases Bool.or_eq_true_iff.mp h with h | h
  · simp [isGap, h]
  · simp [isGap, h]

theorem gap_of_isInlineBlank (h : ∀ d ∈ gap, isInlineBlank d = true) (rest : List Char) : Gap gap rest := by
  induction gap with
  | nil => exact .none rest
  | cons d gap ih =>
    exact .blank (isGap_of_isInlineBlank (h d List.mem_cons_self))
      (ih fun e he => h e (List.mem_cons_of_mem d he))

/-- A line comment up to the end of its line. -/
theorem gap_lineComment (h : cs.head? = some '/') :
    Gap ('/' :: cs.take (runLength (· != '\n') cs)) (cs.drop (runLength (· != '\n') cs)) := by
  cases cs with
  | nil => cases h
  | cons d ds =>
    cases h
    obtain ⟨body, tail, rfl, hbody, hstops, hlength⟩ := exists_run (· != '\n') ds
    have hrun : runLength (· != '\n') ('/' :: (body ++ tail)) = body.length + 1 := congrArg (· + 1) hlength
    rw [hrun, List.take_succ_cons, List.drop_succ_cons, List.take_left, List.drop_left]
    have hcomment : Gap ('/' :: '/' :: (body ++ [])) tail := by
      refine .comment (fun hmem => ?_) (fun d hd => ?_) (.none tail)
      · exact absurd (hbody _ hmem) (by decide)
      · simpa using hstops d hd
    rwa [List.append_nil] at hcomment

/-! ## Parts of a text -/

/-- Tokens that take some text of their own. -/
def Kind.isSolid (k : Kind) : Bool := k != .blob && k != .newline && k != .eof

/-- Tokens whose text is what is written. -/
def Kind.isVerbatim (k : Kind) : Bool := k.isSolid && k != .string && k != .directive

/-- The token takes this part of the text: its own text where that is what is written, and after a number
the letters of a suffix. A name starts as names do. -/
structure Covers (t : Token) (own : List Char) : Prop where
  ne_nil : t.kind.isSolid = true → own ≠ []
  text : t.kind.isVerbatim = true →
    ∃ suffix, own = t.text.toList ++ suffix ∧ (∀ d ∈ suffix, d ∈ "uUlL".toList) ∧
      (t.kind ≠ .number → suffix = [])
  name : t.kind = .identifier → ∀ c ∈ t.text.toList.head?, isIdentStart c = true

/-- The tokens lie in the text that comes after `before`, the first of them at its start. -/
inductive Laid (file : String) : List Char → List Char → List Token → Prop where
  | eof {before : List Char} {t : Token} (kind : t.kind = .eof) (stands : Stands file before t) :
      Laid file before [] [t]
  | cons {before own gap cs : List Char} {t : Token} {ts : List Token} (stands : Stands file before t)
      (covers : Covers t own) (between : Gap gap cs) (rest : Laid file (before ++ (own ++ gap)) cs ts) :
      Laid file before (own ++ (gap ++ cs)) (t :: ts)

/-- The tokens lie in the text that comes after `before`, the first of them after a gap. -/
def Resumes (file : String) (before cs : List Char) (ts : List Token) : Prop :=
  ∃ gap rest, cs = gap ++ rest ∧ Gap gap rest ∧ Laid file (before ++ gap) rest ts

theorem Laid.resumes (h : Laid file before cs ts) : Resumes file before cs ts :=
  ⟨[], cs, rfl, .none cs, by rwa [List.append_nil]⟩

theorem Resumes.skip (hgap : Gap gap cs) (h : Resumes file (before ++ gap) cs ts) :
    Resumes file before (gap ++ cs) ts := by
  obtain ⟨gap', rest, rfl, hgap', hlaid⟩ := h
  rw [List.append_assoc] at hlaid
  exact ⟨gap ++ gap', rest, (List.append_assoc _ _ _).symm, hgap.append hgap', hlaid⟩

theorem Resumes.cons (hstands : Stands file before t) (hcovers : Covers t own)
    (h : Resumes file (before ++ own) cs ts) : Resumes file before (own ++ cs) (t :: ts) := by
  obtain ⟨gap, rest, rfl, hgap, hlaid⟩ := h
  rw [List.append_assoc] at hlaid
  exact (Laid.cons hstands hcovers hgap hlaid).resumes

/-- Tokens that take the first characters of the text. -/
theorem Resumes.take (n : Nat) (hstands : Stands file before t) (hcovers : Covers t (cs.take n))
    (h : Resumes file (before ++ cs.take n) (cs.drop n) ts) : Resumes file before cs (t :: ts) := by
  have hcons := h.cons hstands hcovers
  rwa [List.take_append_drop] at hcons

/-- The text of a token that is written as it is. -/
theorem covers_make (file : String) (kind : Kind) (text : List Char) (p : Position) (h : text ≠ [])
    (hname : kind = .identifier → ∀ c ∈ text.head?, isIdentStart c = true) :
    Covers (make file kind text p) text := by
  refine ⟨fun _ => h, fun _ => ⟨[], ?_, fun _ hd => absurd hd List.not_mem_nil, fun _ => rfl⟩, ?_⟩
  · rw [make, String.toList_ofList, List.append_nil]
  · rwa [make, String.toList_ofList]

theorem covers_of_not_isVerbatim (hkind : t.kind.isVerbatim = false) (h : t.kind.isSolid = true → own ≠ []) :
    Covers t own := by
  refine ⟨h, fun ht => absurd (hkind.symm.trans ht) Bool.false_ne_true, fun ht => ?_⟩
  rw [ht] at hkind
  cases hkind

/-- The value of a pragma or the end of a line may take anything, also nothing. -/
theorem covers_of_not_isSolid (hkind : t.kind.isSolid = false) (own : List Char) : Covers t own :=
  covers_of_not_isVerbatim (by simp [Kind.isVerbatim, hkind])
    fun h => absurd (hkind.symm.trans h) Bool.false_ne_true

theorem covers_lexeme (file : String) (c : Char) (cs : List Char) (p : Position) :
    Covers (make file (lexeme c cs).kind (lexeme c cs).text p) (c :: cs.take (lexeme c cs).more) := by
  have hname (ht : (lexeme c cs).kind = .identifier) :
      ∀ d ∈ (make file (lexeme c cs).kind (lexeme c cs).text p).text.toList.head?, isIdentStart d = true := by
    have hc := isIdentStart_of_lexeme ht
    rw [lexeme_identifier hc, make, String.toList_ofList]
    rintro d ⟨⟩
    exact hc
  refine ⟨fun _ => List.cons_ne_nil _ _, fun ht => ?_, hname⟩
  have hstring : (lexeme c cs).kind ≠ .string := by
    intro h
    simp [make, h, Kind.isVerbatim] at ht
  obtain ⟨suffix, htaken, hletters, hnumber⟩ := lexeme_taken c cs hstring
  refine ⟨suffix, ?_, fun d hd => List.contains_iff_mem.mp (hletters d hd), hnumber⟩
  rw [make, String.toList_ofList, htaken]

/-! ## Scanning -/

theorem resumes_pragmaValue (hp : p = Position.start.after before)
    (h : Resumes file (before ++ cs.take (pragmaValue file p cs).2) (cs.drop (pragmaValue file p cs).2) ts) :
    Resumes file before cs ((pragmaValue file p cs).1 ++ ts) := by
  subst hp
  revert h
  unfold pragmaValue
  split
  · next rest =>
    dsimp only
    split
    · exact .take _ (stands_make _ _ _ _) (covers_of_not_isSolid rfl _)
    · exact .take _ (stands_make _ _ _ _) (covers_make _ _ _ _ (List.cons_ne_nil _ _) fun h => by cases h)
  · intro h
    simpa using h

theorem resumes_pragmaTokens (hp : p = Position.start.after before)
    (h : Resumes file (before ++ cs.take (pragmaTokens file p cs).2) (cs.drop (pragmaTokens file p cs).2) ts) :
    Resumes file before cs ((pragmaTokens file p cs).1 ++ ts) := by
  subst hp
  revert h
  obtain ⟨blanks, body, rfl, hblanks, -, hskipped⟩ := exists_run isInlineBlank cs
  have hskip := gap_of_isInlineBlank hblanks body
  unfold pragmaTokens
  dsimp only
  rw [hskipped, List.drop_left, List.take_left, ← Position.after_append]
  split
  · next c tail =>
    split
    · next hc =>
      obtain ⟨name, rest, hbody, hname, hstops, -⟩ := exists_run isIdentChar (c :: tail)
      obtain ⟨gap, value, rfl, hgap, -, hlength⟩ := exists_run isInlineBlank rest
      rw [hbody] at hskip ⊢
      rw [takeWhile_append_stops hname hstops, List.drop_left, hlength]
      have hne : name ≠ [] := by
        rintro rfl
        rw [List.nil_append] at hbody
        have hstop := hstops c (by rw [← hbody]; rfl)
        simp [isIdentChar, hc] at hstop
      have hstart : Kind.identifier = .identifier → ∀ d ∈ name.head?, isIdentStart d = true := by
        intro _ d hd
        cases name with
        | nil => cases hd
        | cons e name =>
          cases hd
          rwa [← (List.cons.inj hbody).1]
      rw [List.take_length_add_append, List.take_left, List.drop_length_add_append, List.drop_left,
        ← Position.after_append, Nat.add_assoc, Nat.add_assoc, List.take_length_add_append,
        List.take_length_add_append, List.take_length_add_append, List.drop_length_add_append,
        List.drop_length_add_append, List.drop_length_add_append]
      intro h
      refine .skip hskip (.cons (stands_make _ _ _ _) (covers_make _ _ _ _ hne hstart)
        (.skip (gap_of_isInlineBlank hgap value) (resumes_pragmaValue ?_ ?_)))
      · simp only [List.append_assoc]
      · simpa only [List.append_assoc] using h
    · intro h
      rw [List.take_left, List.drop_left] at h
      exact h.skip hskip
  · intro h
    rw [List.take_left, List.drop_left] at h
    exact h.skip hskip

theorem resumes_directiveTokens (hp : p = Position.start.after before)
    (h : Resumes file (before ++ '#' :: cs.take (directiveTokens file p cs).2)
      (cs.drop (directiveTokens file p cs).2) ts) :
    Resumes file before ('#' :: cs) ((directiveTokens file p cs).1 ++ ts) := by
  subst hp
  revert h
  unfold directiveTokens
  dsimp only
  generalize (cs.drop (runLength isInlineBlank cs)).takeWhile isIdentChar = word
  generalize runLength isInlineBlank cs + word.length = taken
  rw [← Position.after_append]
  have head {ts : List Token} (h : Resumes file (before ++ '#' :: cs.take taken) (cs.drop taken) ts) :
      Resumes file before ('#' :: cs) (make file .directive ('#' :: word) (Position.start.after before) :: ts) :=
    h.take (taken + 1) (stands_make _ _ _ _) (covers_of_not_isVerbatim rfl fun _ => List.cons_ne_nil _ _)
  -- What a directive takes after its word is taken from what its word leaves.
  have further (n : Nat) (h : Resumes file (before ++ '#' :: cs.take (taken + n)) (cs.drop (taken + n)) ts) :
      Resumes file (before ++ '#' :: cs.take taken ++ (cs.drop taken).take n) ((cs.drop taken).drop n) ts := by
    rwa [List.append_assoc, List.cons_append, ← List.take_add, List.drop_drop]
  split
  · intro h
    exact head ((further _ h).take _ (stands_make _ _ _ _) (covers_of_not_isSolid rfl _))
  split
  · intro h
    exact head (resumes_pragmaTokens rfl (further _ h))
  · exact head

/-- What is scanned lies in the text, wherever the text starts. -/
theorem resumes_of_scanFrom (hp : p = Position.start.after before) (h : scanFrom file p mode cs = .ok ts) :
    Resumes file before cs ts := by
  fun_induction scanFrom file p mode cs generalizing before ts with
  | case1 p mode =>
    rename_i last
    subst hp
    cases h
    have heof : Resumes file before [] last := (Laid.eof rfl (stands_make _ _ _ _)).resumes
    split
    · exact .cons (stands_make _ _ _ _) (covers_of_not_isSolid rfl []) (by rwa [List.append_nil])
    · exact heof
  | case2 p mode cs ih =>
    subst hp
    obtain ⟨rest, hrest, hts⟩ := bind_eq_ok_iff.mp h
    cases hts
    have hresumes : Resumes file (before ++ ['\n']) cs rest := ih (by rw [Position.after_append]; rfl) hrest
    split
    · exact .cons (stands_make _ _ _ _) (covers_make _ _ _ _ (List.cons_ne_nil _ _) fun h => by cases h) hresumes
    · exact .skip (.newline (.none cs)) hresumes
  | case3 p mode c cs hc hgap ih =>
    subst hp
    exact .skip (.blank hgap (.none cs)) (ih (by rw [Position.after_append]; rfl) h)
  | case4 p mode c cs hc hgap hline n =>
    rename_i ih
    subst hp
    obtain ⟨rfl, hslash⟩ := hline
    have hresumes := (ih (Position.after_append _ _ _).symm h).skip (gap_lineComment hslash)
    rwa [List.cons_append, List.take_append_drop] at hresumes
  | case5 p mode c cs hc hgap hline hblock hnone => cases h
  | case6 p mode c cs hc hgap hline hblock n hn text =>
    rename_i ih
    subst hp
    obtain ⟨rest, hrest, hts⟩ := bind_eq_ok_iff.mp h
    cases hts
    exact (ih (Position.after_append _ _ _).symm hrest).take (n + 2) (stands_make _ _ _ _)
      (covers_make _ _ _ _ (List.cons_ne_nil _ _) fun h => by cases h)
  | case7 p mode c cs hc hgap hline hblock hmark tokens n htokens ih =>
    subst hp
    obtain ⟨rest, hrest, hts⟩ := bind_eq_ok_iff.mp h
    cases hts
    obtain ⟨rfl, -⟩ := hmark
    have hn : (directiveTokens file (Position.start.after before) cs).2 = n := congrArg Prod.snd htokens
    have htokens : (directiveTokens file (Position.start.after before) cs).1 = tokens := congrArg Prod.fst htokens
    rw [← htokens]
    refine resumes_directiveTokens rfl ?_
    rw [hn]
    exact ih (Position.after_append _ _ _).symm hrest
  | case8 p mode c cs hc hgap hline hblock hmark l =>
    rename_i ih
    subst hp
    obtain ⟨rest, hrest, hts⟩ := bind_eq_ok_iff.mp h
    cases hts
    exact (ih (Position.after_append _ _ _).symm hrest).take (l.more + 1) (stands_make _ _ _ _)
      (covers_lexeme file c cs _)

/-! ## What follows from where tokens lie -/

theorem Laid.rank_le (h : Laid file before cs ts) : ∀ u ∈ ts, (Position.start.after before).rank ≤ u.rank := by
  induction h with
  | eof _ stands =>
    intro u hu
    obtain rfl := List.mem_singleton.mp hu
    exact stands.rank_eq.ge
  | cons stands _ _ _ ih =>
    intro u hu
    rcases List.mem_cons.mp hu with rfl | hu
    · exact stands.rank_eq.ge
    · have hle := ih u hu
      rw [Position.after_append] at hle
      exact (Position.rank_le_after _ _).trans hle

/-- A token stands no further than those after it, and before them where it takes some text. -/
theorem Laid.pairwise (h : Laid file before cs ts) :
    ts.Pairwise fun t u => t.rank ≤ u.rank ∧ (t.kind.isSolid = true → t.rank < u.rank) := by
  induction h with
  | eof => exact List.pairwise_singleton _ _
  | @cons before own gap cs t ts stands covers _ rest ih =>
    refine List.pairwise_cons.mpr ⟨fun u hu => ?_, ih⟩
    have hle := rest.rank_le u hu
    rw [Position.after_append] at hle
    rw [stands.rank_eq]
    refine ⟨(Position.rank_le_after _ _).trans hle, fun ht => (Position.rank_lt_after _ ?_).trans_le hle⟩
    exact fun h => covers.ne_nil ht (List.append_eq_nil_iff.mp h).1

/-- From any token on, the tokens lie in the text as well. -/
theorem Laid.drop (h : Laid file before cs (pre ++ t :: ts)) :
    ∃ before' cs', before ++ cs = before' ++ cs' ∧ Laid file before' cs' (t :: ts) := by
  induction pre generalizing before cs with
  | nil => exact ⟨before, cs, rfl, h⟩
  | cons u pre ih =>
    rw [List.cons_append] at h
    generalize hus : pre ++ t :: ts = us at h
    cases h with
    | eof => exact absurd hus (List.append_ne_nil_of_right_ne_nil _ (List.cons_ne_nil _ _))
    | @cons _ own gap cs _ _ _ _ _ rest =>
      subst hus
      obtain ⟨before', cs', htext, hlaid⟩ := ih rest
      refine ⟨before', cs', ?_, hlaid⟩
      rw [← htext]
      simp only [List.append_assoc]

theorem Laid.stands (h : Laid file before cs (t :: ts)) : Stands file before t := by
  cases h with
  | eof _ stands => exact stands
  | cons stands => exact stands

/-- The last token is the end of the text. -/
theorem Laid.exists_eof (h : Laid file before cs ts) :
    ∃ pre e, ts = pre ++ [e] ∧ e.kind = .eof ∧ Stands file (before ++ cs) e := by
  induction h with
  | @eof before t kind stands => exact ⟨[], t, rfl, kind, by rwa [List.append_nil]⟩
  | @cons before own gap cs t ts _ _ _ _ ih =>
    obtain ⟨pre, e, rfl, hkind, hstands⟩ := ih
    refine ⟨t :: pre, e, rfl, hkind, ?_⟩
    simpa only [List.append_assoc] using hstands

theorem Laid.covers (h : Laid file before cs ts) (ht : t ∈ ts) (hkind : t.kind ≠ .eof) :
    ∃ own, Covers t own := by
  induction h with
  | eof kind =>
    obtain rfl := List.mem_singleton.mp ht
    exact absurd kind hkind
  | cons _ covers _ _ ih =>
    rcases List.mem_cons.mp ht with rfl | ht
    · exact ⟨_, covers⟩
    · exact ih ht

/-- The tokens of a text lie in it. -/
theorem laid_of_scan {source : String} (h : scan file source = .ok ts) :
    ∃ before rest, source.toList = before ++ rest ∧ Laid file before rest ts := by
  have hresumes : Resumes file [] source.toList ts := resumes_of_scanFrom rfl (scanFrom_of_scan h)
  obtain ⟨gap, rest, htext, -, hlaid⟩ := hresumes
  exact ⟨gap, rest, htext, hlaid⟩

theorem eof_mem_scan {source : String} (h : scan file source = .ok ts) : ∃ e ∈ ts, e.kind = .eof := by
  obtain ⟨before, rest, -, hlaid⟩ := laid_of_scan h
  obtain ⟨pre, e, rfl, hkind, -⟩ := hlaid.exists_eof
  exact ⟨e, by simp, hkind⟩

theorem Laid.text (h : Laid file before cs (t :: ts)) (ht : t.kind.isVerbatim = true) :
    t.text.toList <+: cs := by
  cases h with
  | eof kind =>
    rw [kind] at ht
    cases ht
  | cons _ covers =>
    obtain ⟨suffix, rfl, -⟩ := covers.text ht
    rw [List.append_assoc]
    exact List.prefix_append _ _

/-- The text from a token to the next one. -/
theorem Laid.between (h : Laid file before cs (t :: u :: ts)) (ht : t.kind.isVerbatim = true) :
    ∃ suffix gap rest, cs = t.text.toList ++ (suffix ++ (gap ++ rest)) ∧
      (∀ d ∈ suffix, d ∈ "uUlL".toList) ∧ (t.kind ≠ .number → suffix = []) ∧
      Gap gap rest ∧ Stands file (before ++ (t.text.toList ++ (suffix ++ gap))) u := by
  cases h with
  | @cons _ own gap cs _ _ _ covers hgap rest =>
    obtain ⟨suffix, rfl, hletters, hnumber⟩ := covers.text ht
    refine ⟨suffix, gap, cs, List.append_assoc _ _ _, hletters, hnumber, hgap, ?_⟩
    rw [← List.append_assoc t.text.toList]
    exact rest.stands

/-- What the places and texts of tokens say about the text they come from. -/
structure Faithful (file : String) (cs : List Char) (ts : List Token) : Prop where
  /-- Every token stands at one place of the text. -/
  stands : ∀ t ∈ ts, ∃! before, before <+: cs ∧ Stands file before t
  ordered : ts.Pairwise fun t u => t.rank ≤ u.rank
  strictlyOrdered : (ts.filter fun t => t.kind.isSolid).Pairwise fun t u => t.rank < u.rank
  /-- What is written at the place of a token is its text. -/
  verbatim : ∀ t ∈ ts, t.kind.isVerbatim = true →
    ∃ before rest, cs = before ++ (t.text.toList ++ rest) ∧ Stands file before t
  /-- Nothing is left out before the first token. -/
  first : ∃ gap rest t more, cs = gap ++ rest ∧ Gap gap rest ∧ ts = t :: more ∧ Stands file gap t
  /-- Nothing is left out from the text of a token to the next token. -/
  between : ∀ pre t u post, ts = pre ++ t :: u :: post → t.kind.isVerbatim = true →
    ∃ before suffix gap rest, cs = before ++ (t.text.toList ++ (suffix ++ (gap ++ rest))) ∧
      Stands file before t ∧ (∀ d ∈ suffix, d ∈ "uUlL".toList) ∧ (t.kind ≠ .number → suffix = []) ∧
      Gap gap rest ∧ Stands file (before ++ (t.text.toList ++ (suffix ++ gap))) u
  /-- The tokens go on to the end of the text. -/
  last : ∃ pre e, ts = pre ++ [e] ∧ e.kind = .eof ∧ Stands file cs e

/-- The places of tokens are places of the text, in their order, and all of the text but blanks, line
comments and the suffixes of numbers is found in the tokens. -/
theorem scan_faithful {source : String} (h : scan file source = .ok ts) : Faithful file source.toList ts := by
  have hresumes : Resumes file [] source.toList ts := resumes_of_scanFrom rfl (scanFrom_of_scan h)
  obtain ⟨gap, rest, htext, hgap, hlaid⟩ := hresumes
  rw [List.nil_append] at hlaid
  rw [htext]
  have exists_laid {t : Token} (ht : t ∈ ts) :
      ∃ before cs' post, gap ++ rest = before ++ cs' ∧ Laid file before cs' (t :: post) := by
    obtain ⟨pre, post, rfl⟩ := List.append_of_mem ht
    obtain ⟨before, cs', htext, ht⟩ := hlaid.drop
    exact ⟨before, cs', post, htext, ht⟩
  refine ⟨fun t ht => ?_, hlaid.pairwise.imp And.left, ?_, fun t ht hkind => ?_, ?_, ?_, hlaid.exists_eof⟩
  · obtain ⟨before, cs', post, htext, ht⟩ := exists_laid ht
    have hbefore : before <+: gap ++ rest := ⟨cs', htext.symm⟩
    exact ⟨before, ⟨hbefore, ht.stands⟩, fun before' h' => h'.2.unique ht.stands h'.1 hbefore⟩
  · exact List.pairwise_filter.mpr (hlaid.pairwise.imp fun h ht _ => h.2 ht)
  · obtain ⟨before, cs', post, htext, ht⟩ := exists_laid ht
    obtain ⟨after, rfl⟩ := ht.text hkind
    exact ⟨before, after, htext, ht.stands⟩
  · cases ts with
    | nil => cases hlaid
    | cons t ts => exact ⟨gap, rest, t, ts, rfl, hgap, rfl, hlaid.stands⟩
  · rintro pre t u post rfl hkind
    obtain ⟨before, cs', htext, ht⟩ := hlaid.drop
    obtain ⟨suffix, gap', rest', rfl, hletters, hnumber, hgap', hu⟩ := ht.between hkind
    exact ⟨before, suffix, gap', rest', htext, ht.stands, hletters, hnumber, hgap', hu⟩

theorem scan_faithful_suffixed :
    ∃ ts, scan "" "n = 2u; // two\n)" = .ok ts ∧
      ts.map (fun t => (t.text, t.line, t.column)) =
        [("n", 1, 1), ("=", 1, 3), ("2", 1, 5), (";", 1, 7), (")", 2, 1), ("", 2, 2)] ∧
      Faithful "" "n = 2u; // two\n)".toList ts :=
  ⟨[⟨.identifier, "n", "", 1, 1⟩, ⟨.assign, "=", "", 1, 3⟩, ⟨.number, "2", "", 1, 5⟩,
    ⟨.semicolon, ";", "", 1, 7⟩, ⟨.rightParen, ")", "", 2, 1⟩, ⟨.eof, "", "", 2, 2⟩],
    by decide +kernel, rfl, scan_faithful (by decide +kernel)⟩

end RecordView.Token
