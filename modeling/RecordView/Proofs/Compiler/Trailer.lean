import RecordView.Proofs.Compiler

/-! The description at the end of a script. It is quoted there line by line, each line as a comment. A
newline ends a line of the description. A script knows three more characters that end a line, and behind
one of them a quoted line is code again. -/
namespace RecordView

variable {cs : List Char} {c : Char}

namespace Script
open Text (dropEnd trimEnd trimEndChars isBlank splitChars)

def isTerminator (c : Char) : Bool :=
  c == '\n' || c == '\r' || c == '\u2028' || c == '\u2029'

/-- A line without code: it is empty, or a comment from its first character on. -/
def Inert (l : List Char) : Prop := l = [] ∨ ['/', '/'] <+: l

instance (l : List Char) : Decidable (Inert l) := inferInstanceAs (Decidable (_ ∨ _))

def ended (ls : List String) : List Char := ls.flatMap fun l => l.toList ++ ['\n']

def frontLines (s : Script) (u : Settings) : List String :=
  importLines u ++ s.hostLines u ++ s.helperLines u ++ s.bodyLines ++ s.exportLines u

def trailerHead : List String :=
  ["/*", tab ++ "View classes generated by cdv from the following description:", "*/"]

def comment (l : String) : String := "// " ++ trimEnd l

/-- The lines behind the announcement: nothing for an empty description, otherwise an empty line and the
quoted ones. -/
def quotedLines (source : String) : List String :=
  if textLines source = [] then [] else "" :: (textLines source).map comment

/-! ## The end of the text -/

theorem ended_append (ls ms : List String) : ended (ls ++ ms) = ended ls ++ ended ms :=
  List.flatMap_append

theorem toList_unlines_concat (ls : List String) (x : String) :
    (Text.unlines (ls ++ [x])).toList = ended ls ++ x.toList := by
  induction ls with
  | nil => simp [Text.unlines, ended]
  | cons l ls ih =>
    have hjoin : Text.unlines (l :: (ls ++ [x])) = l ++ "\n" ++ Text.unlines (ls ++ [x]) := by
      have happend := String.intercalate_append_of_ne_nil (l := [l]) (m := ls ++ [x]) (s := "\n")
        (by simp) (by simp)
      simpa [Text.unlines] using happend
    rw [List.cons_append, hjoin]
    simp [ended, ih]

theorem dropEnd_of_getLast? {p : Char → Bool} (h : ∀ c ∈ cs.getLast?, p c = false) : dropEnd p cs = cs := by
  rw [← List.head?_reverse] at h
  unfold dropEnd
  cases hcs : cs.reverse with
  | nil => simpa using hcs.symm
  | cons c r =>
    have hc : p c = false := h c (by rw [hcs]; rfl)
    rw [List.dropWhile_cons_of_neg (by simp [hc]), ← hcs, List.reverse_reverse]

theorem getLast?_dropEnd {p : Char → Bool} (h : (dropEnd p cs).getLast? = some c) : p c = false := by
  unfold dropEnd at h
  rw [List.getLast?_reverse] at h
  have hhead := List.head?_dropWhile_not p cs.reverse
  rw [h] at hhead
  simpa using hhead

/-- A text that ends in no newline gets one. -/
theorem toList_endLine {text : String} (h : ∀ c ∈ text.toList.getLast?, c ≠ '\n') :
    (endLine text).toList = text.toList ++ ['\n'] := by
  have hkept : dropEnd (· == '\n') text.toList = text.toList :=
    dropEnd_of_getLast? fun c hc => by simpa using h c hc
  simp [endLine, hkept]

/-- A last line that ends in no newline is ended by one. -/
theorem toList_endLine_unlines {ls : List String} {x : String} (hx : x.toList.getLast? = some c)
    (hc : c ≠ '\n') : (endLine (Text.unlines (ls ++ [x]))).toList = ended (ls ++ [x]) := by
  have htext := toList_unlines_concat ls x
  have hlast : ∀ d ∈ (Text.unlines (ls ++ [x])).toList.getLast?, d ≠ '\n' := by
    intro d hd
    rw [htext, List.getLast?_append, hx] at hd
    simp only [Option.some_or, Option.mem_def, Option.some.injEq] at hd
    rwa [← hd]
  rw [toList_endLine hlast, htext]
  simp [ended]

/-- An empty last line is dropped. -/
theorem endLine_unlines_empty (ls : List String) (x : String) :
    endLine (Text.unlines (ls ++ [x] ++ [""])) = endLine (Text.unlines (ls ++ [x])) := by
  have htext : (Text.unlines (ls ++ [x] ++ [""])).toList = (Text.unlines (ls ++ [x])).toList ++ ['\n'] := by
    rw [toList_unlines_concat, toList_unlines_concat]
    simp [ended]
  unfold endLine
  rw [htext]
  simp [dropEnd]

/-- A quoted line ends in no newline, since the blanks at its end are dropped. -/
theorem getLast?_comment (l : String) : ∃ c, (comment l).toList.getLast? = some c ∧ c ≠ '\n' := by
  cases hlast : (trimEnd l).toList.getLast? with
  | none => exact ⟨' ', by simp [comment, List.getLast?_cons, hlast], by decide⟩
  | some c =>
    refine ⟨c, by simp [comment, List.getLast?_cons, hlast], ?_⟩
    rintro rfl
    have hblank : isBlank '\n' = false := getLast?_dropEnd (by simpa [trimEnd, trimEndChars] using hlast)
    exact absurd hblank (by decide)

/-- A script with its description: the lines before, the announcement and the quoted lines. -/
theorem toList_assemble (s : Script) {u : Settings} (source : String) (h : u.source = true) :
    (s.assemble u source).toList =
      ended (s.frontLines u) ++ ended trailerHead ++ ended (quotedLines source) := by
  have hlines : s.assemble u source = endLine (Text.unlines
      (s.frontLines u ++ trailerHead ++ [""] ++ (textLines source).map comment)) := by
    unfold assemble sourceLines
    rw [h, if_pos rfl]
    simp only [frontLines, trailerHead, List.append_assoc]
    rfl
  rw [hlines, ← ended_append, ← ended_append]
  rcases List.eq_nil_or_concat' (textLines source) with hnil | ⟨ls, l, hconcat⟩
  · have hquoted : quotedLines source = [] := if_pos hnil
    have hhead : s.frontLines u ++ trailerHead = s.frontLines u ++ trailerHead.dropLast ++ ["*/"] := by
      simp [trailerHead]
    rw [hquoted, hnil, hhead, List.map_nil, List.append_nil, List.append_nil, endLine_unlines_empty]
    exact toList_endLine_unlines (c := '/') rfl (by decide)
  · obtain ⟨c, hlast, hc⟩ := getLast?_comment l
    have hne : textLines source ≠ [] := by simp [hconcat]
    have hquoted : quotedLines source = "" :: ls.map comment ++ [comment l] := by
      rw [quotedLines, if_neg hne, hconcat]
      simp
    have hassoc (ms : List String) : ms ++ ("" :: ls.map comment ++ [comment l]) =
        ms ++ "" :: ls.map comment ++ [comment l] := by simp
    rw [hquoted, hassoc, ← toList_endLine_unlines hlast hc, hconcat]
    simp

/-! ## The lines of the description -/

section Lines

variable {p : Char → Bool}

theorem splitOnP_ended (hline : p '\n' = true) (ls : List String) :
    (ended ls).splitOnP p = ls.flatMap (fun l => l.toList.splitOnP p) ++ [[]] := by
  induction ls with
  | nil => simp [ended]
  | cons l ls ih =>
    have hcons : ended (l :: ls) = l.toList ++ '\n' :: ended ls := by simp [ended]
    rw [hcons, List.splitOnP_append_cons _ _ hline, ih]
    simp

/-- The first line reaches to the first character that ends one. -/
theorem head?_splitOnP (cs : List Char) :
    (cs.splitOnP p).head? = some (cs.takeWhile fun c => !p c) := by
  induction cs with
  | nil => simp
  | cons c cs ih =>
    rw [List.splitOnP_cons_eq_if_modifyHead]
    cases hc : p c with
    | true => simp [hc]
    | false => simp [hc, ih, List.head?_modifyHead]

/-- A line behind the first one begins where another ends. -/
theorem mem_tail_splitOnP {m : List Char} :
    m ∈ (cs.splitOnP p).tail ↔
      ∃ a t b, cs = a ++ t :: b ∧ p t = true ∧ m = b.takeWhile fun c => !p c := by
  induction cs with
  | nil => simp
  | cons c cs ih =>
    have hparts : cs.splitOnP p = (cs.takeWhile fun c => !p c) :: (cs.splitOnP p).tail :=
      List.eq_cons_of_mem_head? (head?_splitOnP cs)
    -- The first character ends the first line, or it belongs to the beginning of any split.
    have hsplit : (∃ a t b, c :: cs = a ++ t :: b ∧ p t = true ∧ m = b.takeWhile fun c => !p c) ↔
        (p c = true ∧ m = cs.takeWhile fun c => !p c) ∨ m ∈ (cs.splitOnP p).tail := by
      rw [ih]
      constructor
      · rintro ⟨a, t, b, heq, ht, hm⟩
        cases a with
        | nil =>
          obtain ⟨rfl, rfl⟩ := List.cons.inj heq
          exact .inl ⟨ht, hm⟩
        | cons d a => exact .inr ⟨a, t, b, (List.cons.inj heq).2, ht, hm⟩
      · rintro (⟨hc, hm⟩ | ⟨a, t, b, rfl, ht, hm⟩)
        · exact ⟨[], c, cs, rfl, hc, hm⟩
        · exact ⟨c :: a, t, b, rfl, ht, hm⟩
    rw [hsplit, List.splitOnP_cons_eq_if_modifyHead]
    cases hc : p c with
    | true =>
      rw [if_pos rfl, List.tail_cons, hparts]
      simp
    | false =>
      rw [if_neg (by simp), List.tail_modifyHead]
      simp

/-- What follows on each inner end of a line is no code. -/
def InertWithin (p : Char → Bool) (cs : List Char) : Prop :=
  ∀ a t b, cs = a ++ t :: b → p t = true → Inert (b.takeWhile fun c => !p c)

theorem inertWithin_iff : InertWithin p cs ↔ ∀ m ∈ (cs.splitOnP p).tail, Inert m := by
  constructor
  · intro h m hm
    obtain ⟨a, t, b, heq, ht, rfl⟩ := mem_tail_splitOnP.mp hm
    exact h a t b heq ht
  · intro h a t b heq ht
    exact h _ (mem_tail_splitOnP.mpr ⟨a, t, b, heq, ht, rfl⟩)

/-- A quoted line is a comment up to the first end of a line in it. -/
theorem inert_comment_iff (hslash : p '/' = false) (hspace : p ' ' = false) (l : String) :
    (∀ m ∈ (comment l).toList.splitOnP p, Inert m) ↔ InertWithin p (trimEnd l).toList := by
  have htext : (comment l).toList = '/' :: '/' :: ' ' :: (trimEnd l).toList := by simp [comment]
  rw [inertWithin_iff, htext]
  simp only [List.splitOnP_cons_eq_if_modifyHead, hslash, hspace, Bool.false_eq_true, if_false]
  cases hparts : (trimEnd l).toList.splitOnP p with
  | nil => exact absurd hparts (List.splitOnP_ne_nil p _)
  | cons first rest => simp [Inert]

theorem inert_quoted_iff (hline : p '\n' = true) (hslash : p '/' = false) (hspace : p ' ' = false)
    (source : String) :
    (∀ m ∈ (ended (quotedLines source)).splitOnP p, Inert m) ↔
      ∀ l ∈ textLines source, InertWithin p (trimEnd l).toList := by
  have hnil : Inert [] := .inl rfl
  simp only [← inert_comment_iff hslash hspace]
  rw [splitOnP_ended hline, quotedLines]
  by_cases hempty : textLines source = []
  · simp [hempty, hnil]
  · rw [if_neg hempty, List.flatMap_cons, List.flatMap_map]
    simp only [List.forall_mem_append, List.mem_flatMap]
    constructor
    · rintro ⟨⟨-, h⟩, -⟩ l hl m hm
      exact h m ⟨l, hl, hm⟩
    · intro h
      refine ⟨⟨by simpa using hnil, ?_⟩, by simpa using hnil⟩
      rintro m ⟨l, hl, hm⟩
      exact h l hl m hm

theorem inertWithin_of_forall (h : ∀ c ∈ cs, p c = false) : InertWithin p cs := by
  rintro a t b rfl ht
  have hfalse := h t (by simp)
  rw [ht] at hfalse
  cases hfalse

end Lines

theorem mem_splitChars {sep : Char} {l : List Char} (hl : l ∈ splitChars sep cs) (hc : c ∈ l) :
    c ∈ cs ∧ c ≠ sep := by
  induction cs generalizing l with
  | nil =>
    rw [splitChars, List.mem_singleton] at hl
    simp [hl] at hc
  | cons d cs ih =>
    rw [splitChars] at hl
    by_cases hd : d = sep
    · rw [if_pos hd] at hl
      rcases List.mem_cons.mp hl with rfl | hl
      · simp at hc
      · have htail := ih hl hc
        exact ⟨.tail _ htail.1, htail.2⟩
    · rw [if_neg hd] at hl
      cases hparts : splitChars sep cs with
      | nil => exact absurd hparts (Text.splitChars_ne_nil sep cs)
      | cons first rest =>
        simp only [hparts, List.mem_cons] at hl ih
        rcases hl with rfl | hl
        · rcases List.mem_cons.mp hc with rfl | hc
          · exact ⟨.head _, hd⟩
          · have hfirst := ih (.inl rfl) hc
            exact ⟨.tail _ hfirst.1, hfirst.2⟩
        · have hrest := ih (.inr hl) hc
          exact ⟨.tail _ hrest.1, hrest.2⟩

/-- A line of the description is a part of it without newlines, and so is what is left of the line when the
blanks at its end are dropped. -/
theorem mem_textLines {source l : String} (hl : l ∈ textLines source) (hc : c ∈ (trimEnd l).toList) :
    c ∈ source.toList ∧ c ≠ '\n' := by
  have hline : l ∈ Text.lines source := by
    unfold textLines at hl
    dsimp only at hl
    split at hl
    · exact List.dropLast_subset _ hl
    · exact hl
  obtain ⟨part, hpart, rfl⟩ := List.mem_map.mp hline
  have hkept : c ∈ part := by
    have hrev : c ∈ part.reverse.dropWhile isBlank := by
      simpa [trimEnd, trimEndChars, dropEnd] using hc
    exact List.mem_reverse.mp ((List.dropWhile_sublist _).subset hrev)
  exact mem_splitChars hpart hkept

end Script

namespace Compiler
open Declaration Script
open Text (trimEnd)

/-- A script that quotes its description ends with the announcement and the quoted lines. Between newlines
each of these is empty or a comment. By all the characters that end a line of a script they are so exactly
if behind each such character within a line of the description another comment begins, or the next such
character follows. A description with no such character but the newline is always quoted so. -/
theorem trailer_inert_iff {o : Options} {source : String} {c : Compilation}
    (h : (compile o source).result = .ok c) :
    ∃ s, Declaration.read ⟨o.padding, lineOf source⟩ (start o source) = (s, none) ∧
      (s.settings.source = true →
        c.code.toList = ended (s.script.frontLines s.settings) ++ ended trailerHead ++
          ended (quotedLines source) ∧
        (∀ m ∈ (ended (quotedLines source)).splitOnP (· == '\n'), Inert m) ∧
        ((∀ m ∈ (ended (quotedLines source)).splitOnP isTerminator, Inert m) ↔
          ∀ l ∈ textLines source, InertWithin isTerminator (trimEnd l).toList) ∧
        ((∀ t ∈ source.toList, isTerminator t = true → t = '\n') →
          ∀ m ∈ (ended (quotedLines source)).splitOnP isTerminator, Inert m)) := by
  obtain ⟨s, hlast, hnone, rfl⟩ := code_eq h
  refine ⟨s, Prod.ext hlast hnone, fun hsource => ?_⟩
  have hnewline := inert_quoted_iff (p := (· == '\n')) rfl rfl rfl source
  have hall := inert_quoted_iff (p := isTerminator) rfl rfl rfl source
  refine ⟨toList_assemble s.script source hsource, hnewline.mpr ?_, hall, fun honly => hall.mpr ?_⟩
  · intro l hl
    apply inertWithin_of_forall
    intro t ht
    simpa using (mem_textLines hl ht).2
  · intro l hl
    apply inertWithin_of_forall
    intro t ht
    have hpart := mem_textLines hl ht
    rw [← Bool.not_eq_true]
    intro hend
    exact hpart.2 (honly t hpart.1 hend)

/-- A description with two comments on one line, between which a carriage return stands. -/
def returnedSource : String := "struct A{uint8_t a;}; // a\r// b\r\n"

theorem trailer_inert_iff_returned : ∃ c, (compile {} returnedSource).result = .ok c ∧
    ∃ front, c.code.toList = front ++ ended trailerHead ++ ended (quotedLines returnedSource) ∧
      ∀ m ∈ (ended (quotedLines returnedSource)).splitOnP isTerminator, Inert m := by
  have hread : let r := Declaration.read ⟨"__", lineOf returnedSource⟩ (start {} returnedSource)
      r.2 = none ∧ r.1.settings.source = true := by decide +kernel
  obtain ⟨hnone, hon⟩ := hread
  have hok := result_of_none (o := {}) hnone
  obtain ⟨s, hs, htrailer⟩ := trailer_inert_iff hok
  rw [show Declaration.read ⟨"__", lineOf returnedSource⟩ (start {} returnedSource) = (s, none) from hs] at hon
  obtain ⟨hcode, -, hinert, -⟩ := htrailer hon
  refine ⟨_, hok, _, hcode, hinert.mpr ?_⟩
  simp only [inertWithin_iff]
  decide +kernel

/-- A description whose last comment goes on behind a line separator. -/
def separatedSource : String := "struct A{uint8_t a;}; // see\u2028here"

/-- Behind a line separator a quoted line is code. -/
theorem trailer_not_inert : ∃ c, (compile {} separatedSource).result = .ok c ∧
    ∃ front, c.code.toList = front ++ ended trailerHead ++ ended (quotedLines separatedSource) ∧
      "here".toList ∈ (ended (quotedLines separatedSource)).splitOnP isTerminator ∧
      ¬ Inert "here".toList := by
  have hread : let r := Declaration.read ⟨"__", lineOf separatedSource⟩ (start {} separatedSource)
      r.2 = none ∧ r.1.settings.source = true := by decide +kernel
  obtain ⟨hnone, hon⟩ := hread
  refine ⟨_, result_of_none (o := {}) hnone, _, toList_assemble _ separatedSource hon, ?_, by decide⟩
  decide +kernel

end Compiler
end RecordView
