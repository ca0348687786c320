import Mathlib.Tactic.SplitIfs
import RecordView.Script.Item
import RecordView.Proofs.Expression.Derived
import RecordView.Proofs.Text.Literal
import RecordView.Proofs.Token.Lexeme
import RecordView.Proofs.Token.Line

/-! Constants that are one token. The string that spells a text is one token with that text; the text is
its value, and the literal that a script has for this value reads back as the text. -/
namespace RecordView.Token

variable {file : String} {q c : Char} {cs : List Char}

/-! ## Sources of one token -/

/-- A source that is one lexeme is cut into its token and the end. -/
theorem scan_lexeme {kind : Kind} {text : List Char} (hnewline : c ≠ '\n') (hgap : isGap c = false)
    (hslash : c ≠ '/') (hmark : c ≠ '#') (h : lexeme c cs = ⟨kind, text, cs.length⟩) (file : String) :
    scan file (String.ofList (c :: cs)) =
      .ok [make file kind text .start, make file .eof [] (Position.start.after (c :: cs))] := by
  have hfrom : scanFrom file .start {} (c :: cs) =
      .ok [make file kind text .start, make file .eof [] (Position.start.after (c :: cs))] := by
    rw [scanFrom, if_neg hnewline, if_neg (by simp [hgap]), if_neg (by simp [hslash]),
      if_neg (by simp [hslash]), if_neg (by simp [hmark])]
    dsimp only
    rw [h]
    dsimp only
    rw [List.take_length, List.drop_length, scanFrom]
    rfl
  rw [scan, String.toList_ofList, hfrom]

/-! ## Strings -/

def stringQuotes : List Char := ['\"', Text.apostrophe]

/-- A character in a string with the quotes `q`. A backslash, such a quote and a newline are escaped. -/
def spellChar (q c : Char) : List Char :=
  if c = '\n' then ['\\', 'n'] else if c = '\\' ∨ c = q then ['\\', c] else [c]

def spell (q : Char) (cs : List Char) : List Char := cs.flatMap (spellChar q)

def spelling (q : Char) (s : String) : String := String.ofList (q :: (spell q s.toList ++ [q]))

/-- What sets a quote apart from the other characters that may begin something. -/
structure OpensString (q : Char) : Prop where
  quote : (q == '\"' || q == Text.apostrophe) = true
  escaped : unescape q = q
  not_identifier : isIdentStart q ≠ true
  not_digit : isDigit q = false
  not_gap : isGap q = false
  ne : q ≠ '\n' ∧ q ≠ '\\' ∧ q ≠ '/' ∧ q ≠ '#' ∧ q ≠ '.'

theorem opensString (hq : q ∈ stringQuotes) : OpensString q := by
  simp only [stringQuotes, List.mem_cons, List.not_mem_nil, or_false] at hq
  rcases hq with rfl | rfl <;> constructor <;> decide

/-- One character as it is spelled is read as itself. -/
theorem stringBody_spellChar (hq : q ∈ stringQuotes) (c : Char) (cs : List Char) :
    stringBody q (spellChar q c ++ cs) =
      (c :: (stringBody q cs).1, (stringBody q cs).2 + (spellChar q c).length) := by
  have hmark : '\\' ≠ q := (opensString hq).ne.2.1.symm
  have hescape (d : Char) : stringBody q (['\\', d] ++ cs) =
      (unescape d :: (stringBody q cs).1, (stringBody q cs).2 + 2) := by
    rw [List.cons_append, List.singleton_append, stringBody, if_neg (by decide), if_neg hmark, if_pos rfl]
  unfold spellChar
  split_ifs with hnewline hspecial
  · subst hnewline
    exact hescape 'n'
  · have hsame : unescape c = c := by
      rcases hspecial with rfl | rfl
      · rfl
      · exact (opensString hq).escaped
    rw [hescape, hsame]
    rfl
  · rw [not_or] at hspecial
    cases cs <;> simp [stringBody, hnewline, hspecial.1, hspecial.2]

/-- A text as it is spelled is read as itself, and ends with the quote behind it. -/
theorem stringBody_spell (hq : q ∈ stringQuotes) (cs : List Char) :
    stringBody q (spell q cs ++ [q]) = (cs, (spell q cs ++ [q]).length) := by
  induction cs with
  | nil => simp [spell, stringBody, (opensString hq).ne.1]
  | cons c cs ih =>
    have hcons : spell q (c :: cs) = spellChar q c ++ spell q cs := List.flatMap_cons
    rw [hcons, List.append_assoc, stringBody_spellChar hq, ih]
    simp only [List.length_append]
    rw [Nat.add_comm]

theorem ne_newline_of_mem_spell (hq : q ∈ stringQuotes) {d : Char} (hd : d ∈ q :: (spell q cs ++ [q])) :
    d ≠ '\n' := by
  have hquote : q ≠ '\n' := (opensString hq).ne.1
  simp only [List.mem_cons, List.mem_append, spell, List.mem_flatMap, List.not_mem_nil, or_false] at hd
  rcases hd with rfl | ⟨c, -, hd⟩ | rfl
  · exact hquote
  · unfold spellChar at hd
    split_ifs at hd with hnewline hspecial
    · simp only [List.mem_cons, List.not_mem_nil, or_false] at hd
      rcases hd with rfl | rfl <;> decide
    · simp only [List.mem_cons, List.not_mem_nil, or_false] at hd
      rcases hd with rfl | rfl
      · decide
      · exact hnewline
    · rwa [List.mem_singleton.mp hd]
  · exact hquote

theorem lexeme_spell (hq : q ∈ stringQuotes) (cs : List Char) :
    lexeme q (spell q cs ++ [q]) = ⟨.string, cs, (spell q cs ++ [q]).length⟩ := by
  have hopens := opensString hq
  have hnumber : startsNumber q (spell q cs ++ [q]) ≠ true := by
    simp [startsNumber, hopens.not_digit, hopens.ne.2.2.2.2]
  have hlexeme : lexeme q (spell q cs ++ [q]) =
      ⟨.string, (stringBody q (spell q cs ++ [q])).1, (stringBody q (spell q cs ++ [q])).2⟩ :=
    (if_neg hopens.not_identifier).trans ((if_neg hnumber).trans (if_pos hopens.quote))
  rw [hlexeme, stringBody_spell hq]

/-- The spelling of a text is cut into one string, which is on one line and has the text. -/
theorem scan_spelling (hq : q ∈ stringQuotes) (file s : String) :
    scan file (spelling q s) =
      .ok [⟨.string, s, file, 1, 1⟩, ⟨.eof, "", file, 1, (spelling q s).length + 1⟩] := by
  have hopens := opensString hq
  obtain ⟨hnewline, -, hslash, hmark, -⟩ := hopens.ne
  rw [spelling, scan_lexeme hnewline hopens.not_gap hslash hmark (lexeme_spell hq s.toList),
    Position.after_eq (fun d hd => ne_newline_of_mem_spell hq hd), ← String.length_toList,
    String.toList_ofList, make, make, String.ofList_toList, Nat.add_comm]
  rfl

/-- The value of a string is its text. -/
theorem evaluate_string {ts : List Token} {t : Token} (ht : t.kind = .string)
    (hts : Expr.content ts = [t]) (scope : Scope) (allowDefined : Bool) (location : Option Location) :
    Expr.evaluate scope allowDefined ts location = .ok (.text t.text) :=
  Expr.evaluate_of_level (Nat.zero_le 10) (.atom (.text ⟨t, ht⟩)) hts.symm rfl rfl

/-- Texts survive as constants. The string that spells a text in quotes of either kind is cut into one
token with the text; evaluated wherever it stands, alone or with the end of the input, it gives the text;
and the literal of that value in a script of either language is in ASCII and on one line, and reads back
as the text. -/
theorem string_constant_survives (hq : q ∈ stringQuotes) (file s : String) :
    ∃ t e : Token, scan file (spelling q s) = .ok [t, e] ∧ t.kind = .string ∧ t.text = s ∧ e.kind = .eof ∧
      (∀ ts, ts = [t] ∨ ts = [t, e] → ∀ scope allowDefined location,
        Expr.evaluate scope allowDefined ts location = .ok (.text s)) ∧
      ∀ language, ∃ literal, Script.literal language (.text s) = .ok literal ∧
        (∀ c ∈ literal.toList, c.toNat < 128 ∧ c ≠ '\n') ∧ Text.readLiteral? literal = some s := by
  refine ⟨_, _, scan_spelling hq file s, rfl, rfl, rfl, fun ts hts => ?_, fun language => ?_⟩
  · have hcontent : Expr.content ts = [⟨.string, s, file, 1, 1⟩] := by rcases hts with rfl | rfl <;> rfl
    exact evaluate_string rfl hcontent
  · refine ⟨Text.quoteAscii s, rfl, fun c hc => ?_, Text.readLiteral?_quoteAscii s⟩
    have hplain := of_decide_eq_true (Text.isPlainAscii_quoteAscii s c hc)
    constructor
    · omega
    · rintro rfl
      exact absurd hplain (by decide)

/-- A text with an apostrophe, a backslash, a newline and a character of two code units, in apostrophes. -/
theorem string_constant_survives_apostrophe :
    Text.apostrophe ∈ stringQuotes ∧
      ∃ t e : Token, scan "" "'it\\'s \\\\ \\n😀'" = .ok [t, e] ∧ t.text = "it's \\ \n😀" ∧
        Expr.evaluate {} false [t, e] = .ok (.text "it's \\ \n😀") ∧
        ∃ literal, Script.literal .javascript (.text "it's \\ \n😀") = .ok literal ∧
          literal = "\"it's \\\\ \\n\\ud83d\\ude00\"" ∧ Text.readLiteral? literal = some "it's \\ \n😀" := by
  have hq : Text.apostrophe ∈ stringQuotes := by decide
  have hspelling : spelling Text.apostrophe "it's \\ \n😀" = "'it\\'s \\\\ \\n😀'" := by decide +kernel
  obtain ⟨t, e, hscan, -, htext, -, hvalue, hliteral⟩ := string_constant_survives hq "" "it's \\ \n😀"
  obtain ⟨literal, heq, -, hread⟩ := hliteral .javascript
  rw [hspelling] at hscan
  refine ⟨hq, t, e, hscan, htext, hvalue _ (.inr rfl) {} false none, literal, heq, ?_, hread⟩
  rw [← Except.ok.inj heq]
  decide +kernel

end RecordView.Token
