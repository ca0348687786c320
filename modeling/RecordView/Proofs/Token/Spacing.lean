import RecordView.Proofs.Token.Coverage
import RecordView.Proofs.Token.DirectiveLine

/-! Blanks between tokens carry no meaning: the texts of tokens with spaces between them are cut into the same
tokens again. -/
namespace RecordView.Token

variable {file : String} {p : Position} {mode : Mode} {cs : List Char} {t : Token} {ts us : List Token}

def Kind.isSimple (k : Kind) : Bool := k.isVerbatim && k != .comment

/-! ## Tokens that are found again -/

/-- The text of the token is recognised as this token wherever it stands before a space or at the end. -/
def Stable (t : Token) : Prop :=
  ∃ c ds, t.text.toList = c :: ds ∧ c ≠ '\n' ∧ isGap c ≠ true ∧ (c = '/' → ds = []) ∧
    ∀ tail, AtSpace tail → lexeme c (ds ++ tail) = ⟨t.kind, c :: ds, ds.length⟩

inductive Stream : List Token → Prop where
  | eof {e : Token} (kind : e.kind = .eof) (text : e.text = "") : Stream [e]
  | cons {t : Token} {ts : List Token} (stable : Stable t) (rest : Stream ts) : Stream (t :: ts)

theorem Stream.ne_nil (h : Stream ts) : ts ≠ [] := by
  cases h with
  | eof => exact List.cons_ne_nil _ _
  | cons => exact List.cons_ne_nil _ _

def Unmarked (ts : List Token) : Prop := ∀ t ∈ ts.head?, t.text.toList.head? ≠ some '#'

/-- Outside of directives the tokens of a text are stable, and none that starts a line has a mark. -/
theorem stream_of_scanFrom (h : scanFrom file p mode cs = .ok ts) (hmode : mode.inDirective = false)
    (hkinds : ∀ t ∈ ts, t.kind.isSimple = true ∨ t.kind = .eof) :
    Stream ts ∧ (mode.atLineStart = true → Unmarked ts) := by
  fun_induction scanFrom file p mode cs generalizing ts with
  | case1 p mode =>
    cases h
    rw [hmode, if_neg Bool.false_ne_true]
    refine ⟨.eof rfl rfl, fun _ t ht => ?_⟩
    cases ht
    intro hhead
    cases hhead
  | case2 p mode cs ih =>
    obtain ⟨rest, hrest, hts⟩ := bind_eq_ok_iff.mp h
    cases hts
    rw [hmode, if_neg Bool.false_ne_true] at hkinds ⊢
    obtain ⟨hstream, hmarked⟩ := ih hrest rfl hkinds
    exact ⟨hstream, fun _ => hmarked rfl⟩
  | case3 p mode c cs hc hgap ih => exact ih h hmode hkinds
  | case4 p mode c cs hc hgap hline n =>
    rename_i ih
    exact ih h hmode hkinds
  | case5 p mode c cs hc hgap hline hblock hnone => cases h
  | case6 p mode c cs hc hgap hline hblock n hn text =>
    obtain ⟨rest, -, hts⟩ := bind_eq_ok_iff.mp h
    cases hts
    -- Its first token would be a comment, and in the next case a directive: neither is simple.
    rcases hkinds _ List.mem_cons_self with hkind | hkind
    · cases hkind
    · cases hkind
  | case7 p mode c cs hc hgap hline hblock hmark tokens n htokens ih =>
    obtain ⟨rest, -, hts⟩ := bind_eq_ok_iff.mp h
    cases hts
    obtain ⟨word, more, hdirective, -⟩ := exists_directiveTokens file p cs
    rw [htokens] at hdirective
    obtain rfl : tokens = _ := hdirective
    rcases hkinds _ List.mem_cons_self with hkind | hkind
    · cases hkind
    · cases hkind
  | case8 p mode c cs hc hgap hline hblock hmark l =>
    rename_i ih
    obtain ⟨rest, hrest, hts⟩ := bind_eq_ok_iff.mp h
    cases hts
    obtain ⟨hstream, -⟩ := ih hrest hmode fun t ht => hkinds t (List.mem_cons_of_mem _ ht)
    have hstring : l.kind ≠ .string := by
      intro hl
      rcases hkinds _ List.mem_cons_self with hkind | hkind
      · rw [make, hl] at hkind
        cases hkind
      · rw [make, hl] at hkind
        cases hkind
    obtain ⟨ds, htext, hslash, hagain⟩ := lexeme_again c cs hstring
    have htoList : (make file l.kind l.text p).text.toList = c :: ds := by
      rw [make, String.toList_ofList, htext]
    refine ⟨.cons ⟨c, ds, htoList, hc, hgap, hslash, hagain⟩ hstream, fun hstart t ht => ?_⟩
    cases ht
    rw [htoList]
    exact fun hc => hmark ⟨Option.some.inj hc, hstart⟩

/-! ## Spaces -/

/-- The texts of the tokens with spaces between them. -/
inductive Spaced : List Token → List Char → Prop where
  | eof {e : Token} (kind : e.kind = .eof) (text : e.text = "") : Spaced [e] []
  | space {ts : List Token} {cs : List Char} (rest : Spaced ts cs) : Spaced ts (' ' :: cs)
  | token {t : Token} {ts : List Token} {cs : List Char} (stable : Stable t) (apart : AtSpace cs)
      (rest : Spaced ts cs) : Spaced (t :: ts) (t.text.toList ++ cs)

theorem Spaced.scanFrom (h : Spaced ts cs) (file : String) (p : Position) (mode : Mode)
    (hmode : mode.inDirective = false) (hmarked : mode.atLineStart = true → Unmarked ts) :
    ∃ us, scanFrom file p mode cs = .ok us ∧
      us.map (fun t => (t.kind, t.text)) = ts.map fun t => (t.kind, t.text) := by
  induction h generalizing p mode with
  | @eof e kind text =>
    refine ⟨[make file .eof [] p], ?_, ?_⟩
    · rw [Token.scanFrom, hmode]
      rfl
    · rw [List.map_singleton, List.map_singleton, kind, text]
      rfl
  | space _ ih =>
    rw [Token.scanFrom, if_neg (by decide), if_pos (by decide)]
    exact ih _ _ hmode hmarked
  | @token t ts cs stable apart rest ih =>
    obtain ⟨c, ds, htext, hnewline, hgap, hslash, hlexeme⟩ := stable
    -- A slash stands alone before a space, so it opens no comment.
    have halone {d : Char} (hd : d ≠ ' ') : ¬ (c = '/' ∧ (ds ++ cs).head? = some d) := by
      rintro ⟨hc, hhead⟩
      rw [hslash hc, List.nil_append] at hhead
      exact hd (apart d hhead)
    have hmark : ¬ (c = '#' ∧ mode.atLineStart = true) := by
      rintro ⟨rfl, hstart⟩
      exact hmarked hstart t rfl (by rw [htext]; rfl)
    obtain ⟨us, hus, hmap⟩ := ih (p.after (c :: ds)) { mode with atLineStart := false } hmode
      fun h => absurd h Bool.false_ne_true
    refine ⟨make file t.kind (c :: ds) p :: us, ?_, ?_⟩
    · rw [htext, List.cons_append, Token.scanFrom, if_neg hnewline, if_neg hgap, if_neg (halone (by decide)),
        if_neg (halone (by decide)), if_neg hmark]
      dsimp only
      rw [hlexeme cs apart]
      dsimp only
      rw [List.take_left, List.drop_left, hus]
      rfl
    · rw [List.map_cons, List.map_cons, hmap, make, ← htext, String.ofList_toList]

def joined (ts : List Token) : String := " ".intercalate (ts.map (·.text))

theorem Spaced.joined_cons (ht : Stable t) (h : Spaced ts (joined us).toList) :
    Spaced (t :: ts) (joined (t :: us)).toList := by
  cases us with
  | nil =>
    have hjoined : joined [t] = t.text := String.intercalate_singleton
    rw [hjoined, ← List.append_nil t.text.toList]
    exact .token ht atSpace_nil h
  | cons u us =>
    have hjoined : (joined (t :: u :: us)).toList = t.text.toList ++ ' ' :: (joined (u :: us)).toList := by
      rw [joined, List.map_cons, List.map_cons, String.intercalate_cons_cons, String.toList_append,
        String.toList_append, List.append_assoc]
      rfl
    rw [hjoined]
    refine .token ht (fun d hd => ?_) h.space
    cases hd
    rfl

theorem Stream.spaced (h : Stream ts) :
    Spaced ts (joined ts.dropLast).toList ∧ Spaced ts (joined ts).toList := by
  induction h with
  | @eof e kind text =>
    have hjoined : joined [e] = "" := String.intercalate_singleton.trans text
    rw [hjoined]
    exact ⟨.eof kind text, .eof kind text⟩
  | cons stable rest ih =>
    rw [List.dropLast_cons_of_ne_nil rest.ne_nil]
    exact ⟨.joined_cons stable ih.1, .joined_cons stable ih.2⟩

theorem Spaced.scan {source : String} (h : Spaced ts source.toList) (hmarked : Unmarked ts) (file : String) :
    ∃ us, scan file source = .ok us ∧
      us.map (fun t => (t.kind, t.text)) = ts.map fun t => (t.kind, t.text) := by
  obtain ⟨us, hus, hmap⟩ := h.scanFrom file .start {} rfl fun _ => hmarked
  refine ⟨us, ?_, hmap⟩
  rw [Token.scan, hus]

/-- Where all tokens are simple, their texts joined with single spaces are cut into tokens of the same kinds and
texts, whether or not the empty text of the end is joined too. -/
theorem scan_joined {source : String} (h : scan file source = .ok ts)
    (hkinds : ∀ t ∈ ts, t.kind.isSimple = true ∨ t.kind = .eof) (file' : String) :
    (∃ us, scan file' (joined ts.dropLast) = .ok us ∧
      us.map (fun t => (t.kind, t.text)) = ts.map fun t => (t.kind, t.text)) ∧
    ∃ us, scan file' (joined ts) = .ok us ∧
      us.map (fun t => (t.kind, t.text)) = ts.map fun t => (t.kind, t.text) := by
  obtain ⟨hstream, hmarked⟩ := stream_of_scanFrom (scanFrom_of_scan h) rfl hkinds
  obtain ⟨hinner, hwhole⟩ := hstream.spaced
  exact ⟨hinner.scan (hmarked rfl) file', hwhole.scan (hmarked rfl) file'⟩

theorem scan_joined_adjacent :
    ∃ ts, scan "" "a# .5e3UL>>>=b" = .ok ts ∧ (∀ t ∈ ts, t.kind.isSimple = true ∨ t.kind = .eof) ∧
      joined ts.dropLast = "a # .5e3 >>> = b" ∧
      ∃ us, scan "" (joined ts.dropLast) = .ok us ∧
        us.map (fun t => (t.kind, t.text)) = ts.map fun t => (t.kind, t.text) := by
  have hscan : scan "" "a# .5e3UL>>>=b" =
      .ok [⟨.identifier, "a", "", 1, 1⟩, ⟨.other, "#", "", 1, 2⟩, ⟨.number, ".5e3", "", 1, 4⟩,
        ⟨.operator, ">>>", "", 1, 10⟩, ⟨.assign, "=", "", 1, 13⟩, ⟨.identifier, "b", "", 1, 14⟩,
        ⟨.eof, "", "", 1, 15⟩] := by decide +kernel
  exact ⟨_, hscan, by decide, by decide +kernel, (scan_joined hscan (by decide) "").1⟩

end RecordView.Token
