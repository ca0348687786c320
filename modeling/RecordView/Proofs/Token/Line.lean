import RecordView.Token.Scanner
import RecordView.Proofs.Layout.Relabel

/-! A text is cut into tokens line by line: where it starts only moves its tokens, and a pragma line in
front of it adds the tokens of that line. -/
namespace RecordView.Token

variable {k : Nat} {cs : List Char} {name file source : String} {ts : List Token}

/-! ## Scanning further down -/

def Position.down (k : Nat) (p : Position) : Position := ⟨p.line + k, p.column⟩

theorem Position.step_down (p : Position) (c : Char) : (p.down k).step c = (p.step c).down k := by
  unfold step
  split
  · show Position.mk (p.line + k + 1) 1 = ⟨p.line + 1 + k, 1⟩
    rw [Nat.add_right_comm]
  · rfl

theorem Position.after_down (p : Position) (cs : List Char) :
    (p.down k).after cs = (p.after cs).down k := by
  induction cs generalizing p with
  | nil => rfl
  | cons c cs ih =>
    show ((p.down k).step c).after cs = ((p.step c).after cs).down k
    rw [step_down, ih]

theorem make_down (file : String) (kind : Kind) (text : List Char) (p : Position) :
    make file kind text (p.down k) = (make file kind text p).down k := rfl

theorem pragmaValue_down (file : String) (p : Position) (cs : List Char) :
    pragmaValue file (p.down k) cs =
      ((pragmaValue file p cs).1.map (Token.down k), (pragmaValue file p cs).2) := by
  unfold pragmaValue
  split
  · dsimp only
    split <;> rfl
  · rfl

theorem pragmaTokens_down (file : String) (p : Position) (cs : List Char) :
    pragmaTokens file (p.down k) cs =
      ((pragmaTokens file p cs).1.map (Token.down k), (pragmaTokens file p cs).2) := by
  simp only [pragmaTokens, Position.after_down, pragmaValue_down, make_down]
  split
  · split <;> rfl
  · rfl

theorem directiveTokens_down (file : String) (p : Position) (cs : List Char) :
    directiveTokens file (p.down k) cs =
      ((directiveTokens file p cs).1.map (Token.down k), (directiveTokens file p cs).2) := by
  simp only [directiveTokens, Position.after_down, pragmaTokens_down, make_down]
  split
  · rfl
  · split <;> rfl

def scannedDown (k : Nat) : Except Position (List Token) → Except Position (List Token)
  | .ok ts => .ok (ts.map (down k))
  | .error p => .error (p.down k)

theorem scannedDown_bind (x : Except Position (List Token)) {f f' : List Token → List Token}
    (h : ∀ ts, f' (ts.map (down k)) = (f ts).map (down k)) :
    (do return f' (← scannedDown k x)) = scannedDown k (do return f (← x)) := by
  cases x with
  | ok ts => exact congrArg Except.ok (h ts)
  | error p => rfl

theorem scanFrom_down (file : String) (p : Position) (mode : Mode) (cs : List Char) :
    scanFrom file (p.down k) mode cs = scannedDown k (scanFrom file p mode cs) := by
  fun_induction scanFrom file p mode cs with
  | case1 p mode =>
    rw [scanFrom]
    refine congrArg Except.ok ?_
    split <;> rfl
  | case2 p mode cs ih =>
    rw [scanFrom, if_pos rfl, Position.step_down, ih]
    refine scannedDown_bind _ fun ts => ?_
    split <;> rfl
  | case3 p mode c cs hc hgap ih =>
    rw [scanFrom, if_neg hc, if_pos hgap, Position.step_down, ih]
  | case4 p mode c cs hc hgap hline n ih =>
    rw [scanFrom, if_neg hc, if_neg hgap, if_pos hline]
    dsimp only
    rw [Position.after_down, ih]
  | case5 p mode c cs hc hgap hline hblock hnone =>
    rw [scanFrom, if_neg hc, if_neg hgap, if_neg hline, if_pos hblock, hnone]
    rfl
  | case6 p mode c cs hc hgap hline hblock n hn text ih =>
    rw [scanFrom, if_neg hc, if_neg hgap, if_neg hline, if_pos hblock, hn]
    dsimp only
    rw [Position.after_down, ih]
    exact scannedDown_bind _ fun ts => rfl
  | case7 p mode c cs hc hgap hline hblock hmark value n hn ih =>
    rw [scanFrom, if_neg hc, if_neg hgap, if_neg hline, if_neg hblock, if_pos hmark, directiveTokens_down, hn]
    dsimp only
    rw [Position.after_down, ih]
    exact scannedDown_bind _ fun ts => List.map_append.symm
  | case8 p mode c cs hc hgap hline hblock hmark l inLine ih =>
    rw [scanFrom, if_neg hc, if_neg hgap, if_neg hline, if_neg hblock, if_neg hmark]
    dsimp only
    rw [Position.after_down, ih]
    exact scannedDown_bind _ fun ts => rfl

/-! ## Pragma lines -/

/-- A text that is cut out as one identifier. -/
def isIdentifier (name : String) : Bool :=
  match name.toList with
  | c :: cs => isIdentStart c && cs.all isIdentChar
  | [] => false

/-- Characters of a value that neither open nor close anything, and end no line. -/
def isPlain (c : Char) : Bool := c != '(' && c != ')' && c != '\\' && c != '\n' && !isQuote c

def pragmaLine (name value : String) : String := "#pragma " ++ name ++ "(" ++ value ++ ")\n"

def lineTokens (file : String) (line : Nat) (name value : String) : List Token :=
  [⟨.directive, "#pragma", file, line, 1⟩, ⟨.identifier, name, file, line, 9⟩,
    ⟨.blob, value, file, line, 9 + name.length⟩,
    ⟨.newline, "\n", file, line, 11 + name.length + value.length⟩]

theorem valueLength_plain {v : List Char} (hv : v.all isPlain = true) (rest : List Char) :
    valueLength 0 none (v ++ ')' :: rest) = (true, v.length) := by
  induction v with
  | nil => rfl
  | cons c v ih =>
    rw [List.all_cons, Bool.and_eq_true] at hv
    obtain ⟨hc, hv⟩ := hv
    simp only [isPlain, Bool.and_eq_true, bne_iff_ne, ne_eq, Bool.not_eq_true'] at hc
    obtain ⟨⟨⟨⟨hopen, hclose⟩, -⟩, hnewline⟩, hquote⟩ := hc
    rw [List.cons_append, valueLength, if_neg hnewline]
    simp [hopen, hclose, hquote, ih hv]

theorem Position.after_append (p : Position) (cs ds : List Char) :
    p.after (cs ++ ds) = (p.after cs).after ds := List.foldl_append

theorem Position.after_eq (h : ∀ c ∈ cs, c ≠ '\n') (p : Position) :
    p.after cs = ⟨p.line, p.column + cs.length⟩ := by
  induction cs generalizing p with
  | nil => rfl
  | cons c cs ih =>
    show (p.step c).after cs = _
    rw [ih fun d hd => h d (List.mem_cons_of_mem c hd), step, if_neg (h c List.mem_cons_self)]
    simp only [List.length_cons]
    rw [Nat.add_right_comm, Nat.add_assoc]

theorem not_isInlineBlank {c : Char} (h : isIdentStart c = true) : isInlineBlank c = false := by
  rw [← Bool.not_eq_true]
  intro hblank
  simp only [isInlineBlank, Bool.or_eq_true, beq_iff_eq] at hblank
  rcases hblank with rfl | rfl
  · exact absurd h (by decide)
  · exact absurd h (by decide)

/-- The name of a pragma is followed by its value in parentheses. -/
theorem pragmaTokens_eq (file : String) (p : Position) {c : Char} (hc : isIdentStart c = true)
    (hcs : cs.all isIdentChar = true) (rest : List Char) :
    pragmaTokens file p (' ' :: (c :: cs ++ '(' :: rest)) =
      let value := pragmaValue file (p.after (' ' :: c :: cs)) ('(' :: rest)
      (make file .identifier (c :: cs) (p.after [' ']) :: value.1, 1 + (cs.length + 1) + value.2) := by
  have hskipped : runLength isInlineBlank (' ' :: (c :: cs ++ '(' :: rest)) = 1 := by
    have hspace : isInlineBlank ' ' = true := rfl
    simp [runLength, hspace, not_isInlineBlank hc]
  have hname : (c :: cs ++ '(' :: rest).takeWhile isIdentChar = c :: cs := by
    have hall : ∀ d ∈ c :: cs, isIdentChar d = true := by
      intro d hd
      rcases List.mem_cons.mp hd with rfl | hd
      · simp [isIdentChar, hc]
      · exact List.all_eq_true.mp hcs d hd
    have hparen : isIdentChar '(' = false := by decide
    rw [List.takeWhile_append_of_pos hall, List.takeWhile_cons, hparen]
    simp
  have hdrop : (c :: cs ++ '(' :: rest).drop (c :: cs).length = '(' :: rest := List.drop_left
  have htake : (c :: cs ++ '(' :: rest).take (c :: cs).length = c :: cs := List.take_left
  have hgap : runLength isInlineBlank ('(' :: rest) = 0 := rfl
  have hbody : pragmaTokens file p (' ' :: (c :: cs ++ '(' :: rest)) =
      let body := c :: cs ++ '(' :: rest
      let name := body.takeWhile isIdentChar
      let taken := name.length + runLength isInlineBlank (body.drop name.length)
      let value := pragmaValue file ((p.after [' ']).after (body.take taken)) (body.drop taken)
      (make file .identifier name (p.after [' ']) :: value.1, 1 + taken + value.2) := by
    unfold pragmaTokens
    rw [hskipped]
    exact if_pos hc
  rw [hbody]
  dsimp only
  rw [hname, hdrop, hgap, Nat.add_zero, htake, hdrop, ← Position.after_append]
  rfl

theorem directiveTokens_pragma (file : String) (p : Position) (rest : List Char) :
    directiveTokens file p ("pragma".toList ++ ' ' :: rest) =
      let value := pragmaTokens file (p.after "#pragma".toList) (' ' :: rest)
      (make file .directive "#pragma".toList p :: value.1, 6 + value.2) := by
  have hword : ("pragma".toList ++ ' ' :: rest).takeWhile isIdentChar = "pragma".toList := by
    have hall : "pragma".toList.all isIdentChar = true := by decide
    rw [List.takeWhile_append_of_pos (List.all_eq_true.mp hall)]
    exact List.append_nil _
  have hgap : runLength isInlineBlank ("pragma".toList ++ ' ' :: rest) = 0 := rfl
  have herror : "pragma".toList ≠ "error".toList := by decide
  simp only [directiveTokens, hgap, List.drop_zero, hword, herror, if_true, if_false]
  rfl

theorem ne_newline_of_all (h : cs.all (· != '\n') = true) : ∀ c ∈ cs, c ≠ '\n' :=
  fun c hc => bne_iff_ne.mp (List.all_eq_true.mp h c hc)

theorem make_after (file : String) (kind : Kind) (text : String) (n : Nat) (h : ∀ c ∈ cs, c ≠ '\n') :
    make file kind text.toList (Position.after ⟨n, 1⟩ cs) = ⟨kind, text, file, n, 1 + cs.length⟩ := by
  rw [Position.after_eq h, make, String.ofList_toList]

theorem exists_cons_of_isIdentifier (h : isIdentifier name = true) :
    ∃ c cs, name.toList = c :: cs ∧ isIdentStart c = true ∧ cs.all isIdentChar = true := by
  unfold isIdentifier at h
  split at h
  · next c cs hcs => exact ⟨c, cs, hcs, by simpa using h⟩
  · cases h

theorem ne_newline_of_isIdentifier (h : isIdentifier name = true) : ∀ c ∈ name.toList, c ≠ '\n' := by
  obtain ⟨c, cs, hcs, hc, hall⟩ := exists_cons_of_isIdentifier h
  have hname : ∀ d ∈ name.toList, isIdentChar d = true := by
    rw [hcs]
    exact List.forall_mem_cons.mpr ⟨by simp [isIdentChar, hc], List.all_eq_true.mp hall⟩
  rintro d hd rfl
  exact absurd (hname _ hd) (by decide)

section Payload

def payloadTokens (file : String) (line : Nat) (name : String) (kind : Kind) (text : String) : List Token :=
  [⟨.directive, "#pragma", file, line, 1⟩, ⟨.identifier, name, file, line, 9⟩,
    ⟨kind, text, file, line, 9 + name.length⟩]

variable {file name text : String} {kind : Kind} {body tail : List Char} (hname : isIdentifier name = true)
  (hbody : ∀ c ∈ body, c ≠ '\n')
  (hvalue : ∀ p, pragmaValue file p ('(' :: (body ++ tail)) =
    ([make file kind text.toList p], body.length + 1))
include hname hvalue

theorem directiveTokens_payload (n : Nat) :
    directiveTokens file ⟨n, 1⟩ ("pragma".toList ++ ' ' :: (name.toList ++ '(' :: (body ++ tail))) =
      (payloadTokens file n name kind text, name.length + body.length + 8) := by
  obtain ⟨c, cs, hcs, hc, hall⟩ := exists_cons_of_isIdentifier hname
  have hlength : name.length = cs.length + 1 := by
    rw [← String.length_toList, hcs, List.length_cons]
  have hident : make file .identifier (c :: cs) ((Position.after ⟨n, 1⟩ "#pragma".toList).after [' ']) =
      ⟨.identifier, name, file, n, 9⟩ := by
    rw [← hcs, ← Position.after_append, make_after file _ _ n (ne_newline_of_all (by decide))]
    rfl
  have hhead : ∀ d ∈ "#pragma".toList ++ ' ' :: name.toList, d ≠ '\n' :=
    List.forall_mem_append.mpr ⟨ne_newline_of_all (by decide),
      List.forall_mem_cons.mpr ⟨by decide, ne_newline_of_isIdentifier hname⟩⟩
  have hpayload : make file kind text.toList
      ((Position.after ⟨n, 1⟩ "#pragma".toList).after (' ' :: c :: cs)) =
        ⟨kind, text, file, n, 9 + name.length⟩ := by
    rw [← hcs, ← Position.after_append, make_after file _ _ n hhead]
    refine congrArg (Token.mk kind text file n) ?_
    have hmark : "#pragma".toList.length = 7 := by decide
    rw [List.length_append, hmark, List.length_cons, String.length_toList]
    omega
  rw [hcs, directiveTokens_pragma, pragmaTokens_eq file _ hc hall, hvalue]
  dsimp only
  rw [hident, hpayload]
  refine congrArg (Prod.mk (payloadTokens file n name kind text)) ?_
  omega

include hbody

/-- The line of a pragma is cut into three tokens, and scanning goes on where the line ends. -/
theorem scanFrom_payload (n : Nat) :
    scanFrom file ⟨n, 1⟩ {} ("#pragma ".toList ++ (name.toList ++ '(' :: (body ++ tail))) =
      (do return payloadTokens file n name kind text ++
        (← scanFrom file ⟨n, 10 + name.length + body.length⟩ ⟨true, false⟩ tail)) := by
  -- The line without its mark.
  let line := "pragma".toList ++ ' ' :: (name.toList ++ '(' :: body)
  have htext : "#pragma ".toList ++ (name.toList ++ '(' :: (body ++ tail)) = '#' :: (line ++ tail) := by
    simp [line]
  have hlength : line.length = name.length + body.length + 8 := by
    simp [line, String.length_toList]
    omega
  have hline : ∀ c ∈ '#' :: line, c ≠ '\n' := by
    refine List.forall_mem_cons.mpr ⟨by decide, List.forall_mem_append.mpr
      ⟨ne_newline_of_all (by decide), List.forall_mem_cons.mpr ⟨by decide, List.forall_mem_append.mpr
        ⟨ne_newline_of_isIdentifier hname, List.forall_mem_cons.mpr ⟨by decide, hbody⟩⟩⟩⟩⟩
  have hafter : Position.after ⟨n, 1⟩ ('#' :: line) = ⟨n, 10 + name.length + body.length⟩ := by
    rw [Position.after_eq hline, List.length_cons, hlength]
    have hcolumn : 1 + (name.length + body.length + 8 + 1) = 10 + name.length + body.length := by omega
    exact congrArg (Position.mk n) hcolumn
  have htokens : directiveTokens file ⟨n, 1⟩ (line ++ tail) =
      (payloadTokens file n name kind text, line.length) := by
    rw [hlength, ← directiveTokens_payload hname hvalue n]
    simp [line]
  rw [htext, scanFrom, if_neg (by decide), if_neg (by decide), if_neg (by simp), if_neg (by simp),
    if_pos (by simp), htokens]
  dsimp only
  rw [List.take_left, List.drop_left, hafter]

end Payload

/-- The end of the line of a directive is a token of its own. -/
theorem scanFrom_lineEnd (file : String) (p : Position) (rest : List Char) :
    scanFrom file p ⟨true, false⟩ ('\n' :: rest) =
      (do return make file .newline ['\n'] p :: (← scanFrom file ⟨p.line + 1, 1⟩ {} rest)) := by
  rw [scanFrom, if_pos rfl]
  rfl

/-! ## Settings -/

/-- The name of a setting and its value, as a pragma line has them. -/
structure IsSetting (name value : String) : Prop where
  name : isIdentifier name = true
  plain : value.toList.all isPlain = true
  trimmed : Text.trim value = value

instance (name value : String) : Decidable (IsSetting name value) :=
  decidable_of_iff (isIdentifier name = true ∧ value.toList.all isPlain = true ∧ Text.trim value = value)
    ⟨fun h => ⟨h.1, h.2.1, h.2.2⟩, fun h => ⟨h.name, h.plain, h.trimmed⟩⟩

/-- A pragma line is cut into its four tokens, and scanning goes on below it. -/
theorem IsSetting.scanFrom_pragmaLine {value : String} (h : IsSetting name value) (file : String) (n : Nat)
    (rest : List Char) :
    scanFrom file ⟨n, 1⟩ {} ((pragmaLine name value).toList ++ rest) =
      (do return lineTokens file n name value ++ (← scanFrom file ⟨n + 1, 1⟩ {} rest)) := by
  have htrim : Text.trimChars value.toList = value.toList := by
    simpa [Text.trim] using congrArg String.toList h.trimmed
  have hvalue (p : Position) : pragmaValue file p ('(' :: (value.toList ++ [')'] ++ '\n' :: rest)) =
      ([make file .blob value.toList p], (value.toList ++ [')']).length + 1) := by
    simp [pragmaValue, valueLength_plain h.plain, htrim]
  have hbody : ∀ c ∈ value.toList ++ [')'], c ≠ '\n' := by
    refine List.forall_mem_append.mpr ⟨?_, ne_newline_of_all rfl⟩
    rintro d hd rfl
    exact absurd (List.all_eq_true.mp h.plain _ hd) (by decide)
  have hline := scanFrom_payload h.name hbody hvalue n
  have hcolumn : 10 + name.length + (value.toList ++ [')']).length = 11 + name.length + value.length := by
    simp [String.length_toList]
    omega
  rw [scanFrom_lineEnd, hcolumn] at hline
  have htext : (pragmaLine name value).toList ++ rest =
      "#pragma ".toList ++ (name.toList ++ '(' :: (value.toList ++ [')'] ++ '\n' :: rest)) := by
    simp [pragmaLine]
  rw [htext, hline]
  cases scanFrom file ⟨n + 1, 1⟩ {} rest <;> rfl

/-! ## Several lines -/

def pragmaLines (es : List (String × String)) : String := String.join (es.map fun e => pragmaLine e.1 e.2)

def linesTokens (file : String) (n : Nat) : List (String × String) → List Token
  | [] => []
  | e :: es => lineTokens file n e.1 e.2 ++ linesTokens file (n + 1) es

theorem scanFrom_pragmaLines (file : String) {es : List (String × String)}
    (h : ∀ e ∈ es, IsSetting e.1 e.2) (n : Nat) (rest : List Char) :
    scanFrom file ⟨n, 1⟩ {} ((pragmaLines es).toList ++ rest) =
      (do return linesTokens file n es ++ (← scanFrom file ⟨n + es.length, 1⟩ {} rest)) := by
  induction es generalizing n with
  | nil =>
    show scanFrom file ⟨n, 1⟩ {} rest = _
    cases scanFrom file ⟨n, 1⟩ {} rest <;> rfl
  | cons e es ih =>
    have htext : (pragmaLines (e :: es)).toList ++ rest =
        (pragmaLine e.1 e.2).toList ++ ((pragmaLines es).toList ++ rest) := by
      simp [pragmaLines]
    rw [htext, (h e List.mem_cons_self).scanFrom_pragmaLine,
      ih fun d hd => h d (List.mem_cons_of_mem e hd)]
    have hline : n + 1 + es.length = n + (e :: es).length := by
      rw [List.length_cons]
      omega
    rw [hline]
    cases scanFrom file ⟨n + (e :: es).length, 1⟩ {} rest with
    | error p => rfl
    | ok ts => exact congrArg Except.ok (List.append_assoc _ _ _).symm

theorem scanFrom_of_scan (h : scan file source = .ok ts) :
    scanFrom file .start {} source.toList = .ok ts := by
  unfold scan at h
  split at h
  · next ts' hts' => rw [hts', Except.ok.inj h]
  · cases h

theorem scan_of_scanFrom (h : scanFrom file .start {} source.toList = .ok ts) :
    scan file source = .ok ts := by
  rw [scan, h]

/-- What is cut from a text is cut from it further down. -/
theorem scanFrom_below (h : scan file source = .ok ts) (k : Nat) :
    scanFrom file ⟨1 + k, 1⟩ {} source.toList = .ok (ts.map (down k)) := by
  have hdown := scanFrom_down (k := k) file .start {} source.toList
  rw [scanFrom_of_scan h] at hdown
  exact hdown

/-- Lines in front of a text add their tokens and move those of the text. -/
theorem scan_pragmaLines {es : List (String × String)} (h : ∀ e ∈ es, IsSetting e.1 e.2)
    (hscan : scan file source = .ok ts) :
    scan file (pragmaLines es ++ source) = .ok (linesTokens file 1 es ++ ts.map (down es.length)) := by
  have hall := scanFrom_pragmaLines file h 1 source.toList
  rw [scanFrom_below hscan] at hall
  apply scan_of_scanFrom
  rw [String.toList_append]
  exact hall

end RecordView.Token
