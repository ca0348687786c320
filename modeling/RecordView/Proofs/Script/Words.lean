import RecordView.Proofs.Script.BitCode
import RecordView.Script

/-! Which words stand in the text of a class: the names of the helper classes and of the host variable
stand there only if an accessor needs them, or if the description itself brings them in. -/
namespace RecordView.Script

/-! ## Words -/

/-- Whether a character cannot be part of a name or number. -/
def separates (c : Char) : Bool := !(c.isAlphanum || c == '_' || c == '$')

def words (text : String) : List (List Char) := text.toList.splitOnP separates

/-- A name stands in a text, and not only as a part of a longer one. -/
def Mentions (text name : String) : Prop := name.toList ∈ words text

def startsApart (cs : List Char) : Bool := cs.head?.all separates

def endsApart (cs : List Char) : Bool := cs.getLast?.all separates

variable {w x y : String} {cs : List Char}

theorem mentions_append_of_starts (h : startsApart y.toList = true) (hw : w ≠ "") :
    Mentions (x ++ y) w ↔ Mentions x w ∨ Mentions y w := by
  have hne : w.toList ≠ [] := by simpa using hw
  unfold startsApart at h
  unfold Mentions words
  rw [String.toList_append]
  cases hy : y.toList with
  | nil => simp [hne]
  | cons c cs =>
    have hc : separates c = true := by simpa [hy] using h
    have hfirst : List.splitOnP separates (c :: cs) = [] :: List.splitOnP separates cs :=
      List.splitOnP_append_cons [] cs hc
    rw [List.splitOnP_append_cons _ _ hc, hfirst]
    simp [hne]

theorem mentions_append_of_ends (h : endsApart x.toList = true) (hw : w ≠ "") :
    Mentions (x ++ y) w ↔ Mentions x w ∨ Mentions y w := by
  have hne : w.toList ≠ [] := by simpa using hw
  unfold endsApart at h
  unfold Mentions words
  rw [String.toList_append]
  rcases List.eq_nil_or_concat x.toList with hx | ⟨cs, c, hx⟩
  · simp [hx, hne]
  · rw [List.concat_eq_append] at hx
    have hc : separates c = true := by simpa [hx] using h
    have hlast : List.splitOnP separates (cs ++ [c]) = List.splitOnP separates cs ++ [[]] :=
      List.splitOnP_append_cons cs [] hc
    rw [hx, List.append_assoc, List.singleton_append, List.splitOnP_append_cons _ _ hc, hlast]
    simp [hne]

/-- A word has no other characters than the text. -/
theorem mem_of_mentions (h : Mentions x w) {c : Char} (hc : c ∈ w.toList) : c ∈ x.toList := by
  unfold Mentions words at h
  generalize w.toList = word at h hc
  generalize x.toList = text at h ⊢
  induction text generalizing word with
  | nil =>
    obtain rfl : word = [] := by simpa using h
    exact hc
  | cons d text ih =>
    rw [List.splitOnP_cons_eq_if_modifyHead] at h
    split at h
    · rcases List.mem_cons.mp h with rfl | h
      · cases hc
      · exact List.mem_cons_of_mem _ (ih word hc h)
    · obtain ⟨first, rest, heq⟩ := List.exists_cons_of_ne_nil (List.splitOnP_ne_nil separates text)
      rw [heq, List.modifyHead_cons] at h
      rcases List.mem_cons.mp h with rfl | h
      · rcases List.mem_cons.mp hc with rfl | hc
        · exact List.mem_cons_self
        · exact List.mem_cons_of_mem _ (ih first hc (heq ▸ List.mem_cons_self))
      · exact List.mem_cons_of_mem _ (ih word hc (heq ▸ List.mem_cons_of_mem _ h))

/-! ## The names at the top -/

/-- The names that a script declares at its top. -/
def topNames : List String := Helper.all.map Helper.name ++ [hostVariable]

theorem topNames_eq : topNames = ["EndianArray", "StructArray", "hostLittleEndian"] := rfl

def topChars : List (List Char) :=
  [['E', 'n', 'd', 'i', 'a', 'n', 'A', 'r', 'r', 'a', 'y'],
   ['S', 't', 'r', 'u', 'c', 't', 'A', 'r', 'r', 'a', 'y'],
   ['h', 'o', 's', 't', 'L', 'i', 't', 't', 'l', 'e', 'E', 'n', 'd', 'i', 'a', 'n']]

theorem toList_mem_topChars (hw : w ∈ topNames) : w.toList ∈ topChars := by
  rw [topNames_eq] at hw
  have h : ∀ cs ∈ topChars, (String.ofList cs).toList ∈ topChars := fun cs hcs => by
    rwa [String.toList_ofList]
  rcases List.mem_cons.mp hw with rfl | hw
  · exact h ['E', 'n', 'd', 'i', 'a', 'n', 'A', 'r', 'r', 'a', 'y'] (by decide)
  rcases List.mem_cons.mp hw with rfl | hw
  · exact h ['S', 't', 'r', 'u', 'c', 't', 'A', 'r', 'r', 'a', 'y'] (by decide)
  · obtain rfl := List.mem_singleton.mp hw
    exact h ['h', 'o', 's', 't', 'L', 'i', 't', 't', 'l', 'e', 'E', 'n', 'd', 'i', 'a', 'n'] (by decide)

theorem ne_empty_of_top (hw : w ∈ topNames) : w ≠ "" := by
  rintro rfl
  exact absurd (toList_mem_topChars hw) (by decide)

/-- The text does not mention the name, which is one of those at the top. -/
structure Omits (w text : String) : Prop where
  top : w ∈ topNames
  omits : ¬ Mentions text w

/-- A text that omits the name, and after which a new word starts. -/
structure Stem (w text : String) : Prop extends Omits w text where
  ends : endsApart text.toList = true

/-- Whether a text has none of the names at the top. -/
def plain (cs : List Char) : Bool := (cs.splitOnP separates).all (!topChars.contains ·)

/-- Whether a text without these names can stand before a name, after one, and between two. -/
def precedes (cs : List Char) : Bool := plain cs && endsApart cs

def follows (cs : List Char) : Bool := plain cs && startsApart cs

def divides (cs : List Char) : Bool := plain cs && startsApart cs && cs.getLast?.any separates

theorem omits_fixed (hw : w ∈ topNames) (h : plain cs = true) : Omits w (String.ofList cs) := by
  refine ⟨hw, fun hm => ?_⟩
  unfold Mentions words at hm
  rw [String.toList_ofList] at hm
  have hall := List.all_eq_true.mp h _ hm
  simp [toList_mem_topChars hw] at hall

theorem words_top (hw : w ∈ topNames) : words w = [w.toList] := by
  have hword : ∀ cs ∈ topChars, cs.splitOnP separates = [cs] := by decide
  exact hword _ (toList_mem_topChars hw)

/-- The names at the top are different words. -/
theorem omits_top (hw : w ∈ topNames) (hx : x ∈ topNames) (hne : x ≠ w) : Omits w x := by
  refine ⟨hw, fun h => hne ?_⟩
  unfold Mentions at h
  rw [words_top hx, List.mem_singleton] at h
  exact (String.toList_injective h).symm

theorem mentions_top (hw : w ∈ topNames) : Mentions w w := by
  unfold Mentions
  rw [words_top hw]
  exact List.mem_singleton_self _

/-- A word stays one before a text that starts apart. -/
theorem Mentions.fixed (hx : Mentions x w) (hw : w ∈ topNames) (h : startsApart cs = true) :
    Mentions (x ++ String.ofList cs) w :=
  (mentions_append_of_starts (by rwa [String.toList_ofList]) (ne_empty_of_top hw)).mpr (.inl hx)

/-- A word stays one before a text that starts apart, and whatever follows that. -/
theorem Mentions.between (hx : Mentions x w) (hw : w ∈ topNames)
    (h : (startsApart cs && cs.getLast?.any separates) = true) (y : String) :
    Mentions (x ++ String.ofList cs ++ y) w := by
  obtain ⟨hstarts, hends⟩ := Bool.and_eq_true_iff.mp h
  refine (mentions_append_of_ends ?_ (ne_empty_of_top hw)).mpr (.inl (hx.fixed hw hstarts))
  cases hc : cs.getLast? with
  | none => simp [hc] at hends
  | some c => simpa [endsApart, List.getLast?_append, hc] using hends

/-- A text with which a line starts. -/
theorem stem_fixed (hw : w ∈ topNames) (h : precedes cs = true) : Stem w (String.ofList cs) := by
  obtain ⟨hplain, hends⟩ := Bool.and_eq_true_iff.mp h
  exact ⟨omits_fixed hw hplain, by rwa [String.toList_ofList]⟩

/-- A name that is written after a text. -/
theorem Stem.append (hx : Stem w x) (hy : Omits w y) : Omits w (x ++ y) := by
  refine ⟨hx.top, ?_⟩
  rw [mentions_append_of_ends hx.ends (ne_empty_of_top hx.top)]
  exact not_or.mpr ⟨hx.omits, hy.omits⟩

/-- A text that is written after a name. -/
theorem Omits.fixed (hx : Omits w x) (h : follows cs = true) : Omits w (x ++ String.ofList cs) := by
  obtain ⟨hplain, hstarts⟩ := Bool.and_eq_true_iff.mp h
  refine ⟨hx.top, ?_⟩
  rw [mentions_append_of_starts (by rwa [String.toList_ofList]) (ne_empty_of_top hx.top)]
  exact not_or.mpr ⟨hx.omits, (omits_fixed hx.top hplain).omits⟩

theorem stem_append (hxy : Omits w (x ++ String.ofList cs)) (he : cs.getLast?.any separates = true) :
    Stem w (x ++ String.ofList cs) := by
  refine ⟨hxy, ?_⟩
  cases hc : cs.getLast? with
  | none => simp [hc] at he
  | some c => simpa [endsApart, List.getLast?_append, hc] using he

/-- A text that is written between two names. -/
theorem Omits.between (hx : Omits w x) (hy : Omits w y) (h : divides cs = true) :
    Omits w (x ++ String.ofList cs ++ y) := by
  obtain ⟨hfollows, hends⟩ := Bool.and_eq_true_iff.mp h
  exact (stem_append (hx.fixed hfollows) hends).append hy

/-- A text that is written after another one. -/
theorem Stem.fixed (hx : Stem w x) (h : (plain cs && cs.getLast?.any separates) = true) :
    Stem w (x ++ String.ofList cs) := by
  obtain ⟨hplain, hends⟩ := Bool.and_eq_true_iff.mp h
  exact stem_append (hx.append (omits_fixed hx.top hplain)) hends

/-- A text that omits the name, after a fixed text. -/
theorem Omits.after (hx : Omits w x) (h : precedes cs = true) :
    Omits w (String.ofList cs ++ x) := (stem_fixed hx.top h).append hx

/-- A text that omits the name, between two fixed texts. -/
theorem Omits.within (hx : Omits w x) {ds : List Char} (h : precedes cs = true) (h' : follows ds = true) :
    Omits w (String.ofList cs ++ x ++ String.ofList ds) :=
  (hx.after h).fixed h'

/-- A name that is made of two texts. -/
theorem omits_pair (hw : w ∈ topNames) {ds : List Char} (h : plain (cs ++ ds) = true) :
    Omits w (String.ofList cs ++ String.ofList ds) := by
  rw [← String.ofList_append]
  exact omits_fixed hw h

/-- A text of other characters has no name of the top. -/
theorem omits_of_forall {p : Char → Bool} (htop : topChars.all (·.any (!p ·)) = true) (hw : w ∈ topNames)
    (hx : ∀ c ∈ x.toList, p c = true) : Omits w x := by
  obtain ⟨c, hc, hnot⟩ := List.any_eq_true.mp (List.all_eq_true.mp htop _ (toList_mem_topChars hw))
  refine ⟨hw, fun h => ?_⟩
  rw [hx c (mem_of_mentions h hc)] at hnot
  cases hnot

/-- A number is no name. -/
theorem omits_digits (hw : w ∈ topNames)
    (hx : ∀ c ∈ x.toList, Text.digitValue c < 16 ∨ c = 'x') : Omits w x :=
  omits_of_forall (p := fun c => Text.digitValue c < 16 || c == 'x') (by decide) hw
    fun c hc => by simpa using hx c hc

/-- A text whose words have been made illegible. -/
def mask (text : String) : String := String.ofList (text.toList.map fun c => if separates c then c else 'x')

theorem omits_mask (hw : w ∈ topNames) (text : String) : Omits w (mask text) := by
  refine omits_of_forall (p := fun c => separates c || c == 'x') (by decide) hw fun c hc => ?_
  rw [mask, String.toList_ofList] at hc
  obtain ⟨d, -, rfl⟩ := List.mem_map.mp hc
  split
  · next hd => simp [hd]
  · rfl

theorem omits_number (hw : w ∈ topNames) (n : Nat) : Omits w (toString n) := by
  refine omits_digits hw fun c hc => ?_
  have hdigits := (Text.numeralFrom_toDigits (b := 10) (f := id) (by decide) (by decide) n).2
  rw [Nat.toString_eq_ofList_toDigits, String.toList_ofList] at hc
  have hlt := hdigits c (by simpa using hc)
  omega

theorem omits_hex (hw : w ∈ topNames) (n : Nat) : Omits w ("0x" ++ Text.hexUpper n) := by
  refine omits_digits hw fun c hc => ?_
  have hdigits := (Text.numeralFrom_toDigits (b := 16) (f := Char.toUpper) (by decide) (by decide) n).2
  rw [String.toList_append, List.mem_append] at hc
  rcases hc with hc | hc
  · have hmark : c = '0' ∨ c = 'x' := by simpa using hc
    rcases hmark with rfl | rfl
    · exact .inl (by decide)
    · exact .inr rfl
  · rw [Text.hexUpper, String.toList_ofList] at hc
    exact .inl (hdigits c hc)

/-! ## Lines -/

def Silent (w : String) (ls : List String) : Prop := ∀ l ∈ ls, Omits w l

variable {ls ls' : List String}

theorem silent_nil : Silent w [] := fun _ h => absurd h List.not_mem_nil

theorem Silent.cons (hx : Omits w x) (h : Silent w ls) : Silent w (x :: ls) :=
  List.forall_mem_cons.mpr ⟨hx, h⟩

theorem Silent.append (h : Silent w ls) (h' : Silent w ls') : Silent w (ls ++ ls') :=
  List.forall_mem_append.mpr ⟨h, h'⟩

theorem silent_line (hx : Omits w x) : Silent w [x] := silent_nil.cons hx

theorem Silent.indent (h : Silent w ls) : Silent w (indent ls) := by
  intro l hl
  obtain ⟨l', hl', rfl⟩ := List.mem_map.mp hl
  exact (h l' hl').after (by rfl)

theorem Silent.braced {head tail : String} (h : Silent w ls) (hhead : Omits w head)
    (htail : Omits w tail) : Silent w (braced head ls tail) := by
  refine .cons (hhead.fixed ?_) (.append h.indent (silent_line ?_))
  · rfl
  · exact htail.after (by rfl)

theorem omits_empty (hw : w ∈ topNames) : Omits w "" := omits_fixed hw (by rfl)

theorem omits_typeClause (language : Language) (hx : Omits w x) (hy : Omits w y) :
    Omits w (x ++ typeClause language y) := by
  unfold typeClause
  split
  · rwa [String.append_empty]
  split
  · rwa [String.append_empty]
  · rw [← String.append_assoc]
    exact hx.between hy (by rfl)

/-! ## Accessors -/

/-- The names in an accessor that come from the description: that of the field, and that of its enum
or class. -/
def Accessor.given (a : Accessor) : List String :=
  a.name ::
    match a.shape with
    | .number _ element | .nativeArray _ _ element | .orderedArray _ _ element => [element]
    | .view t | .viewArray t _ => [t.name]
    | _ => []

/-- The reference to a type whose name is masked. -/
def maskRef (t : TypeRef) : TypeRef := { t with name := mask t.name }

/-- The accessor with these names masked. -/
def Accessor.mask (a : Accessor) : Accessor :=
  { a with
    name := Script.mask a.name
    shape :=
      match a.shape with
      | .number p element => .number p (Script.mask element)
      | .nativeArray p count element => .nativeArray p count (Script.mask element)
      | .orderedArray p count element => .orderedArray p count (Script.mask element)
      | .view t => .view (maskRef t)
      | .viewArray t count => .viewArray (maskRef t) count
      | shape => shape }

theorem BitCode.omits_text (hx : Omits w x) (code : BitCode) : Omits w (code.text x) := by
  have hw := hx.top
  induction code with
  | word => exact hx
  | temp => exact omits_fixed hw (by rfl)
  | value => exact omits_fixed hw (by rfl)
  | decimal n => exact omits_number hw n
  | hex n => exact omits_hex hw n
  | and a b ha hb => exact ha.between hb (by rfl)
  | or a b ha hb => exact ha.between hb (by rfl)
  | shiftLeft a n ha => exact ha.between (omits_number hw n) (by rfl)
  | shiftRight a n ha => exact ha.between (omits_number hw n) (by rfl)
  | paren a ha => exact ha.within (by rfl) (by rfl)
  | boolean a ha => exact ha.within (by rfl) (by rfl)
  | choose c a b hc ha hb => exact (hc.between ha (by rfl)).between hb (by rfl)

namespace Accessor

variable {a : Accessor}

/-- The accessor refers to this name at the top. -/
def Needs (a : Accessor) (w : String) : Prop :=
  (∃ h, a.helper? = some h ∧ h.name = w) ∨ (a.probesHost = true ∧ hostVariable = w)

/-- What an accessor refers to does not depend on the names. -/
theorem needs_mask : a.mask.Needs w ↔ a.Needs w := by
  have hhelper : a.mask.helper? = a.helper? := by
    unfold mask helper?
    cases a.shape <;> rfl
  have hwidth : a.mask.width = a.width := by
    unfold mask width
    cases a.shape <;> rfl
  have horder : a.mask.order = a.order := rfl
  rw [Needs, Needs, hhelper, probesHost, probesHost, hwidth, horder]

theorem omits_given_mask (hw : w ∈ topNames) : ∀ x ∈ a.mask.given, Omits w x := by
  have hgiven : a.mask.given = a.given.map Script.mask := by
    unfold given mask
    cases a.shape <;> rfl
  rw [hgiven]
  intro x hx
  obtain ⟨y, -, rfl⟩ := List.mem_map.mp hx
  exact omits_mask hw y

/-- The names of numeric types, and the methods and arrays that are named after them. -/
theorem omits_primitive (hw : w ∈ topNames) (p : Primitive) :
    Omits w ("this.get" ++ p.name) ∧ Omits w ("this.set" ++ p.name) ∧ Omits w p.arrayType ∧
      Omits w p.name ∧ Omits w p.valueType := by
  cases p <;>
    refine ⟨omits_pair hw ?_, omits_pair hw ?_, omits_pair hw ?_, omits_fixed hw ?_, omits_fixed hw ?_⟩ <;>
      rfl

theorem omits_argument (h : ¬ a.Needs w) (hx : Omits w x) : Omits w (x ++ a.orderArgument) := by
  unfold orderArgument
  split
  · rwa [String.append_empty]
  · rename_i hwidth
    rw [← String.append_assoc]
    refine hx.between ?_ (by rfl)
    cases ho : a.order with
    | little => exact omits_fixed hx.top (by rfl)
    | big => exact omits_fixed hx.top (by rfl)
    | host =>
      refine omits_top hx.top (by decide) fun hhost => h (.inr ⟨?_, hhost⟩)
      simp [probesHost, ho, hwidth]

theorem omits_bufferOffset (hw : w ∈ topNames) : Omits w a.bufferOffset := by
  unfold bufferOffset
  split
  · exact omits_fixed hw (by rfl)
  · exact (omits_number hw _).after (by rfl)

theorem omits_readCall (hw : w ∈ topNames) (h : ¬ a.Needs w) (p : Primitive) :
    Omits w (a.readCall p) := by
  have hname := (omits_primitive hw p).1
  exact (omits_argument h (hname.between (omits_number hw _) (by rfl))).fixed (by rfl)

theorem omits_writeCall (h : ¬ a.Needs w) (p : Primitive) (hx : Omits w x) :
    Omits w (a.writeCall p x) := by
  have hname := (omits_primitive hx.top p).2.1
  have hnumber := omits_number hx.top a.offset
  exact (omits_argument h ((hname.between hnumber (by rfl)).between hx (by rfl))).fixed (by rfl)

theorem omits_generic (language : Language) {h : Helper} (hne : h.name ≠ w) (hx : Omits w x) :
    Omits w (generic language h.name x) := by
  have hname : Omits w h.name := omits_top hx.top (by cases h <;> decide) hne
  unfold generic
  split
  · exact hname
  · exact (hname.between hx (by rfl)).fixed (by rfl)

theorem omits_getType (hw : w ∈ topNames) (h : ¬ a.Needs w) (hgiven : ∀ n ∈ a.given, Omits w n) :
    Omits w a.getType := by
  unfold Needs helper? at h
  unfold given at hgiven
  unfold getType
  cases hshape : a.shape with
  | number p element => exact hgiven element (by simp [hshape])
  | nativeArray p count element => exact (omits_primitive hw p).2.2.1
  | orderedArray p count element =>
    refine omits_generic _ (fun hn => h (.inl ⟨.numbers, by rw [hshape], hn⟩)) ?_
    exact (omits_primitive hw p).2.2.2.2
  | character => exact omits_fixed hw (by rfl)
  | text count platform => exact omits_fixed hw (by rfl)
  | bits size b =>
    dsimp only
    split
    · exact omits_fixed hw (by rfl)
    · exact omits_fixed hw (by rfl)
  | view t => exact hgiven t.name (by simp [hshape])
  | viewArray t count =>
    refine omits_generic _ (fun hn => h (.inl ⟨.records, by rw [hshape], hn⟩)) ?_
    exact hgiven t.name (by simp [hshape])
  | bytesTail p => exact (omits_primitive hw p).2.2.1

theorem omits_setType (hw : w ∈ topNames) (hgiven : ∀ n ∈ a.given, Omits w n) : Omits w a.setType := by
  have hlike {x : String} (hx : Omits w x) : Omits w ("ArrayLike<" ++ x ++ ">") :=
    hx.within (by rfl) (by rfl)
  unfold given at hgiven
  unfold setType
  cases hshape : a.shape with
  | number p element => exact hgiven element (by simp [hshape])
  | nativeArray p count element => exact hlike (hgiven element (by simp [hshape]))
  | orderedArray p count element => exact hlike (hgiven element (by simp [hshape]))
  | character => exact omits_fixed hw (by rfl)
  | text count platform => exact omits_fixed hw (by rfl)
  | bits size b =>
    dsimp only
    split
    · exact omits_fixed hw (by rfl)
    · exact omits_fixed hw (by rfl)
  | view t => exact hgiven t.name (by simp [hshape])
  | viewArray t count => exact hlike (hgiven t.name (by simp [hshape]))
  | bytesTail p => exact omits_fixed hw (by rfl)

theorem omits_textBytes (hw : w ∈ topNames) (count : Nat) : Omits w (a.textBytes count) := by
  have hplace : Omits w a.bufferOffset := omits_bufferOffset hw
  refine ((hplace.after ?_).between (omits_number hw count) ?_).fixed ?_ <;> rfl

theorem omits_tailBytes (hw : w ∈ topNames) (p : Primitive) : Omits w (a.tailBytes p) := by
  have hp := (omits_primitive hw p).2.2.1
  have hplace : Omits w a.bufferOffset := omits_bufferOffset hw
  have hnumber := omits_number hw a.offset
  refine (((hp.after ?_).between hplace ?_).between hnumber ?_).fixed ?_ <;> rfl

theorem silent_getBody (hw : w ∈ topNames) (h : ¬ a.Needs w) (hgiven : ∀ n ∈ a.given, Omits w n) :
    Silent w a.getBody := by
  have hplace : Omits w a.bufferOffset := omits_bufferOffset hw
  have htype : Omits w a.getType := omits_getType hw h hgiven
  have hnumber := omits_number hw
  -- a line that returns something
  have hreturn {x : String} (hx : Omits w x) : Silent w ["return " ++ x ++ ";"] :=
    silent_line (hx.within (by rfl) (by rfl))
  unfold given at hgiven
  unfold getBody
  cases hshape : a.shape with
  | number p element => exact hreturn (omits_readCall hw h p)
  | nativeArray p count element =>
    have hp := (omits_primitive hw p).2.2.1
    refine silent_line (.fixed (.between ((hp.after ?_).between hplace ?_)
      (hnumber count) ?_) ?_) <;> rfl
  | orderedArray p count element =>
    have hp := (omits_primitive hw p).2.2.2.1
    refine silent_line (.fixed (omits_argument h (.between (.between (.between (.between ?_
      (hnumber a.offset) ?_) (hnumber count) ?_) hp ?_) (hnumber p.bytes) ?_)) ?_)
    · exact htype.after (by rfl)
    all_goals rfl
  | character => exact silent_line ((hnumber _).within (by rfl) (by rfl))
  | text count platform =>
    have hdecoded : Omits w (decoded platform) := by cases platform <;> exact omits_fixed hw (by rfl)
    refine .cons ?_ (.cons (omits_fixed hw (by rfl)) (.cons (omits_fixed hw (by rfl)) (.cons ?_
      (hreturn hdecoded))))
    · exact (omits_textBytes hw count).within (by rfl) (by rfl)
    · exact (((stem_fixed hw (by rfl)).fixed (by rfl)).append (hnumber count)).fixed (by rfl)
  | bits size b => exact hreturn (BitCode.omits_text (omits_readCall hw h size.type) (access b).get)
  | view t =>
    have ht := hgiven t.name (by simp [hshape])
    refine silent_line (.fixed ((ht.after ?_).between hplace ?_) ?_) <;> rfl
  | viewArray t count =>
    have ht := hgiven t.name (by simp [hshape])
    refine silent_line (.fixed (.between (.between (.between (.between ?_ (hnumber a.offset) ?_)
      (hnumber count) ?_) ht ?_) (hnumber t.alignedLength) ?_) ?_)
    · exact htype.after (by rfl)
    all_goals rfl
  | bytesTail p => exact hreturn (omits_tailBytes hw p)

theorem silent_elementLoop (hw : w ∈ topNames) (h : ¬ a.Needs w) (p : Primitive) (count : Nat) :
    Silent w (a.elementLoop p count) := by
  have hnumber := omits_number hw
  refine .cons ?_ (silent_line ?_)
  · refine ((((stem_fixed hw ?_).append (hnumber a.offset)).between (hnumber count) ?_).between
      (hnumber p.bytes) ?_).fixed ?_ <;> rfl
  · have hname : Omits w (tab ++ "this.set" ++ p.name) := by
      rw [String.append_assoc]
      exact (omits_primitive hw p).2.1.after (by rfl)
    exact (omits_argument h (hname.fixed (by rfl))).fixed (by rfl)

theorem silent_setBody (hw : w ∈ topNames) (h : ¬ a.Needs w) (hgiven : ∀ n ∈ a.given, Omits w n) :
    Silent w a.setBody := by
  have hnumber := omits_number hw
  have hname : Omits w a.name := hgiven a.name List.mem_cons_self
  unfold setBody
  cases hshape : a.shape with
  | number p element => exact silent_line (omits_writeCall h p (omits_fixed hw (by rfl)))
  | nativeArray p count element => exact silent_elementLoop hw h p count
  | orderedArray p count element => exact silent_elementLoop hw h p count
  | character => exact silent_line ((hnumber _).within (by rfl) (by rfl))
  | text count platform =>
    have hencoded : Omits w (encoded platform) := by cases platform <;> exact omits_fixed hw (by rfl)
    refine .cons ?_ (.cons ?_ (.cons ?_ (.cons ?_ (.cons (omits_fixed hw (by rfl))
      (silent_line (omits_fixed hw (by rfl)))))))
    · exact hencoded.within (by rfl) (by rfl)
    · exact (hnumber count).within (by rfl) (by rfl)
    · exact omits_pair hw (by rfl)
    · exact (omits_textBytes hw count).within (by rfl) (by rfl)
  | bits size b =>
    have hword := omits_readCall hw h size.type
    refine .append ?_ (silent_line (omits_writeCall h _ (BitCode.omits_text hword _)))
    intro l hl
    obtain ⟨code, -, rfl⟩ := List.mem_map.mp hl
    exact (BitCode.omits_text hword code).within (by rfl) (by rfl)
  | view t =>
    refine .cons ?_ (silent_line ?_)
    · exact (hnumber _).within (by rfl) (by rfl)
    · exact (((stem_fixed hw (by rfl)).fixed (by rfl)).append (hnumber _)).fixed (by rfl)
  | viewArray t count =>
    refine .cons ?_ (.cons ?_ (silent_line (omits_pair hw (by rfl))))
    · exact hname.within (by rfl) (by rfl)
    · exact (hnumber count).within (by rfl) (by rfl)
  | bytesTail p =>
    refine .cons ?_ (.cons (omits_fixed hw (by rfl)) (.cons (omits_pair hw (by rfl))
      (silent_line (omits_fixed hw (by rfl)))))
    exact (omits_tailBytes hw p).within (by rfl) (by rfl)

/-- An accessor mentions a name of the top only if it needs it, or if a name that the description gives
mentions it. -/
theorem silent_lines (hw : w ∈ topNames) (h : ¬ a.Needs w) (hgiven : ∀ n ∈ a.given, Omits w n) :
    Silent w a.lines := by
  have hname : Omits w a.name := hgiven a.name List.mem_cons_self
  have hget : Silent w a.getter := by
    refine (silent_getBody hw h hgiven).braced ?_ (omits_empty hw)
    refine omits_typeClause _ ((hname.after ?_).fixed ?_) (omits_getType hw h hgiven) <;> rfl
  have hset : Silent w a.setter := by
    refine (silent_setBody hw h hgiven).braced (.fixed (omits_typeClause _ ?_ (omits_setType hw hgiven)) ?_)
      (omits_empty hw)
    · exact hname.within (by rfl) (by rfl)
    · rfl
  refine Silent.indent (.append ?_ ?_)
  · split
    · exact hget
    · exact silent_nil
  · split
    · exact hset
    · exact silent_nil

/-! What an accessor needs, the lines mention that are written for it: a helper class in the getter, and
the host variable in the setter. -/

theorem probesHost_iff : a.probesHost = true ↔ a.order = .host ∧ a.width ≠ 1 := by simp [probesHost]

/-- An access ends with the byte order. -/
theorem mentions_access (h : a.probesHost = true) (x : String) (hcs : startsApart cs = true) :
    Mentions (x ++ a.orderArgument ++ String.ofList cs) hostVariable := by
  obtain ⟨horder, hwidth⟩ := probesHost_iff.mp h
  have hargument : x ++ a.orderArgument = x ++ ", " ++ hostVariable := by
    rw [orderArgument, if_neg hwidth, horder, String.append_assoc]
    rfl
  rw [hargument]
  refine Mentions.fixed ?_ (by decide) hcs
  refine (mentions_append_of_ends ?_ (by decide)).mpr (.inr (mentions_top (by decide)))
  rw [String.toList_append, endsApart, List.getLast?_append]
  rfl

theorem mentions_setBody (h : a.probesHost = true) : ∃ l ∈ a.setBody, Mentions l hostVariable := by
  have hwidth := (probesHost_iff.mp h).2
  unfold width at hwidth
  unfold setBody
  cases hshape : a.shape with
  | number p element => exact ⟨_, List.mem_singleton_self _, mentions_access h _ (by rfl)⟩
  | nativeArray p count element =>
    exact ⟨_, List.mem_cons_of_mem _ (List.mem_singleton_self _), mentions_access h _ (by rfl)⟩
  | orderedArray p count element =>
    exact ⟨_, List.mem_cons_of_mem _ (List.mem_singleton_self _), mentions_access h _ (by rfl)⟩
  | bits size b =>
    exact ⟨_, List.mem_append_right _ (List.mem_singleton_self _), mentions_access h _ (by rfl)⟩
  | _ => simp [hshape] at hwidth

theorem mentions_generic (hw : w ∈ topNames) (language : Language) (argument : String) :
    Mentions ("return new " ++ generic language w argument) w := by
  refine (mentions_append_of_ends (by rfl) (ne_empty_of_top hw)).mpr (.inr ?_)
  unfold generic
  split
  · exact mentions_top hw
  · exact ((mentions_top hw).between hw (by rfl) argument).fixed hw (by rfl)

theorem startsApart_orderArgument (a : Accessor) : startsApart a.orderArgument.toList = true := by
  unfold orderArgument
  split
  · rfl
  · rw [String.toList_append]
    rfl

theorem mentions_getBody {h : Helper} (hh : a.helper? = some h) : ∃ l ∈ a.getBody, Mentions l h.name := by
  have hw : h.name ∈ topNames := by cases h <;> decide
  unfold helper? at hh
  unfold getBody getType
  cases hshape : a.shape with
  | orderedArray p count element =>
    rw [hshape] at hh
    cases hh
    have hnew := mentions_generic hw a.language p.valueType
    refine ⟨_, List.mem_singleton_self _, Mentions.fixed ?_ hw (by rfl)⟩
    refine (mentions_append_of_starts a.startsApart_orderArgument (ne_empty_of_top hw)).mpr (.inl ?_)
    refine .between (.between (.between (.between hnew hw ?_ _) hw ?_ _) hw ?_ _) hw ?_ _ <;> rfl
  | viewArray t count =>
    rw [hshape] at hh
    cases hh
    have hnew := mentions_generic hw a.language t.name
    refine ⟨_, List.mem_singleton_self _, Mentions.fixed ?_ hw (by rfl)⟩
    refine .between (.between (.between (.between hnew hw ?_ _) hw ?_ _) hw ?_ _) hw ?_ _ <;> rfl
  | _ => simp [hshape] at hh

/-- A line of the body of a getter or setter, in the lines of the accessor. -/
theorem mentions_lines_of_body (hw : w ∈ topNames) {head : String} {body : List String}
    (hsub : braced head body ⊆ (if a.readable then a.getter else []) ++ (if a.writable then a.setter else []))
    (h : ∃ l ∈ body, Mentions l w) : ∃ l ∈ a.lines, Mentions l w := by
  have htab {l : String} (hl : Mentions l w) : Mentions (tab ++ l) w :=
    (mentions_append_of_ends (by rfl) (ne_empty_of_top hw)).mpr (.inr hl)
  obtain ⟨l, hl, hm⟩ := h
  have hbraced : tab ++ l ∈ braced head body :=
    List.mem_cons_of_mem _ (List.mem_append_left _ (List.mem_map_of_mem hl))
  exact ⟨tab ++ (tab ++ l), List.mem_map_of_mem (hsub hbraced), htab (htab hm)⟩

/-- An accessor with a getter and a setter mentions what it needs. -/
theorem mentions_lines (h : a.Needs w) (hreadable : a.readable = true) (hwritable : a.writable = true) :
    ∃ l ∈ a.lines, Mentions l w := by
  have hgetter : a.getter ⊆ (if a.readable then a.getter else []) ++ (if a.writable then a.setter else []) := by
    rw [if_pos hreadable]
    exact List.subset_append_left _ _
  have hsetter : a.setter ⊆ (if a.readable then a.getter else []) ++ (if a.writable then a.setter else []) := by
    rw [if_pos hwritable]
    exact List.subset_append_right _ _
  rcases h with ⟨x, hx, rfl⟩ | ⟨hprobes, rfl⟩
  · exact mentions_lines_of_body (by cases x <;> decide) hgetter (mentions_getBody hx)
  · exact mentions_lines_of_body (by decide) hsetter (mentions_setBody hprobes)

end Accessor

/-! ## Classes -/

def maskKind : FieldKind → FieldKind
  | .number p count enum => .number p count (enum.map mask)
  | .nested t count => .nested (maskRef t) count
  | kind => kind

def maskField (f : Field) : Field := { f with name := mask f.name, kind := maskKind f.kind }

namespace JsonMethods

variable {m : JsonMethods} {f : Field}

def mask (m : JsonMethods) : JsonMethods :=
  { m with className := Script.mask m.className, fields := m.fields.map maskField }

theorem omits_written (hname : Omits w f.name) : Omits w (written f) := by
  unfold written
  split
  · exact hname.within (by rfl) (by rfl)
  · exact hname.within (by rfl) (by rfl)
  · exact hname.within (by rfl) (by rfl)
  · exact hname.within (by rfl) (by rfl)
  · exact hname.after (by rfl)

theorem omits_elementType (hw : w ∈ topNames) (p : Primitive) (enum : Option String) :
    Omits w (elementType p (enum.map Script.mask)) := by
  unfold elementType
  cases henum : (enum.map Script.mask).filter (!·.isEmpty) with
  | none => exact (Accessor.omits_primitive hw p).2.2.2.2
  | some x =>
    obtain ⟨y, -, rfl⟩ := Option.map_eq_some_iff.mp (Option.filter_eq_some_iff.mp henum).1
    exact omits_mask hw y

theorem omits_argumentType (hw : w ∈ topNames) (f : Field) : Omits w (argumentType (maskField f)) := by
  unfold argumentType maskField
  cases f.kind with
  | number p count enum =>
    have helement := omits_elementType hw p enum
    cases count with
    | none => exact helement
    | some n => exact helement.within (by rfl) (by rfl)
  | bits b =>
    dsimp only [maskKind]
    split
    · exact omits_fixed hw (by rfl)
    · exact omits_fixed hw (by rfl)
  | nested t count => cases count <;> exact omits_fixed hw (by rfl)
  | text count => exact omits_fixed hw (by rfl)
  | flexible p => exact omits_fixed hw (by rfl)
  | unresolved => exact omits_fixed hw (by rfl)

/-- Texts with a blank between each two of them. -/
theorem omits_intercalate (hw : w ∈ topNames) (h : Silent w ls) : Omits w (" ".intercalate ls) := by
  induction ls with
  | nil => exact omits_empty hw
  | cons x ls ih =>
    obtain ⟨hx, hrest⟩ := List.forall_mem_cons.mp h
    cases ls with
    | nil => rwa [String.intercalate_singleton]
    | cons y ls =>
      rw [String.intercalate_cons_cons]
      exact hx.between (ih hrest) (by rfl)

theorem omits_argument (hw : w ∈ topNames) : Omits w m.mask.argument := by
  have hmembers : Silent w (m.mask.assignable.map fun f => f.name ++ ": " ++ argumentType f ++ ";") := by
    intro l hl
    obtain ⟨f, hf, rfl⟩ := List.mem_map.mp hl
    obtain ⟨f, -, rfl⟩ := List.mem_map.mp (List.mem_filter.mp hf).1
    exact ((omits_mask hw f.name).between (omits_argumentType hw f) (by rfl)).fixed (by rfl)
  unfold argument
  split
  · exact omits_fixed hw (by rfl)
  dsimp only
  split
  · exact omits_fixed hw (by rfl)
  · exact (omits_intercalate hw hmembers).within (by rfl) (by rfl)

theorem omits_source (hclass : Omits w m.className) (hname : Omits w f.name) : Omits w (m.source f) := by
  unfold source
  split
  · exact (hclass.after (by rfl)).between hname (by rfl)
  · exact hname.after (by rfl)

theorem omits_read (hw : w ∈ topNames) (f : Field) : Omits w (m.mask.read (maskField f)) := by
  have hsource : Omits w (m.mask.source (maskField f)) :=
    omits_source (omits_mask hw m.className) (omits_mask hw f.name)
  unfold read
  rw [show (maskField f).kind = maskKind f.kind from rfl]
  cases f.kind with
  | nested t count =>
    have ht : Omits w (maskRef t).name := omits_mask hw t.name
    cases count with
    | none => exact (ht.between hsource (by rfl)).fixed (by rfl)
    | some n =>
      dsimp only
      cases m.mask.language <;>
        refine .fixed (.between (.between (hsource.after ?_) (omits_fixed hw ?_) ?_) ht ?_) ?_ <;>
        rfl
  | _ => exact hsource

theorem silent_lines (hw : w ∈ topNames) : Silent w m.mask.lines := by
  have hclass : Omits w m.mask.className := omits_mask hw m.className
  refine Silent.indent (.append ?_ ?_)
  · refine .braced (.braced ?_ (omits_fixed hw (by rfl)) (omits_fixed hw (by rfl))) ?_ (omits_empty hw)
    · intro l hl
      obtain ⟨f, hf, rfl⟩ := List.mem_map.mp hl
      obtain ⟨f, -, rfl⟩ := List.mem_map.mp hf
      have hname : Omits w (maskField f).name := omits_mask hw f.name
      exact (hname.between (omits_written hname) (by rfl)).fixed (by rfl)
    · exact omits_typeClause _ (omits_fixed hw (by rfl)) (omits_fixed hw (by rfl))
  · refine .braced (.append (.append (silent_line ?_) ?_) (silent_line (omits_fixed hw (by rfl)))) ?_
      (omits_empty hw)
    · exact hclass.within (by rfl) (by rfl)
    · intro l hl
      obtain ⟨f, hf, rfl⟩ := List.mem_map.mp hl
      obtain ⟨f, -, rfl⟩ := List.mem_map.mp (List.mem_filter.mp hf).1
      have hname : Omits w (maskField f).name := omits_mask hw f.name
      have hassigned : Omits w s!"result.{(maskField f).name} = {m.mask.read (maskField f)};" :=
        ((hname.after (by rfl)).between (omits_read hw f) (by rfl)).fixed (by rfl)
      unfold assignment
      dsimp only
      split
      · exact hassigned
      · exact (hname.after (by rfl)).between hassigned (by rfl)
    · unfold readerHead
      split
      · exact omits_fixed hw (by rfl)
      · exact ((omits_argument hw).after (by rfl)).between hclass (by rfl)

end JsonMethods

def Member.mask : Member → Member
  | .accessor a => .accessor a.mask
  | .verbatim text => .verbatim (Script.mask text)

namespace ClassDecl

variable {c : ClassDecl}

/-- The class with all names and texts masked that come from the description and the settings. What stands
legibly in its lines the script itself has brought in. -/
def mask (c : ClassDecl) : ClassDecl :=
  { c with
    name := Script.mask c.name
    parent := c.parent.map Script.mask
    root := Script.mask c.root
    interface := c.interface.map Script.mask
    members := c.members.map Member.mask
    json := c.json.map JsonMethods.mask }

theorem omits_head (hname : Omits w c.name) (hbase : Omits w (c.parent.getD c.root))
    (hinterface : ∀ i, c.interface = some i → Omits w i) : Omits w c.head := by
  have hw := hname.top
  unfold head
  dsimp only
  split
  · have hmark : Stem w ((if c.exported then "export " else "") ++ "class ") := by
      split
      · exact (stem_fixed hw (by rfl)).fixed (by rfl)
      · exact (stem_fixed hw (by rfl)).fixed (by rfl)
    exact (hmark.append hname).between hbase (by rfl)
  · have hclass : Omits w s!"class {c.name} extends {c.parent.getD c.root}" :=
      (hname.after (by rfl)).between hbase (by rfl)
    cases hi : c.interface with
    | none =>
      show Omits w (s!"class {c.name} extends {c.parent.getD c.root}" ++ "")
      rwa [String.append_empty]
    | some i =>
      show Omits w (s!"class {c.name} extends {c.parent.getD c.root}" ++ (" implements " ++ i))
      rw [← String.append_assoc]
      exact hclass.between (hinterface i hi) (by rfl)

theorem silent_constructorBody (hname : Omits w c.name) (hprobe : c.probed = true → w ≠ hostVariable) :
    Silent w c.constructorBody := by
  have hw := hname.top
  have hnumber := omits_number hw c.byteLength
  unfold constructorBody
  dsimp only
  refine .append (.append (.cons (omits_fixed hw (by rfl)) (.cons ?_ (.cons (omits_fixed hw (by rfl))
    (silent_line ?_)))) ?_) ?_
  · have hdefault : Omits w (if c.flexible then "(data.byteLength - (offset ?? 0))" else
        toString c.byteLength) := by
      split
      · exact omits_fixed hw (by rfl)
      · exact hnumber
    exact (((stem_fixed hw (by rfl)).fixed (by rfl)).append hdefault).fixed (by rfl)
  · have hfresh : Omits w (if c.parent.isSome then
        s!"new ArrayBuffer({c.byteLength}), 0, {c.byteLength}" else s!"new ArrayBuffer({c.byteLength})") := by
      split
      · exact (hnumber.after (by rfl)).between hnumber (by rfl)
      · exact hnumber.within (by rfl) (by rfl)
    exact (((stem_fixed hw (by rfl)).fixed (by rfl)).append hfresh).fixed (by rfl)
  · split
    · rename_i hprobed
      have hhost : Omits w hostVariable := omits_top hw (by decide) (hprobe hprobed).symm
      refine .cons ?_ (silent_line ?_)
      · exact hhost.within (by rfl) (by rfl)
      · exact hhost.within (by rfl) (by rfl)
    · exact silent_nil
  · split
    · refine .cons ?_ (silent_line ?_)
      · exact hnumber.within (by rfl) (by rfl)
      · exact ((((stem_fixed hw (by rfl)).fixed (by rfl)).append hname).between hnumber (by rfl)).fixed (by rfl)
    · exact silent_nil

/-- A class whose names are masked mentions a name of the top only if one of its accessors needs it, or if
it has the probe. -/
theorem silent_lines (hw : w ∈ topNames) (hneeds : ∀ a, .accessor a ∈ c.members → ¬ a.Needs w)
    (hprobe : c.probed = true → w ≠ hostVariable) : Silent w c.mask.lines := by
  have hmask := omits_mask hw
  have hname : Omits w c.mask.name := hmask c.name
  have hhead : Omits w c.mask.head := by
    refine omits_head hname ?_ fun i hi => ?_
    · show Omits w ((c.parent.map Script.mask).getD (Script.mask c.root))
      rw [Option.getD_map]
      exact hmask _
    · obtain ⟨j, -, rfl⟩ := Option.map_eq_some_iff.mp hi
      exact hmask j
  have hmembers : Silent w (c.mask.members.flatMap Member.lines) := by
    intro l hl
    obtain ⟨m, hm, hl⟩ := List.mem_flatMap.mp hl
    obtain ⟨m, hmem, rfl⟩ := List.mem_map.mp hm
    cases m with
    | accessor a =>
      have hnot : ¬ a.mask.Needs w := fun hn => hneeds a hmem (Accessor.needs_mask.mp hn)
      exact Accessor.silent_lines hw hnot (Accessor.omits_given_mask hw) l hl
    | verbatim text =>
      obtain rfl := List.mem_singleton.mp hl
      exact (hmask text).after (by rfl)
  have hjson : Silent w ((c.mask.json.map JsonMethods.lines).getD []) := by
    show Silent w (((c.json.map JsonMethods.mask).map JsonMethods.lines).getD [])
    cases c.json with
    | none => exact silent_nil
    | some m => exact JsonMethods.silent_lines hw
  have hend : Silent w ["\x7d", ""] := .cons (omits_fixed hw (by rfl)) (silent_line (omits_empty hw))
  refine .append (.append (.append (.append (.append (silent_line (hhead.fixed (by rfl))) ?_) ?_) hmembers)
    hjson) hend
  · split
    · refine .cons ?_ (silent_line (omits_empty hw))
      exact (((stem_fixed hw (by rfl)).fixed (by rfl)).append (omits_number hw _)).fixed (by rfl)
    · exact silent_nil
  · refine (Silent.braced (silent_constructorBody (c := c.mask) hname hprobe) ?_ (omits_empty hw)).indent
    unfold constructorHead
    split
    · exact omits_fixed hw (by rfl)
    · exact omits_fixed hw (by rfl)

end ClassDecl

end RecordView.Script
