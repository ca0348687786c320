import RecordView.Proofs.Layout.Padding
import RecordView.Proofs.Reader.Comparison

/-! What is said of tokens, comments, fields and types is said of a whole description: of two readings of it
side by side, and of what one of them keeps. -/
namespace RecordView.Declaration
open Reader

/-! ## Parts of statements and rounds -/

def Reader.fieldEnd (f : FieldStatement) : Reader FieldStatement := do
  let _ ← expectAs ";" (.semicolonAfterField f.name.text)
  return f

def Reader.fieldBits (type name : Token) : Reader FieldStatement := do
  let _ ← advance
  let bits ← collect [";"]
  fieldEnd ⟨type, name, none, some bits⟩

/-! ## Headings -/

namespace Header

/-- What a heading with this parent brings along: no more than `n` errors, none of them of a condition, at
places with the property. -/
structure Proper (P : Location → Prop) (parent : Option Token) (n : Nat) (h : Header) : Prop where
  place : P h.draft.location
  extended : ∀ name, h.draft.parent = some name → ∃ t, parent = some t ∧ t.text = name
  flexible : h.draft.flexible = none
  count : h.errors.length ≤ n
  errors : ∀ e ∈ h.errors, P e.1 ∧ (e.2.kind == .condition || e.2.kind == .expression) = false
  notes : ∀ note ∈ h.notes, ∃ location form, note = .unnamed location form

variable {P : Location → Prop} {parent : Option Token} {n : Nat} {h : Header} {l : Location} {p : Problem}

theorem Proper.succ (hh : h.Proper P parent n) : h.Proper P parent (n + 1) :=
  { hh with count := Nat.le_succ_of_le hh.count }

theorem Proper.discard (hh : h.Proper P parent n) (hl : P l)
    (hp : (p.kind == .condition || p.kind == .expression) = false) :
    (h.discard l p).Proper P parent (n + 1) := by
  refine { hh with count := ?_, errors := fun e he => ?_ }
  · have hcount := hh.count
    simpa [Header.discard] using hcount
  · rcases List.mem_append.mp he with he | he
    · exact hh.errors e he
    · rw [List.mem_singleton.mp he]
      exact ⟨hl, hp⟩

theorem Proper.withName (hh : h.Proper P parent n) {name : Option Token}
    (hname : ∀ t, name = some t → P t.location) (r : Registry) :
    (h.withName r name).Proper P parent (n + 1) := by
  unfold Header.withName
  split
  · exact hh.succ
  split
  · refine { hh.discard hh.place rfl with notes := fun note hnote => ?_ }
    rcases List.mem_append.mp hnote with hnote | hnote
    · exact hh.notes note hnote
    · exact ⟨_, _, List.mem_singleton.mp hnote⟩
  · split
    · exact hh.discard (hname _ rfl) rfl
    · exact hh.succ

theorem Proper.withParent (hh : h.Proper P parent n) (hparent : ∀ t, parent = some t → P t.location)
    (r : Registry) : (h.withParent r parent).Proper P parent (n + 1) := by
  unfold Header.withParent
  split
  · exact hh.succ
  rename_i t
  split
  · exact hh.discard (hparent _ rfl) rfl
  rename_i p hfound
  split
  · exact hh.discard (hparent _ rfl) rfl
  split
  · exact hh.discard (hparent _ rfl) rfl
  · refine { hh.succ with extended := fun name hname => ⟨t, rfl, ?_⟩ }
    cases hname
    have hname := List.find?_some (Option.filter_eq_some_iff.mp hfound).1
    exact (beq_iff_eq.mp hname).symm

/-- A heading has one error for its name and one for its parent at most. -/
theorem proper_of {keyword : Token} {name : Option Token} (hkeyword : P keyword.location)
    (hname : ∀ t, name = some t → P t.location) (hparent : ∀ t, parent = some t → P t.location)
    (r : Registry) (form : Form) (typedef : Bool) :
    (Header.of r form typedef keyword name parent).Proper P parent 2 := by
  have hbare : Proper P parent 0
      { draft := .empty (if typedef then none else name.map (·.text)) form keyword.location typedef } :=
    ⟨hkeyword, fun _ hn => (Option.some_ne_none _ hn.symm).elim, rfl, Nat.le_refl _, by simp, by simp⟩
  exact (hbare.withName hname r).withParent hparent r

end Header

section Rounds

variable {env : Env} {s s' : State} {t : Token} (hgoing : s.report.full = false)
  (hpeek : peek env s = .ok t s')
include hgoing hpeek

theorem statementRound_at : statementRound () env s = statementAt t s'.taken env s' := by
  rw [statementRound, get_bind_apply, hgoing, if_neg Bool.false_ne_true, bind_apply, hpeek]
  rfl

variable (ht : t.kind ≠ .eof)
include ht

theorem statementRound_attempt :
    statementRound () env s =
      (attempt t s'.taken false () statement >>= fun _ => pure (.again ())) env s' := by
  rw [statementRound_at hgoing hpeek, statementAt, if_neg ht]

theorem memberRound_attempt (hbrace : t.isSymbol "\x7d" = false) (d : Draft) :
    memberRound d env s =
      (attempt t s'.taken false d (member d) >>= fun d => pure (.again d)) env s' := by
  rw [memberRound, get_bind_apply, hgoing, if_neg Bool.false_ne_true, bind_apply, hpeek]
  show (get >>= fun s => memberAt d t s.taken) env s' = _
  rw [get_bind_apply, memberAt, if_neg ht, if_neg (by simp [hbrace])]

theorem enumRound_attempt (hbrace : t.isSymbol "\x7d" = false) (keyword : Token) (d : EnumDraft) :
    enumRound keyword d env s =
      (attempt t s'.taken true d (enumMember d) >>= fun d => pure (.again d)) env s' := by
  rw [enumRound, get_bind_apply, hgoing, if_neg Bool.false_ne_true, bind_apply, hpeek]
  show (get >>= fun s => enumeratorAt keyword d t s.taken) env s' = _
  rw [get_bind_apply, enumeratorAt, if_neg ht, if_neg (by simp [hbrace])]

end Rounds

variable {keyword : Token}

namespace Comparison

variable {C : Comparison} {i : Nat × Nat} {t : Token} {d d' : Draft}

def Perhaps (C : Comparison) (x x' : Option Token) : Prop :=
  x' = x.map (·.relabel C.labels) ∧ ∀ t, x = some t → C.place t.location

theorem Perhaps.none : C.Perhaps none none := ⟨rfl, fun _ h => by cases h⟩

theorem Judge.perhaps {m m' : Reader Token} (hm : C.Judge i C.Corresponds m m') :
    C.Judge i C.Perhaps (some <$> m) (some <$> m') := by
  refine hm.bind fun t _ ht => .pure ⟨?_, fun u hu => ?_⟩
  · rw [ht.1]
    rfl
  · cases hu
    exact ht.2

/-! ## Statements -/

namespace Tokens

variable (hC : C.Tokens)
include hC

theorem declaredName : C.Judge i C.Perhaps Reader.declaredName Reader.declaredName :=
  hC.look fun _ _ => .ite hC.advance.perhaps (.pure .none)

theorem parentName : C.Judge i C.Perhaps Reader.parentName Reader.parentName :=
  (hC.accept _).seq fun _ => .ite (hC.expectName _).perhaps (.pure .none)

theorem endOfDirective : C.Judge i Eq Reader.endOfDirective Reader.endOfDirective := by
  refine (hC.loop (V := Eq) hC.loops.comment (fun _ => hC.look fun t _ => ?_) ()).seq fun _ => ?_
  · exact .ite (hC.advance.after (.pure (.again rfl))) (.pure (.done rfl))
  · refine hC.look fun t ht => .ite (hC.advance.after (.pure rfl)) (.ite ?_ (.pure rfl))
    exact hC.unexpected ht _

theorem skipNested : C.Judge i Eq Reader.skipNested Reader.skipNested := by
  refine hC.loop hC.loops.nested (fun depth => hC.look fun t _ => .ite (.pure (.done rfl)) ?_) 0
  refine hC.advance.after (.ite (.pure (.done rfl)) (.ite (.pure (.again rfl)) (.ite ?_ ?_)))
  · exact .ite ((hC.accept _).after (.pure (.done rfl))) (.pure (.again rfl))
  · exact .pure (.again rfl)

theorem startsUnion (t : Token) :
    C.Judge i Eq (Reader.startsUnion t) (Reader.startsUnion (t.relabel C.labels)) :=
  .ite (hC.peekSecond.bind fun _ _ h => .pure (by rw [h]; rfl)) (.pure rfl)

theorem leadingWidth (type : Token) :
    C.Judge i (fun w w' => w' = w.map (·.map (·.relabel C.labels))) (Reader.leadingWidth type)
      (Reader.leadingWidth (type.relabel C.labels)) := by
  refine .ite (.pure rfl) ((hC.accept _).seq fun _ => .ite ?_ (.pure rfl))
  refine (hC.check _).seq fun _ => .ite ?_ (hC.take fun _ _ => .pure rfl)
  refine hC.take fun opening _ => (hC.collect _).bind fun inner _ hinner => ?_
  refine (hC.expectAs _ _).bind fun closing _ hclosing => .pure ?_
  rw [hinner, hclosing.1]
  simp only [Option.map_some, List.map_cons, List.map_append, List.cons_append, List.map_nil]

omit hC in
/-- What stands after the type of a field statement. -/
theorem fieldStatement_eq : ∃ k : Token → Reader FieldStatement, Reader.fieldStatement = (Reader.advance >>= k) ∧
    ∀ {C : Comparison} (_ : C.Tokens) {i : Nat × Nat} (type : Token), C.place type.location →
      C.Judge i C.Restates (k type) (k (type.relabel C.labels)) := by
  refine ⟨_, rfl, fun {C} hC {i} type htype => (hC.leadingWidth type).bind fun width _ hwidth => ?_⟩
  subst hwidth
  refine (hC.expectName _).bind fun name _ hname => ?_
  obtain ⟨rfl, hname⟩ := hname
  refine (hC.accept _).seq fun array => (hC.check _).seq fun bits => ?_
  have last (count width : Option (List Token)) : C.Judge i C.Restates (fieldEnd ⟨type, name, count, width⟩)
      (fieldEnd ((⟨type, name, count, width⟩ : FieldStatement).relabel C.labels)) :=
    (hC.expectAs _ _).after (.pure ⟨rfl, htype, hname⟩)
  have hsome : (width.map (·.map (·.relabel C.labels))).isSome = width.isSome := Option.isSome_map
  rw [hsome]
  refine .ite ?_ (.ite ?_ (last none width))
  · refine (hC.collect _).bind fun count _ hcount => ?_
    subst hcount
    exact (hC.expectAs _ _).after (last (some count) width)
  · have suffix : C.Judge i C.Restates (fieldBits type name)
        (fieldBits (type.relabel C.labels) (name.relabel C.labels)) := by
      refine hC.advance.after ((hC.collect _).bind fun bits _ hbits => ?_)
      subst hbits
      exact last none (some bits)
    refine .ite (hC.look fun t ht => ?_) suffix
    exact (hC.refuse (V := Eq) ht _).seq fun _ => suffix

theorem fieldStatement : C.Judge i C.Restates Reader.fieldStatement Reader.fieldStatement := by
  obtain ⟨k, heq, hk⟩ := fieldStatement_eq
  rw [heq]
  exact hC.take (hk hC)

theorem memberValue (e : EnumDraft) {name : Token} (hname : C.place name.location) :
    C.Judge i (fun c c' => c = c' ∧ C.value c) (Reader.memberValue e name)
      (Reader.memberValue e (name.relabel C.labels)) := by
  refine (hC.accept _).seq fun _ => .ite ?_ ?_
  · refine (hC.collect _).bind fun ts _ hts => hC.surroundings.bind fun u u' hu => ?_
    rw [hts, name.location_relabel]
    exact hC.evaluate ts hu hname
  · cases e.next with
    | some n => exact .pure ⟨rfl, hC.int n⟩
    | none => exact hC.refuse hname _

/-- A member of an enum does what the definition of a constant does. -/
theorem enumerator_of (constant : ∀ name value, C.value value → C.Judge i Eq
      (modify fun s => { s with constants := s.constants.set name value } : Reader PUnit)
      (modify fun s => { s with constants := s.constants.set name value })) (e : EnumDraft) :
    C.Judge i Eq (enumerator e) (enumerator e) := by
  refine (hC.expectName _).bind fun name _ hname => hC.lookup fun s s' hs => ?_
  obtain ⟨rfl, hname⟩ := hname
  dsimp only
  rw [hC.constants hs]
  refine hC.guard hname _ ((hC.memberValue e hname).bind fun value _ hvalue => ?_)
  obtain ⟨rfl, hvalue⟩ := hvalue
  have last : C.Judge i Eq (addConstant e name value) (addConstant e name value) :=
    (constant name.text value hvalue).after (.pure rfl)
  refine (hC.accept _).seq fun comma => .ite ((hC.check _).seq fun _ => .ite ?_ last) last
  exact hC.look fun t ht => (hC.unexpected (V := Eq) ht _).seq fun _ => last

omit hC in
/-- What stands after the mark of a directive does what settings do. -/
theorem directive_eq : ∃ k : Token → Reader Unit, Reader.directive = (Reader.advance >>= k) ∧
    ∀ {C : Comparison} (_ : C.Tokens) {i : Nat × Nat}, (∀ name value, C.Judge i Eq (applySetting name value)
      (applySetting name value)) → ∀ mark : Token, C.place mark.location →
      C.Judge i Eq (k mark) (k (mark.relabel C.labels)) := by
  refine ⟨_, rfl, fun {C} hC {i} setting mark hmark => hC.guard hmark _ (hC.look fun name hname =>
    hC.guard hmark _ (hC.advance.after (hC.look fun value hvalue => ?_)))⟩
  have last : C.Judge i Eq (settingValue mark name value)
      (settingValue (mark.relabel C.labels) (name.relabel C.labels) (value.relabel C.labels)) := by
    unfold settingValue
    exact hC.guard hname _ (hC.advance.after ((setting _ _).seq fun _ =>
      (hC.log (.setting mark.line name.text value.text)).seq fun _ => hC.endOfDirective))
  refine .ite (hC.advance.after ?_) last
  exact (hC.refuse (V := Eq) hvalue (.malformed (.pragmaUnclosed name.text))).seq fun _ => last

theorem directive (setting : ∀ name value, C.Judge i Eq (applySetting name value) (applySetting name value)) :
    C.Judge i Eq Reader.directive Reader.directive := by
  obtain ⟨k, heq, hk⟩ := directive_eq
  rw [heq]
  exact hC.take (hk hC setting)

end Tokens

/-! ## Members -/

structure Asides (C : Comparison) : Prop extends Tokens C where
  comment : ∀ {i t}, C.place t.location → C.Judge i Eq (comment t) (comment (t.relabel C.labels))
  setting : ∀ {i} name value, C.Judge i Eq (applySetting name value) (applySetting name value)

/-- A member of an enum does what comments, settings and constants do. -/
theorem Asides.enumMember (hC : C.Asides) {e : EnumDraft}
    (henumerator : C.Judge i Eq (enumerator e) (enumerator e)) :
    C.Judge i Eq (enumMember e) (enumMember e) := by
  refine hC.look fun t ht => .ite ?_ (.ite ?_ henumerator)
  · exact hC.advance.after ((hC.comment ht).seq fun _ => .pure rfl)
  · exact (hC.directive hC.setting).seq fun _ => .pure rfl

structure Fields (C : Comparison) : Prop extends Tokens C where
  declare : ∀ {i f f' u u' d d'}, C.Restates f f' → C.around u u' → C.draft d d' →
    C.Judge i C.draft (orThrow (f.declare u d)) (orThrow (f'.declare u' d'))
  advanceTo : ∀ {i d d' e e'}, C.draft d d' → C.draft e e' →
    C.Judge i Eq (advanceTo d e) (advanceTo d' e')
  openUnion : ∀ {s s' d d'}, C.alike s s' → C.draft d d' → d.inUnion = false →
    C.draft (d.openUnion s.settings) (d'.openUnion s'.settings)
  closeUnion : ∀ {s s' d d'}, C.alike s s' → C.draft d d' → d.inAnonymousUnion = true →
    C.draft (d.closeUnion s.settings).1 (d'.closeUnion s'.settings).1 ∧
      (d.closeUnion s.settings).2 = (d'.closeUnion s'.settings).2
  flush : ∀ {s s' d d'}, C.alike s s' → C.draft d d' →
    C.draft (d.flush s.settings) (d'.flush s'.settings)

namespace Fields

variable (hC : C.Fields)
include hC

theorem field (hd : C.draft d d') : C.Judge i C.draft (Reader.field d) (Reader.field d') := by
  refine hC.fieldStatement.bind fun f f' hf => hC.surroundings.bind fun u u' hu => ?_
  refine (hC.declare hf hu hd).bind fun e e' he => ?_
  exact (hC.advanceTo hd he).seq fun _ => .pure he

theorem unionMember (hd : C.draft d d') :
    C.Judge i C.draft (Reader.openUnion d) (Reader.openUnion d') := by
  refine hC.take fun keyword hkeyword => hC.advance.after ?_
  dsimp only
  rw [← (hC.shape hd).inUnion]
  refine .cases (fun _ => ?_) fun hu => hC.lookup fun s s' hs => ?_
  · exact (hC.refuse (V := fun _ _ => False) hkeyword _).bind fun _ _ h => h.elim
  · have he := hC.openUnion hs hd (Bool.eq_false_iff.mpr hu)
    exact (hC.advanceTo hd he).seq fun _ => .pure he

end Fields

structure Members (C : Comparison) : Prop extends Asides C, Fields C

theorem Members.member (hC : C.Members) (hd : C.draft d d') :
    C.Judge i C.draft (Reader.member d) (Reader.member d') := by
  refine hC.look fun t ht => .ite ?_ (.ite ?_ (.ite (hC.advance.after (.pure hd))
    (.ite (hC.refuse ht _) (.ite (hC.unexpected ht _) ?_))))
  · exact hC.advance.after ((hC.comment ht).seq fun _ => .pure hd)
  · exact (hC.directive hC.setting).seq fun _ => .pure hd
  · refine (hC.startsUnion t).seq fun _ => .ite (hC.unionMember hd) (.ite ?_ (hC.field hd))
    exact hC.skipNested.seq fun _ => hC.refuse ht _

structure Bodies (C : Comparison) : Prop extends Members C, Reports C where
  location : ∀ {d d'}, C.draft d d' → C.place d.location

namespace Bodies

variable (hC : C.Bodies)
include hC

theorem unionEnd (hd : C.draft d d') (hu : d.inAnonymousUnion = true) (ht : C.place t.location) :
    C.Judge i C.draft (Reader.closeUnion d t i.1) (Reader.closeUnion d' (t.relabel C.labels) i.2) := by
  refine hC.lookup fun s s' hs => ?_
  obtain ⟨he, hfilled⟩ := hC.closeUnion hs hd hu
  dsimp only
  rw [← hfilled]
  refine (hC.advanceTo hd he).seq fun _ => (hC.attempt (V := Eq) ht _ rfl ?_).seq fun _ => .pure he
  exact (hC.expectAs _ _).after (.ite (hC.refuse ht _) (.pure rfl))

theorem memberAt (hd : C.draft d d') (ht : C.place t.location) :
    C.Judge i (RoundRel C.draft (Option.Rel C.draft)) (memberAt d t i.1)
      (memberAt d' (t.relabel C.labels) i.2) := by
  have hshape := hC.shape hd
  unfold Reader.memberAt
  rw [← hshape.form, ← hshape.inAnonymousUnion, hC.place hd]
  refine .ite ?_ (.ite (hC.advance.after (.cases (fun hu => ?_) fun _ => ?_)) ?_)
  · exact (hC.report _ (hC.location hd)).seq fun _ => .pure (.done .none)
  · exact (hC.unionEnd hd hu ht).bind fun _ _ he => .pure (.again he)
  · refine hC.lookup fun s s' hs => ?_
    have he := hC.flush hs hd
    exact (hC.advanceTo hd he).seq fun _ => .pure (.done (.some he))
  · exact (hC.attempt ht _ hd (hC.member hd)).bind fun _ _ he => .pure (.again he)

theorem memberRound (hd : C.draft d d') :
    C.Judge i (RoundRel C.draft (Option.Rel C.draft)) (memberRound d) (memberRound d') :=
  hC.unlessFull (.pure (.done .none)) (hC.look fun _ ht => hC.fromStart fun _ => hC.memberAt hd ht)

theorem members (hd : C.draft d d') :
    C.Judge i (Option.Rel C.draft) (members d) (members d') :=
  .rounds hC.left hC.loops.member (fun _ _ => hC.memberRound) hd

end Bodies

/-! ## Enums -/

structure Enums (C : Comparison) : Prop extends Asides C, Reports C where
  enumerator : ∀ {i} e, C.Judge i Eq (enumerator e) (enumerator e)

namespace Enums

variable (hC : C.Enums)
include hC

theorem enumeratorAt (hkeyword : C.place keyword.location) (e : EnumDraft) (ht : C.place t.location) :
    C.Judge i (RoundRel Eq Eq) (enumeratorAt keyword e t i.1)
      (enumeratorAt (keyword.relabel C.labels) e (t.relabel C.labels) i.2) := by
  refine .ite ?_ (.ite (hC.advance.after (.pure (.done rfl))) ?_)
  · exact (hC.reportAt hkeyword _).seq fun _ => .pure (.done rfl)
  · exact (hC.attempt ht _ rfl (hC.enumMember (hC.enumerator e))).seq fun _ => .pure (.again rfl)

theorem enumRound (hkeyword : C.place keyword.location) (e : EnumDraft) :
    C.Judge i (RoundRel Eq Eq) (enumRound keyword e) (enumRound (keyword.relabel C.labels) e) :=
  hC.unlessFull (.pure (.done rfl)) (hC.look fun _ ht => hC.fromStart fun _ =>
    hC.enumeratorAt hkeyword e ht)

theorem enumMembers (hkeyword : C.place keyword.location) (e : EnumDraft) :
    C.Judge i Eq (enumMembers keyword e) (enumMembers (keyword.relabel C.labels) e) :=
  hC.loop (hC.loops.enum keyword) (hC.enumRound hkeyword) e

end Enums

/-! ## Declarations -/

/-- Where no place is changed, the counterpart of a token is the token. -/
theorem Perhaps.eq {m : Bool → Bool} (hlabels : C.labels = .ofMark m) {x x' : Option Token}
    (h : C.Perhaps x x') : x' = x := by
  rw [h.1, hlabels]
  cases x with
  | none => rfl
  | some t => rfl

structure Heads (C : Comparison) (h h' : Header) : Prop where
  draft : C.draft h.draft h'.draft
  errors : h'.errors = h.errors.map fun e => (C.labels.place e.1, e.2.relabel C.labels)
  places : ∀ e ∈ h.errors, C.place e.1
  notes : h'.notes = h.notes.map (·.relabel C.labels)

/-- Where no place is changed, headers have the same errors and remarks. -/
theorem Heads.of_eq {m : Bool → Bool} (hlabels : C.labels = .ofMark m) {h h' : Header}
    (hdraft : C.draft h.draft h'.draft) (herrors : h'.errors = h.errors)
    (hplaces : ∀ e ∈ h.errors, C.place e.1) (hnotes : h'.notes = h.notes) : C.Heads h h' := by
  refine ⟨hdraft, ?_, hplaces, ?_⟩
  · rw [herrors, hlabels]
    simp only [Problem.relabel_ofMark]
    exact (List.map_id _).symm
  · rw [hnotes, hlabels]
    simp only [Note.relabel_ofMark, List.map_id']

namespace Reports

variable (hC : C.Reports)
include hC

theorem typedefName
    (hdiscard : C.draft { d with discarded := true } { d' with discarded := true })
    (hnamed : ∀ name, C.draft { d with name := some name } { d' with name := some name }) :
    C.Judge i C.draft (typedefName d) (typedefName d') := by
  refine hC.look fun t ht => .ite ?_ (hC.advance.after (hC.lookup fun s s' hs => ?_))
  · exact (hC.reportAt ht _).seq fun _ => .pure hdiscard
  · rw [Token.text_relabel, hC.taken t.text hs]
    exact .ite ((hC.reportAt ht _).seq fun _ => .pure hdiscard) (.pure (hnamed _))

theorem backingType : C.Judge i Eq backingType backingType := by
  refine (hC.accept _).seq fun _ => .ite ((hC.expectName _).bind fun t _ ht => ?_) (.pure rfl)
  obtain ⟨rfl, ht⟩ := ht
  have last : C.Judge i Eq (replaceBacking t) (replaceBacking (t.relabel C.labels)) :=
    (hC.reportAt ht _).seq fun _ => .pure rfl
  simp only [Token.text_relabel]
  split
  · exact .ite (.pure rfl) last
  · exact last

end Reports

structure Openings (C : Comparison) : Prop extends Reports C where
  header : ∀ {s s' keyword name name' parent parent'} form typedef, C.alike s s' →
    C.place keyword.location → C.Perhaps name name' → C.Perhaps parent parent' →
    C.Heads (Header.of s.registry form typedef keyword name parent)
      (Header.of s'.registry form typedef (keyword.relabel C.labels) name' parent')
  opened : ∀ {i}, C.Judge i Eq (modify fun s => { s with declared := true } : Reader PUnit)
    (modify fun s => { s with declared := true })
  openClass : ∀ {i} name,
    C.Judge i Eq (modify fun s => { s with script := s.script.openClass name } : Reader PUnit)
      (modify fun s => { s with script := s.script.openClass name })

namespace Openings

variable (hC : C.Openings)
include hC

theorem bodyHead (form : Form) (typedef : Bool) (hkeyword : C.place keyword.location) :
    C.Judge i C.draft (headed Reader.parentName (openBody form typedef keyword))
      (headed Reader.parentName (openBody form typedef (keyword.relabel C.labels))) := by
  refine hC.declaredName.bind fun name name' hname => hC.parentName.bind fun parent parent' hparent => ?_
  refine (hC.expectAs _ _).after (hC.opened.seq fun _ => hC.lookup fun s s' hs => ?_)
  have hheader := hC.header form typedef hs hkeyword hname hparent
  generalize Header.of s.registry form typedef keyword name parent = h at hheader ⊢
  generalize Header.of s'.registry form typedef (keyword.relabel C.labels) name' parent' = h' at hheader ⊢
  dsimp only
  rw [hheader.errors, hheader.notes, ← (hC.shape hheader.draft).name]
  refine (Judge.forM _ fun e he => hC.report e.2 (hheader.places e he)).seq fun _ => ?_
  refine (Judge.forM _ fun n _ => hC.log n).seq fun _ => (hC.openClass _).seq fun _ => ?_
  exact (hC.log (.opened keyword.line keyword.text h.draft.name)).seq fun _ => .pure hheader.draft

theorem opening (form : Form) (typedef : Bool) :
    C.Judge i C.draft (opening form typedef) (opening form typedef) :=
  hC.take fun _ => hC.bodyHead form typedef

theorem enumHead (hkeyword : C.place keyword.location) :
    C.Judge i (fun x x' => x' = (x.1.relabel C.labels, x.2) ∧ C.place x.1.location)
      (headed Reader.backingType (openEnum keyword))
      (headed Reader.backingType (openEnum (keyword.relabel C.labels))) := by
  refine hC.declaredName.bind fun name _ hname => ?_
  obtain ⟨rfl, hname⟩ := hname
  refine hC.backingType.seq fun backing => (hC.expectAs _ _).after (hC.opened.seq fun _ => ?_)
  refine hC.lookup fun s s' hs => ?_
  have htaken : s'.registry.taken = s.registry.taken := funext fun n => (hC.taken n hs).symm
  dsimp only
  rw [htaken]
  cases name with
  | none => exact .pure ⟨rfl, hkeyword⟩
  | some t =>
    have hfilter : ((some t).map (·.relabel C.labels)).filter (fun t => !s.registry.taken t.text) =
        ((some t).filter fun t => !s.registry.taken t.text).map (·.relabel C.labels) := by
      rw [Option.filter_map]
      rfl
    rw [hfilter]
    cases (some t).filter fun t => !s.registry.taken t.text with
    | none => exact (hC.reportAt (hname t rfl) _).seq fun _ => .pure ⟨rfl, hkeyword⟩
    | some u => exact .pure ⟨rfl, hkeyword⟩

theorem enumOpening :
    C.Judge i (fun x x' => x' = (x.1.relabel C.labels, x.2) ∧ C.place x.1.location) enumOpening
      enumOpening := hC.take fun _ => hC.enumHead

end Openings

structure Declarations (C : Comparison) : Prop extends Enums C, Openings C where
  location : ∀ {d d'}, C.draft d d' → C.place d.location
  discard : ∀ {d d'}, C.draft d d' → C.draft { d with discarded := true } { d' with discarded := true }
  named : ∀ {d d'} name, C.draft d d' → C.draft { d with name := some name } { d' with name := some name }
  discardClass : ∀ {i}, C.Judge i Eq discardClass discardClass
  register : ∀ {i t t'}, C.type t t' → C.Judge i Eq (register t) (register t')
  closeClass : ∀ {i t t'}, C.type t t' →
    C.Judge i Eq (write fun s => s.script.closeClass s.settings s.registry t)
      (write fun s => s.script.closeClass s.settings s.registry t')
  warnOfPadding : ∀ {i d d' t t'}, C.draft d d' → C.type t t' →
    C.Judge i Eq (warnOfPadding d t) (warnOfPadding d' t')
  addEnum : ∀ {i} name members, C.Judge i Eq (write fun s => s.script.addEnum s.settings name members)
    (write fun s => s.script.addEnum s.settings name members)

namespace Declarations

variable (hC : C.Declarations)
include hC

theorem closeAggregate (hd : C.draft d d') :
    C.Judge i Eq (closeAggregate d) (closeAggregate d') := by
  have hshape := hC.shape hd
  unfold Reader.closeAggregate
  rw [← hshape.discarded, ← hshape.name]
  split
  · rename_i name _ _
    refine hC.lookup fun s s' hs => ?_
    have hfinish := hC.finish name hs hd
    generalize d.finish s.settings name = x at hfinish ⊢
    generalize d'.finish s'.settings name = x' at hfinish ⊢
    cases hfinish with
    | none =>
      rw [hC.place hd, ← hshape.form]
      exact hC.discardClass.seq fun _ => .refused (hC.refusal _ (hC.location hd))
    | some ht =>
      have hsize := hC.size ht
      refine (hC.register ht).seq fun _ => (hC.closeClass ht).seq fun _ => ?_
      rw [← hsize.name, ← hsize.form, ← hsize.byteLength, ← hsize.alignment]
      exact (hC.log (.classEmitted _ _)).seq fun _ => (hC.warnOfPadding hd ht).seq fun _ =>
        hC.log (.aggregate _ _ _ _)
  · exact hC.discardClass

theorem closing (typedef : Bool) {x x' : Option Draft} (hx : Option.Rel C.draft x x') :
    C.Judge i Eq (closing typedef x) (closing typedef x') := by
  cases hx with
  | none => exact hC.discardClass
  | some hd =>
    have last {d d' : Draft} (hd : C.draft d d') : C.Judge i Eq (bodyEnd d) (bodyEnd d') :=
      (hC.accept _).seq fun _ => hC.closeAggregate hd
    cases typedef with
    | false => exact last hd
    | true => exact (hC.typedefName (hC.discard hd) fun name => hC.named name hd).bind fun _ _ => last

theorem closeEnum (e : EnumDraft) (name : String) : C.Judge i Eq (closeEnum e name) (closeEnum e name) := by
  refine hC.lookup fun s s' hs => (hC.register (hC.finishEnum e name hs)).seq fun _ => ?_
  refine (hC.addEnum _ _).seq fun _ => (hC.log (.enumEmitted _ _)).seq fun _ => ?_
  exact hC.log (.enumeration _ _ _)

theorem enumClosing (x : Option EnumDraft) : C.Judge i Eq (enumClosing x) (enumClosing x) := by
  cases x with
  | none => exact .pure rfl
  | some e =>
    refine (hC.accept _).seq fun _ => ?_
    split
    · exact .pure rfl
    · exact hC.closeEnum e _

theorem enumeration : C.Judge i Eq enumeration enumeration := by
  refine hC.enumOpening.bind fun x _ hx => ?_
  obtain ⟨rfl, hkeyword⟩ := hx
  exact (hC.enumMembers hkeyword x.2).seq hC.enumClosing

end Declarations

/-! ## Descriptions -/

structure Statements (C : Comparison) : Prop extends Asides C, Reports C where
  aggregate : ∀ {i} form typedef, C.Judge i Eq (aggregate form typedef) (aggregate form typedef)
  enumeration : ∀ {i}, C.Judge i Eq enumeration enumeration

namespace Statements

variable (hC : C.Statements)
include hC

theorem statement : C.Judge i Eq statement statement := by
  refine hC.look fun t ht => .ite ?_ (.ite (hC.directive hC.setting) (.ite (hC.advance.after (.pure rfl)) ?_))
  · exact hC.advance.after (hC.comment ht)
  · refine .ite (hC.aggregate _ _) (.ite (hC.aggregate _ _) (.ite hC.enumeration (.ite ?_
      (.ite (hC.refuse ht _) (hC.refuse ht _)))))
    refine hC.advance.after (hC.look fun u hu => ?_)
    exact .ite (hC.aggregate _ _) (.ite (hC.aggregate _ _) (hC.refuse hu _))

theorem statementAt (ht : C.place t.location) :
    C.Judge i (RoundRel Eq Eq) (statementAt t i.1) (statementAt (t.relabel C.labels) i.2) :=
  .ite (.pure (.done rfl)) ((hC.attempt ht _ rfl hC.statement).seq fun _ => .pure (.again rfl))

theorem statementRound : C.Judge i (RoundRel Eq Eq) (statementRound ()) (statementRound ()) :=
  hC.unlessFull (.pure (.done rfl)) (hC.look fun _ ht => hC.fromStart fun _ => hC.statementAt ht)

theorem description : C.Judge i Eq description description :=
  hC.loop hC.loops.statement (fun _ => hC.statementRound) ()

end Statements

structure Descriptions (C : Comparison) : Prop extends Bodies C, Declarations C

theorem Descriptions.statements (hC : C.Descriptions) : C.Statements :=
  { hC with
    aggregate := fun form typedef => (hC.opening form typedef).bind fun _ _ hd =>
      (hC.members hd).bind fun _ _ => hC.closing typedef
    enumeration := hC.enumeration }

end Comparison

/-! ## One reading -/

/-- What one reading keeps: the states it goes through, how it fails and what refuses it, and what is known
of the values in between. -/
structure Discipline where
  env : Env
  keep : State → Prop
  fails : Failure → State → Prop
  refusal : Diagnostic → Prop
  place : Location → Prop
  around : Surroundings → Prop
  draft : Draft → Prop
  value : Constant → Prop

namespace Discipline

variable {D : Discipline} {i : Nat × Nat} {α : Type} {q : α → Prop} {V : α → α → Prop} {m m' : Reader α}

/-- A reading keeps what it has to keep, and gives results with a property. -/
structure Holds (D : Discipline) (q : α → Prop) (m : Reader α) : Prop where
  triple : Triple D.env D.keep m (fun a s => D.keep s ∧ q a) (fun d s => D.keep s ∧ D.refusal d) D.fails

/-- Nothing is compared with the reading. -/
def comparison (D : Discipline) : Comparison where
  env₁ := D.env
  env₂ := D.env
  rel _ _ _ := False
  keep := D.keep
  fails := D.fails
  loose₁ := False
  loose₂ := False
  refusal d _ := D.refusal d
  labels := .ofMark id
  place := D.place
  alike s s' := s = s'
  around u _ := D.around u
  draft d d' := d = d' ∧ D.draft d
  type := Eq
  value := D.value

theorem agrees (D : Discipline) : D.comparison.Agrees where
  left h := h.elim
  full h := h.elim
  start h := h.elim
  back h := h.elim
  untouched h := h.elim
  last _ h := h.elim
  later _ _ := Iff.rfl
  alike_self _ := rfl
  alike_rel h := h.elim
  constants h := congrArg State.constants h
  taken name h := congrArg (·.registry.taken name) h
  shape h := h.1 ▸ ⟨rfl, rfl, rfl, rfl, rfl⟩
  place h := congrArg Draft.location h.1.symm
  size h := h ▸ ⟨rfl, rfl, rfl, rfl⟩
  finish name h hd := by
    rw [h, hd.1]
    cases Draft.finish _ _ name with
    | none => exact .none
    | some t => exact .some rfl
  finishEnum e name h := congrArg (fun s : State => EnumDraft.finish s.settings e name) h

namespace Holds

theorem judge (h : D.Holds q m) (hV : ∀ a, q a → ∃ a', V a a') : D.comparison.Judge i V m m' :=
  ⟨h.triple.imp (fun _ hs => hs) (fun a _ hs => ⟨hs.1, hV a hs.2⟩) fun d _ hs => ⟨hs.1, d, hs.2⟩,
    fun hs => hs.elim⟩

theorem same (h : D.Holds q m) : D.comparison.Judge i Eq m m' := h.judge fun a _ => ⟨a, rfl⟩

theorem token {m m' : Reader Token} (h : D.Holds (fun t => D.place t.location) m) :
    D.comparison.Judge i D.comparison.Corresponds m m' := h.judge fun t ht => ⟨t, rfl, ht⟩

theorem of_judge (h : D.comparison.Judge i V m m') (hq : ∀ a a', V a a' → q a) : D.Holds q m :=
  ⟨h.kept.imp (fun _ hs => hs) (fun a _ ⟨hs, a', ha⟩ => ⟨hs, hq a a' ha⟩) fun _ _ ⟨hs, _, hd⟩ => ⟨hs, hd⟩⟩

theorem bind {β : Type} {r : β → Prop} {f : α → Reader β} (hm : D.Holds q m)
    (hf : ∀ a, q a → D.Holds r (f a)) : D.Holds r (m >>= f) :=
  ⟨Triple.bind hm.triple fun a s hs => (hf a hs.2).triple s hs.1⟩

theorem pure {a : α} (h : q a) : D.Holds q (Pure.pure a : Reader α) := ⟨Triple.pure fun _ hs => ⟨hs, h⟩⟩

theorem ite {c : Prop} [Decidable c] (hm : D.Holds q m) (hm' : D.Holds q m') :
    D.Holds q (if c then m else m') := ⟨Triple.ite (fun _ => hm.triple) fun _ => hm'.triple⟩

theorem modify {f : State → State} (h : ∀ s, D.keep s → D.keep (f s)) :
    D.Holds (fun _ => True) (modify f : Reader PUnit) := ⟨Triple.modify fun s hs => ⟨h s hs, trivial⟩⟩

theorem forM {f : α → Reader PUnit} (as : List α) (hf : ∀ a ∈ as, D.Holds (fun _ => True) (f a)) :
    D.Holds (fun _ => True) (as.forM f) := by
  induction as with
  | nil => exact pure trivial
  | cons a as ih =>
    exact (hf a List.mem_cons_self).bind fun _ _ => ih fun b hb => hf b (List.mem_cons_of_mem a hb)

end Holds

theorem judge_modify {f : State → State} {m' : Reader PUnit} (h : ∀ s, D.keep s → D.keep (f s)) :
    D.comparison.Judge i Eq (modify f) m' := (Holds.modify h).same

theorem heads {s s' : State} {name name' parent parent' : Option Token} {form : Form} {typedef : Bool}
    (hs : s = s') (hname : D.comparison.Perhaps name name') (hparent : D.comparison.Perhaps parent parent')
    (hdraft : D.draft (Header.of s.registry form typedef keyword name parent).draft)
    (hplaces : ∀ e ∈ (Header.of s.registry form typedef keyword name parent).errors, D.place e.1) :
    D.comparison.Heads (Header.of s.registry form typedef keyword name parent)
      (Header.of s'.registry form typedef (keyword.relabel D.comparison.labels) name' parent') := by
  rw [hname.eq rfl, hparent.eq rfl, ← hs]
  exact .of_eq rfl ⟨rfl, hdraft⟩ rfl hplaces rfl

end Discipline
end RecordView.Declaration
