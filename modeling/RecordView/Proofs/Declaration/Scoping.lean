import RecordView.Proofs.Declaration.Class

/-! What a class refers to by name stands before it: the class that it extends, the classes of its
fields, and their enums. -/
namespace RecordView

variable {name : String} {ts : List TypeInfo} {t : TypeInfo}

namespace Script

variable {items items' : List Item}

def HasClass (items : List Item) (name : String) : Prop := ∃ c, .classDecl c ∈ items ∧ c.name = name

def HasEnum (items : List Item) (name : String) : Prop := ∃ e, .enumDecl e ∈ items ∧ e.name = name

def HasElement (items : List Item) (element : String) : Prop :=
  element ∈ ["number", "bigint"] ∨ HasEnum items element

def Shape.Known (items : List Item) : Shape → Prop
  | .number _ element | .nativeArray _ _ element | .orderedArray _ _ element => HasElement items element
  | .view t | .viewArray t _ => HasClass items t.name
  | _ => True

def FieldKind.Known (items : List Item) : FieldKind → Prop
  | .number p _ enum => HasElement items (elementType p enum)
  | .nested t _ => HasClass items t.name
  | _ => True

structure ClassDecl.Known (items : List Item) (c : ClassDecl) : Prop where
  parent : ∀ p, c.parent = some p → HasClass items p
  accessors : ∀ a, .accessor a ∈ c.members → a.shape.Known items
  json : ∀ m, c.json = some m → ∀ f ∈ m.fields, FieldKind.Known items f.kind

theorem HasElement.mono {element : String} (h : HasElement items element) (hsub : items ⊆ items') :
    HasElement items' element := by
  rcases h with h | ⟨e, he, hname⟩
  · exact .inl h
  · exact .inr ⟨e, hsub he, hname⟩

theorem HasClass.mono (h : HasClass items name) (hsub : items ⊆ items') : HasClass items' name := by
  obtain ⟨c, hc, hname⟩ := h
  exact ⟨c, hsub hc, hname⟩

theorem ClassDecl.Known.mono {c : ClassDecl} (h : c.Known items) (hsub : items ⊆ items') :
    c.Known items' := by
  refine ⟨fun p hp => (h.parent p hp).mono hsub, fun a ha => ?_, fun m hm f hf => ?_⟩
  · have hknown := h.accessors a ha
    cases hshape : a.shape <;> rw [hshape] at hknown
    case number => exact HasElement.mono hknown hsub
    case nativeArray => exact HasElement.mono hknown hsub
    case orderedArray => exact HasElement.mono hknown hsub
    case view => exact HasClass.mono hknown hsub
    case viewArray => exact HasClass.mono hknown hsub
    all_goals trivial
  · have hknown := h.json m hm f hf
    cases hkind : f.kind <;> rw [hkind] at hknown
    case number => exact HasElement.mono hknown hsub
    case nested => exact HasClass.mono hknown hsub
    all_goals trivial

def Item.Declares : Item → TypeInfo → Prop
  | .classDecl c, t => c.name = t.name ∧ t.isAggregate = true
  | .enumDecl e, t => e.name = t.name ∧ t.form = .enum
  | .verbatim _, _ => False

/-- Every type has its class or enum among the items. -/
def Covers (items : List Item) (ts : List TypeInfo) : Prop := ∀ t ∈ ts, ∃ i ∈ items, i.Declares t

theorem Covers.hasClass (h : Covers items ts) (ht : t ∈ ts) (haggregate : t.isAggregate = true) :
    HasClass items t.name := by
  obtain ⟨i, hi, hdeclares⟩ := h t ht
  cases i with
  | classDecl c => exact ⟨c, hi, hdeclares.1⟩
  | enumDecl e => simp [TypeInfo.isAggregate, hdeclares.2] at haggregate
  | verbatim text => exact hdeclares.elim

theorem Covers.hasEnum (h : Covers items ts) (ht : t ∈ ts) (henum : t.form = .enum) :
    HasEnum items t.name := by
  obtain ⟨i, hi, hdeclares⟩ := h t ht
  cases i with
  | classDecl c =>
    have haggregate := hdeclares.2
    simp [TypeInfo.isAggregate, henum] at haggregate
  | enumDecl e => exact ⟨e, hi, hdeclares.1⟩
  | verbatim text => exact hdeclares.elim

theorem hasElement_elementType {p : Primitive} {enum : Option String}
    (h : ∀ n, enum = some n → HasEnum items n) : HasElement items (elementType p enum) := by
  unfold elementType
  cases hn : enum.filter (!·.isEmpty) with
  | none =>
    refine .inl ?_
    cases p <;> decide
  | some n => exact .inr (h n (Option.filter_eq_some_iff.mp hn).1)

theorem Covers.known {kind : FieldKind} (h : Covers items ts) (hkind : kind.Sound ts) :
    FieldKind.Known items kind := by
  cases hkind with
  | number p counted named =>
    refine hasElement_elementType fun n hn => ?_
    obtain ⟨t, ht, rfl, henum, -⟩ := named n hn
    exact h.hasEnum ht henum
  | nested declared aggregate => exact h.hasClass declared aggregate
  | text => trivial
  | bits => trivial
  | flexible => trivial

theorem known_of_shape {u : Settings} {f : Field} {sh : Shape} (h : shape u f = .ok sh)
    (hf : FieldKind.Known items f.kind) : sh.Known items := by
  unfold shape at h
  cases hkind : f.kind with
  | number p count enum =>
    rw [hkind] at h hf
    cases count with
    | none =>
      cases h
      exact hf
    | some n =>
      cases h
      split
      · exact hf
      · exact hf
  | nested t count =>
    rw [hkind] at h hf
    cases count with
    | none =>
      cases h
      exact hf
    | some n =>
      cases h
      exact hf
  | text count =>
    rw [hkind] at h
    cases count <;> cases h <;> trivial
  | bits b =>
    rw [hkind] at h
    dsimp only at h
    split at h <;> cases h
    trivial
  | flexible p =>
    rw [hkind] at h
    cases h
    trivial
  | unresolved =>
    rw [hkind] at h
    cases h

theorem known_of_accessor {u : Settings} {f : Field} {a : Accessor} (h : accessor u f = .ok a)
    (hf : FieldKind.Known items f.kind) : a.shape.Known items := by
  obtain ⟨sh, hshape, h⟩ := bind_eq_ok_iff.mp h
  dsimp only at h
  split at h
  · cases h
    exact known_of_shape hshape hf
  · cases h

end Script

/-- The fields of a type, with those that it inherits, are fields of declared types or its own. -/
theorem Registry.mem_allFields {r : Registry} {f : Field} (h : f ∈ r.allFields t) :
    f ∈ t.fields ∨ ∃ u ∈ r.types, f ∈ u.fields := by
  have hlineage (n : Nat) (t u : TypeInfo) (hu : u ∈ r.lineage n t) : u = t ∨ u ∈ r.types := by
    induction n generalizing t with
    | zero => exact .inl (List.mem_singleton.mp hu)
    | succ n ih =>
      unfold lineage at hu
      split at hu
      · rename_i p hp
        rcases List.mem_cons.mp hu with rfl | hu
        · exact .inl rfl
        · obtain ⟨name, -, hfound⟩ := Option.bind_eq_some_iff.mp hp
          rcases ih p hu with rfl | hu
          · exact .inr (List.mem_of_find?_eq_some hfound)
          · exact .inr hu
      · exact .inl (List.mem_singleton.mp hu)
  obtain ⟨u, hu, hf⟩ := List.mem_flatMap.mp h
  rcases hlineage _ t u (List.mem_reverse.mp hu) with rfl | hu
  · exact .inl hf
  · exact .inr ⟨u, hu, hf⟩

namespace Declaration
open Reader Script

variable {env : Env} {s s' s₀ e : State} {t : TypeInfo}

/-! ## Enums -/

theorem statement_eq_enumeration {v : Token} {s₁ : State} (next : peek env s = .ok v s₁)
    (word : v.isWord "enum" = true) : statement env s₁ = enumeration env s₁ := by
  have hkind := kind_of_isWord word
  rw [statement, bind_apply, peek_peek next]
  simp [hkind, not_isSymbol_of_name hkind, isWord_ne word (show "enum" ≠ "struct" by decide),
    isWord_ne word (show "enum" ≠ "union" by decide), word]

theorem unrefused_closeEnum {d : EnumDraft} (hfree : s.registry.taken name = false) (x : Diagnostic) :
    closeEnum d name env s ≠ .error (.refused x) s' := by
  intro h
  rw [closeEnum, get_bind_apply, bind_apply, register_ok (t := d.finish s.settings name) hfree] at h
  exact (Unrefused.write _).bind (fun _ => .bind (.log _) fun _ => .log _) _ _ _ _ h

def literals (language : Language) (members : List (String × Constant)) :
    Except Failure (List (String × String)) :=
  members.mapM fun (m, v) => do return (m, ← literal language v)

theorem closeEnum_ok {d : EnumDraft} (hfree : s.registry.taken name = false)
    (h : closeEnum d name env s = .ok () s') :
    ∃ x : EnumDecl, x.name = name ∧ literals x.language d.members = .ok x.members ∧
      s'.output = (⟨s.registry.types ++ [d.finish s.settings name]⟩, s.script.decls ++ [.enumDecl x]) := by
  rw [closeEnum, get_bind_apply, bind_apply, register_ok (t := d.finish s.settings name) hfree] at h
  obtain ⟨_, s₁, hwrite, h⟩ := bind_ok.mp h
  have hrest : s'.output = s₁.output :=
    Keeps.of_ok (.bind (output_log _) fun _ => output_log _) h
  obtain ⟨script, hadd, rfl⟩ := write_ok hwrite
  obtain ⟨written, hwritten, hadd⟩ := bind_eq_ok_iff.mp hadd
  cases hadd
  refine ⟨⟨name, s.settings.language, s.settings.exported, written⟩, rfl, hwritten, ?_⟩
  rw [hrest]
  simp [State.output, decls, Item.isDecl]

/-- In the statement that starts in state `s` an enum is read to its end; in state `s'` its type is to
be declared. -/
structure ClosesEnum (env : Env) (s : State) (keyword : Token) (e₀ : EnumDraft) (s₂ : State)
    (e : EnumDraft) (name : String) (s' : State) : Prop where
  going : s.report.full = false
  opens : ∃ v s₁, peek env s = .ok v s₁ ∧ v.isWord "enum" = true ∧
    enumOpening env s₁ = .ok (keyword, e₀) s₂
  body : ∃ s₃ semicolon, enumMembers keyword e₀ env s₂ = .ok (some e) s₃ ∧
    accept ";" env s₃ = .ok semicolon s'
  named : e.name = some name

theorem ClosesEnum.completes {keyword : Token} {e₀ e₁ : EnumDraft} {s₂ : State}
    (h : ClosesEnum env s keyword e₀ s₂ e₁ name s') : Completes env s (e₁.finish s'.settings name) s' := by
  obtain ⟨v, s₁, next, word, opens⟩ := h.opens
  obtain ⟨s₃, semicolon, body, ends⟩ := h.body
  exact .enum h.going next word opens body ends h.named

/-- A statement that declares an enum and does not fail adds the type and the enum. -/
theorem ClosesEnum.output_eq {keyword : Token} {e₀ e₁ : EnumDraft} {s₂ : State} {r : Round Unit Unit}
    (h : ClosesEnum env s keyword e₀ s₂ e₁ name s') (hround : statementRound () env s = .ok r e) :
    ∃ x : EnumDecl, x.name = name ∧ literals x.language e₁.members = .ok x.members ∧
      e.output = (⟨s.registry.types ++ [e₁.finish s'.settings name]⟩, s.script.decls ++ [.enumDecl x]) := by
  have hregistry := h.completes.registry_eq
  have hfree := h.completes.free
  obtain ⟨v, s₁, next, word, opens⟩ := h.opens
  obtain ⟨s₃, semicolon, body, ends⟩ := h.body
  have hfree' : s'.registry.taken name = false := by rw [hregistry]; exact hfree
  have hdecls : s'.script.decls = s.script.decls := by
    have h₁ : s₁.output = s.output := held_peek.context.declarations.output.of_ok next
    have h₂ : s₂.output = s₁.output := context_enumOpening.declarations.output.of_ok opens
    have h₃ : s₃.output = s₂.output := (output_enumMembers _ _).of_ok body
    have h₄ : s'.output = s₃.output := (held_accept _).context.declarations.output.of_ok ends
    have heq : s'.output = s.output := by rw [h₄, h₃, h₂, h₁]
    exact congrArg Prod.snd heq
  have hstatement : statement env s₁ = closeEnum e₁ name env s' := by
    rw [statement_eq_enumeration next word, enumeration, bind_apply, opens]
    dsimp only
    rw [bind_apply, body]
    dsimp only
    rw [enumClosing, bind_apply, ends]
    dsimp only
    rw [h.named]
  have hkind : v.kind ≠ .eof := by
    rw [kind_of_isWord word]
    decide
  rw [statementRound_attempt h.going next hkind, bind_apply, attempt, tryCatch_apply, hstatement] at hround
  cases hclose : closeEnum e₁ name env s' with
  | error f s₄ =>
    rw [hclose] at hround
    cases f with
    | refused x => exact absurd hclose (unrefused_closeEnum hfree' x)
    | failed f => cases hround
  | ok _ s₄ =>
    rw [hclose] at hround
    cases hround
    obtain ⟨x, hname, hmembers, houtput⟩ := closeEnum_ok hfree' hclose
    rw [hregistry, hdecls] at houtput
    exact ⟨x, hname, hmembers, houtput⟩

theorem Completes.enum_output_eq (h : Completes env s t s') (ht : t.backing ≠ none) {r : Round Unit Unit}
    (hround : statementRound () env s = .ok r e) :
    t.form = .enum ∧ ∃ x : EnumDecl, x.name = t.name ∧
      e.output = (⟨s.registry.types ++ [t]⟩, s.script.decls ++ [.enumDecl x]) := by
  cases h with
  | aggregate enters opens body ends =>
    obtain ⟨name, hfinish⟩ := ends.finish
    obtain ⟨-, rfl⟩ := finish_some hfinish
    exact absurd rfl ht
  | enum going next word opens body ends named =>
    have hcloses : ClosesEnum env s _ _ _ _ _ s' :=
      ⟨going, ⟨_, _, next, word, opens⟩, ⟨_, _, body, ends⟩, named⟩
    obtain ⟨x, hname, -, houtput⟩ := hcloses.output_eq hround
    exact ⟨rfl, x, hname, houtput⟩

/-! ## The whole description -/

/-- The declared types have their classes and enums, and what a class names stands before it. A class
that extends no type extends the class that is set when it is declared. -/
structure Scoped (env : Env) (s₀ s : State) : Prop where
  covers : Covers s.script.decls s.registry.types
  known : ∀ before c after, s.script.decls = before ++ .classDecl c :: after → c.Known before
  root : ∀ c, .classDecl c ∈ s.script.decls → ∃ s₁ t s₂, Runs statementRound env () s₀ () s₁ ∧
    Completes env s₁ t s₂ ∧ t.name = c.name ∧ c.root = s₂.settings.base

/-- The class of a type that is to be declared names only types that are declared. -/
theorem Completes.known {o : OpenClass} (h : Completes env s t s') (ht : t.backing = none)
    (hr : s.registry.Sound) (ho : s'.script.current = some o)
    (hcovers : Covers s.script.decls s.registry.types) (u : Settings) :
    (classOf u ⟨s.registry.types ++ [t]⟩ t o).Known s.script.decls := by
  have hsound := h.sound hr
  have hfields (f : Field) (hf : f ∈ t.fields) : FieldKind.Known s.script.decls f.kind :=
    hcovers.known (hsound.fields f hf)
  refine ⟨fun p hp => ?_, fun a ha => ?_, fun m hm f hf => ?_⟩
  · obtain ⟨q, hq, rfl, haggregate, -⟩ := hsound.parent p (Registry.base?_eq_some hp)
    exact hcovers.hasClass hq haggregate
  · obtain ⟨_, _, as, -, -, has, hserves⟩ := h.serving .start ht
    have heq : accessorsOf o.members = as := by
      rw [State.accessors, accessors?, ho] at has
      exact Option.some.inj has
    have hmem : a ∈ as := by
      rw [← heq]
      exact List.mem_filterMap.mpr ⟨_, ha, rfl⟩
    obtain ⟨f, hf, u', -, haccessor⟩ := exists_served hserves hmem
    exact known_of_accessor haccessor (hfields f (List.mem_filter.mp hf).1)
  · have hall : f ∈ Registry.allFields ⟨s.registry.types ++ [t]⟩ t := by
      unfold classOf at hm
      dsimp only at hm
      split at hm
      · cases hm
        exact (List.mem_filter.mp hf).1
      · cases hm
    -- an inherited field belongs to a type that was declared before
    rcases Registry.mem_allFields hall with hf | ⟨v, hv, hf⟩
    · exact hfields f hf
    rcases List.mem_append.mp hv with hv | hv
    · obtain ⟨earlier, later, hsplit, hv'⟩ := hr.type hv
      have hearlier : Covers s.script.decls earlier := by
        intro x hx
        refine hcovers x ?_
        rw [hsplit]
        exact List.mem_append_left _ hx
      exact hearlier.known (hv'.fields f hf)
    · obtain rfl := List.mem_singleton.mp hv
      exact hfields f hf

theorem Completes.isAggregate (h : Completes env s t s') (ht : t.backing = none)
    (hr : s.registry.Sound) : t.isAggregate = true := by
  unfold TypeInfo.isAggregate
  rw [bne_iff_ne]
  intro henum
  obtain ⟨p, hp, -⟩ := (h.sound hr).backing henum
  rw [ht] at hp
  cases hp

theorem covers_append {items : List Item} {i : Item} (h : Covers items ts) (hi : i.Declares t) :
    Covers (items ++ [i]) (ts ++ [t]) := by
  intro u hu
  rcases List.mem_append.mp hu with hu | hu
  · obtain ⟨j, hj, hdeclares⟩ := h u hu
    exact ⟨j, List.mem_append_left _ hj, hdeclares⟩
  · obtain rfl := List.mem_singleton.mp hu
    exact ⟨i, List.mem_append_right _ (List.mem_singleton_self i), hi⟩

/-- What is added to a scoped script may name what is there. -/
theorem Scoped.append {i : Item} (h : Scoped env s₀ s)
    (houtput : e.output = (⟨s.registry.types ++ [t]⟩, s.script.decls ++ [i])) (hi : i.Declares t)
    (hknown : ∀ c, i = .classDecl c → c.Known s.script.decls)
    (hroot : ∀ c, i = .classDecl c → ∃ s₁ t s₂, Runs statementRound env () s₀ () s₁ ∧
      Completes env s₁ t s₂ ∧ t.name = c.name ∧ c.root = s₂.settings.base) : Scoped env s₀ e := by
  obtain ⟨hregistry, hdecls⟩ := Prod.mk.inj houtput
  constructor
  · rw [hregistry, hdecls]
    exact covers_append h.covers hi
  · intro before c after hsplit
    rw [hdecls] at hsplit
    rcases split_last hsplit with ⟨rfl, hc⟩ | ⟨rest, hsplit⟩
    · exact hknown c hc.symm
    · exact h.known before c rest hsplit
  · intro c hc
    rw [hdecls] at hc
    rcases List.mem_append.mp hc with hc | hc
    · exact h.root c hc
    · exact hroot c (List.mem_singleton.mp hc).symm

/-! ## What a statement writes -/

/-- What a statement that starts in state `s` writes for the type that it declares in state `s'`: the
class with the members that are there then, or an enum. -/
inductive Yields (s : State) (t : TypeInfo) (s' : State) : Item → Prop where
  | aggregate {o : OpenClass} (backing : t.backing = none) (current : s'.script.current = some o) :
      Yields s t s' (.classDecl (classOf s'.settings ⟨s.registry.types ++ [t]⟩ t o))
  | enum {x : EnumDecl} (form : t.form = .enum) (named : x.name = t.name) : Yields s t s' (.enumDecl x)

theorem Yields.declares {i : Item} (h : Yields s t s' i) (ht : Completes env s t s')
    (hr : s.registry.Sound) : i.Declares t := by
  cases h with
  | aggregate backing current => exact ⟨rfl, ht.isAggregate backing hr⟩
  | enum form named => exact ⟨named, form⟩

/-- A statement that does not fail declares nothing, or a type for which it writes one item. -/
theorem output_of_round {r : Round Unit Unit} (hround : statementRound () env s = .ok r e) :
    e.output = s.output ∨ ∃ t s' i, Completes env s t s' ∧ Yields s t s' i ∧
      e.output = (⟨s.registry.types ++ [t]⟩, s.script.decls ++ [i]) := by
  have hregisters := registers_statementRound env s
  rw [after_of_ok hround] at hregisters
  rcases hregisters with hsame | ⟨t, items, ⟨s', ht, -⟩, -⟩
  · exact .inl hsame
  by_cases hbacking : t.backing = none
  · obtain ⟨o, ho, houtput⟩ := ht.output_eq hbacking hround
    exact .inr ⟨t, s', _, ht, .aggregate hbacking ho, houtput⟩
  · obtain ⟨henum, x, hname, houtput⟩ := ht.enum_output_eq hbacking hround
    exact .inr ⟨t, s', _, ht, .enum henum hname, houtput⟩

/-- What holds of the declared types and of what is written at the start, and still holds when a
statement adds a type and its item, holds at the end of a reading that does not fail. -/
theorem items_growth {P : Registry → List Item → Prop} (h₀ : P s₀.registry s₀.script.decls)
    (hP : ∀ s t s' i, Runs statementRound env () s₀ () s → P s.registry s.script.decls →
      Completes env s t s' → Yields s t s' i → P ⟨s.registry.types ++ [t]⟩ (s.script.decls ++ [i]))
    (hnone : (read env s₀).2 = none) : P (read env s₀).1.registry (read env s₀).1.script.decls := by
  refine (read_invariant (P := fun s => P s.registry s.script.decls) h₀ fun s hrun hs => ?_).2
  obtain ⟨r, e, hround, -⟩ := exists_statementRound hrun hnone
  rw [after_of_ok hround]
  rcases output_of_round hround with h | ⟨t, s', i, ht, hi, h⟩
  · obtain ⟨hregistry, hdecls⟩ := Prod.mk.inj h
    rwa [hregistry, hdecls]
  · obtain ⟨hregistry, hdecls⟩ := Prod.mk.inj h
    rw [hregistry, hdecls]
    exact hP s t s' i hrun hs ht hi

/-- A reading that does not fail leads to a scoped script. -/
theorem scoped_read (env : Env) (h₀ : s₀.registry = {}) (hdecls : s₀.script.decls = [])
    (hnone : (read env s₀).2 = none) : Scoped env s₀ (read env s₀).1 := by
  have hsound := (read_sound env h₀).1
  refine items_growth (P := fun r items => ∀ e : State, e.output = (r, items) → Scoped env s₀ e)
    ?_ ?_ hnone _ rfl
  · intro e he
    obtain ⟨hregistry, hitems⟩ := Prod.mk.inj he
    rw [h₀] at hregistry
    rw [hdecls] at hitems
    refine ⟨fun t ht => ?_, fun before c after hsplit => ?_, fun c hc => ?_⟩
    · rw [hregistry] at ht
      cases ht
    · rw [hitems] at hsplit
      simp at hsplit
    · rw [hitems] at hc
      cases hc
  · intro s t s' i hrun hs ht hi e he
    have hbefore := hs s rfl
    have hr := hsound s hrun
    refine hbefore.append he (hi.declares ht hr) (fun c hc => ?_) fun c hc => ?_
    · cases hi with
      | aggregate backing current =>
        cases hc
        exact ht.known backing hr current hbefore.covers s'.settings
      | enum => cases hc
    · cases hi with
      | aggregate backing current =>
        cases hc
        exact ⟨s, t, s', hrun, ht, rfl, rfl⟩
      | enum => cases hc

end Declaration
end RecordView
