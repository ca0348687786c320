import RecordView.Proofs.Declaration.Path
import RecordView.Proofs.Layout.Struct
import RecordView.Proofs.Layout.Members

/-! The declared types at every point of a reading: their names are free when they are declared, they
refer to earlier types only, and they are sound. -/
namespace RecordView
variable {keyword : Token} {ts : List TypeInfo} {t : TypeInfo}

namespace Declaration
open Reader Draft

variable {env : Env} {s s' : State} {d d' : Draft} {e e' : EnumDraft} {t : TypeInfo}

/-! ## Enums -/

theorem backingType_ok {p : Primitive} (h : backingType env s = .ok p s') : p.isInteger = true := by
  obtain ⟨colon, s₁, -, h⟩ := bind_ok.mp h
  have last {t : Token} {s₂ : State} (h : replaceBacking t env s₂ = .ok p s') : p.isInteger = true := by
    obtain ⟨_, s₃, -, h⟩ := bind_ok.mp h
    cases h
    rfl
  split at h
  · obtain ⟨t, s₂, -, h⟩ := bind_ok.mp h
    generalize Builtin.ofName? t.text = b at h
    cases b with
    | none => exact last h
    | some b =>
      cases b with
      | boolean => exact last h
      | number q =>
        dsimp only at h
        split at h
        · rename_i hq
          cases h
          exact hq
        · exact last h
  · cases h
    rfl

theorem enumOpening_ok (h : enumOpening env s = .ok (keyword, e) s') :
    e.backing.isInteger = true ∧ (∀ n, e.name = some n → s.registry.taken n = false) ∧
      e.members = [] ∧ e.next = some 0 := by
  obtain ⟨_, name, backing, _, _, s₁, -, hbacking, hr, h⟩ := headed_ok tokenPath_held.backingType h
  obtain ⟨_, _, hget, h⟩ := bind_ok.mp h
  cases hget
  dsimp only at h
  generalize hg : name.filter (fun t => !s₁.registry.taken t.text) = given at h
  have he : e = { name := given.map (·.text), backing } := by
    cases name with
    | none =>
      cases h
      rfl
    | some t =>
      cases given with
      | none =>
        obtain ⟨_, s₈, -, h⟩ := bind_ok.mp h
        cases h
        rfl
      | some u =>
        cases h
        rfl
  subst he
  refine ⟨backingType_ok hbacking, fun n hn => ?_, rfl, rfl⟩
  · rw [Option.map_eq_some_iff] at hn
    obtain ⟨t, ht, rfl⟩ := hn
    rw [← hg] at ht
    have hfree := (Option.filter_eq_some_iff.mp ht).2
    rw [hr] at hfree
    simpa using hfree

/-- An enum stays the same but for its members. -/
def EnumDraft.head (e : EnumDraft) : Option String × Primitive := (e.name, e.backing)

theorem head_enumerator (h : enumerator e env s = .ok e' s') : e'.head = e.head := by
  obtain ⟨_, _, _, _, _, -, -, -, -, rfl, -⟩ := enumerator_ok h
  rfl

theorem enumMember_ok (h : enumMember e env s = .ok e' s') : e'.head = e.head := by
  obtain ⟨t, s₁, -, h⟩ := bind_ok.mp h
  split at h
  · obtain ⟨_, s₂, -, h⟩ := bind_ok.mp h
    obtain ⟨_, s₃, -, h⟩ := bind_ok.mp h
    cases h
    rfl
  split at h
  · obtain ⟨_, s₂, -, h⟩ := bind_ok.mp h
    cases h
    rfl
  · exact head_enumerator h

theorem enumMembers_ok {e₀ : EnumDraft} (h : enumMembers keyword e₀ env s = .ok (some e) s') :
    e.head = e₀.head := by
  obtain ⟨e₁, s₁, hr, hd⟩ := rounds_ok h
  have hrun : e₁.head = e₀.head := by
    clear hd h
    induction hr with
    | start => rfl
    | next before round _ ih =>
      cases turn_of_enumRound round with
      | member _ _ _ read =>
        rcases attempt_ok read with hmember | ⟨rfl, -⟩
        · rw [enumMember_ok hmember, ih]
        · exact ih
  cases turn_of_enumRound hd with
  | bodyEnd => exact hrun

/-! ## Names -/

theorem typedefName_free (h : typedefName d env s = .ok d' s') (hd : d'.discarded = false) :
    ∀ n, d'.name = some n → s.registry.taken n = false := by
  obtain ⟨t, s₁, h₁, h⟩ := bind_ok.mp h
  split at h
  · obtain ⟨_, s₂, -, h⟩ := bind_ok.mp h
    cases h
    cases hd
  obtain ⟨_, s₂, h₂, h⟩ := bind_ok.mp h
  have hr : s₂.registry = s.registry := by
    rw [held_advance.context.declarations.registry.of_ok h₂,
      held_peek.context.declarations.registry.of_ok h₁]
  rw [get_bind_apply, hr] at h
  split at h
  · obtain ⟨_, s₄, -, h⟩ := bind_ok.mp h
    cases h
    cases hd
  · rename_i hfree
    cases h
    intro n hn
    cases hn
    exact Bool.eq_false_iff.mpr hfree

/-- Until a type is declared, the declared ones are those at the start of its statement. -/
theorem Completes.registry_eq (h : Completes env s t s') : s'.registry = s.registry := by
  cases h with
  | @enum _ _ _ s₂ s₃ _ _ _ _ _ going next word opens body ends =>
    have hbody : s₃.registry = s₂.registry := congrArg Prod.fst ((output_enumMembers _ _).of_ok body)
    rw [(held_accept _).context.declarations.registry.of_ok ends, hbody,
      context_enumOpening.declarations.registry.of_ok opens,
      held_peek.context.declarations.registry.of_ok next]
  | @aggregate _ _ s₁ s₂ s₃ _ d _ _ enters opens body ends =>
    have hends : s'.registry = s₃.registry := congrArg (·.2.1) ends.context
    have henters : s₁.registry = s.registry := congrArg (·.2.1) enters.context
    rw [hends, (declarations_members d).registry.of_ok body,
      (context_opening _ _).declarations.registry.of_ok opens, henters]

/-- A type that is to be declared has a name that is free. -/
theorem Completes.free (h : Completes env s t s') : s.registry.taken t.name = false := by
  cases h with
  | @enum _ _ s₁ _ _ _ e₀ e _ name going next word opens body ends named =>
    obtain ⟨-, hfree, -⟩ := enumOpening_ok opens
    have hname : e.name = e₀.name := congrArg Prod.fst (enumMembers_ok body)
    have hr : s₁.registry = s.registry := held_peek.context.declarations.registry.of_ok next
    rw [← hr]
    exact hfree name (by rw [← hname, named])
  | @aggregate form typedef s₁ s₂ s₃ _ d d₁ _ enters opens body ends =>
    obtain ⟨hf, hr₂⟩ := enters.fresh opens
    obtain ⟨d₂, s₄, hrun, hdone⟩ := members_ok body
    obtain ⟨-, rfl, hs₃⟩ := memberRound_done hdone
    have hfollows := (runs_follows hrun).trans (follows_flush s₄.settings d₂)
    obtain ⟨d', _, _, name, hname, -, hkept, hn, ht⟩ := ends
    have htn : t.name = name := by
      unfold finish at ht
      split at ht
      · cases ht
      · cases ht
        rfl
    rw [htn]
    cases typedef with
    | false =>
      cases hname
      refine hf.free ?_ name ?_
      · rw [← hfollows.discarded, hkept]
      · rw [← hfollows.name, hn]
    | true =>
      have hr₃ : s₃.registry = s.registry := by
        rw [(declarations_members _).registry.of_ok body, hr₂]
      rw [← hr₃]
      exact typedefName_free hname hkept name hn

end Declaration

/-! ## Extended types -/

namespace Registry

/-- The types have different names, and each extends an earlier one, if it extends any. -/
structure Ordered (ts : List TypeInfo) : Prop where
  distinct : (ts.map (·.name)).Nodup
  earlier : ∀ pre t post, ts = pre ++ t :: post →
    ∀ name, t.parent = some name → ∃ p ∈ pre, p.name = name

theorem Ordered.take {us : List TypeInfo} (h : Ordered (ts ++ us)) : Ordered ts := by
  constructor
  · have hd := h.distinct
    rw [List.map_append] at hd
    exact (List.nodup_append.mp hd).1
  · intro pre t post ht
    exact h.earlier pre t (post ++ us) (by rw [ht, List.append_assoc, List.cons_append])

theorem find?_of_mem (h : (ts.map (·.name)).Nodup) (ht : t ∈ ts) : find? ⟨ts⟩ t.name = some t := by
  induction ts with
  | nil => cases ht
  | cons u us ih =>
    rw [List.map_cons, List.nodup_cons] at h
    unfold find?
    rcases List.mem_cons.mp ht with rfl | ht
    · simp
    · have hne : u.name ≠ t.name := fun he => h.1 (he ▸ List.mem_map_of_mem ht)
      rw [List.find?_cons_of_neg (by simpa using hne)]
      exact ih h.2 ht

theorem base?_eq_some {name : String} (h : t.base? = some name) :
    t.parent = some name := (Option.filter_eq_some_iff.mp h).1

/-- The walk from a type to the one that it extends, and on from there, ends with these types. Nothing
bounds it: in a circle it would not end. -/
inductive Ascends (r : Registry) : TypeInfo → List TypeInfo → Prop where
  | top {t : TypeInfo} (last : t.base?.bind r.find? = none) : Ascends r t [t]
  | parent {t p : TypeInfo} {us : List TypeInfo} (found : t.base?.bind r.find? = some p)
      (rest : Ascends r p us) : Ascends r t (t :: us)

theorem Ascends.unique {r : Registry} {us vs : List TypeInfo} (h : Ascends r t us) (h' : Ascends r t vs) :
    us = vs := by
  induction h generalizing vs with
  | top last =>
    cases h' with
    | top => rfl
    | parent found =>
      rw [last] at found
      cases found
  | parent found rest ih =>
    cases h' with
    | top last =>
      rw [found] at last
      cases last
    | parent found' rest' =>
      rw [found] at found'
      cases found'
      rw [ih rest']

/-- What a type extends is found before it. -/
theorem Ordered.find {pre post : List TypeInfo} {name : String} (h : Ordered ts) (ht : ts = pre ++ t :: post)
    (hn : t.parent = some name) : ∃ p ∈ pre, find? ⟨ts⟩ name = some p := by
  obtain ⟨p, hp, rfl⟩ := h.earlier pre t post ht name hn
  exact ⟨p, hp, find?_of_mem h.distinct (ht ▸ List.mem_append_left _ hp)⟩

/-- The types before a type are fewer than all, so the bound is never reached. -/
theorem Ordered.ascends_of_le {pre post : List TypeInfo} {k : Nat} (h : Ordered ts)
    (ht : ts = pre ++ t :: post) (hk : pre.length ≤ k) : Ascends ⟨ts⟩ t (lineage ⟨ts⟩ k t) := by
  -- along the bound: the type that is extended has one type less before it
  induction k generalizing pre t post with
  | zero =>
    refine .top ?_
    cases hb : t.base? with
    | none => rfl
    | some name =>
      obtain ⟨p, hp, -⟩ := h.find ht (base?_eq_some hb)
      rw [List.eq_nil_of_length_eq_zero (Nat.le_zero.mp hk)] at hp
      cases hp
  | succ k ih =>
    rw [lineage]
    cases hb : t.base?.bind (find? ⟨ts⟩) with
    | none => exact .top hb
    | some p =>
      obtain ⟨name, hname, hfound⟩ := Option.bind_eq_some_iff.mp hb
      obtain ⟨q, hq, hfound'⟩ := h.find ht (base?_eq_some hname)
      rw [hfound] at hfound'
      cases hfound'
      obtain ⟨a, b, rfl⟩ := List.append_of_mem hq
      rw [List.length_append, List.length_cons] at hk
      have hsplit : ts = a ++ p :: (b ++ t :: post) := by rw [ht]; simp
      exact .parent hb (ih hsplit (by omega))

theorem Ordered.ascends (h : Ordered ts) (ht : t ∈ ts) : Ascends ⟨ts⟩ t (lineage ⟨ts⟩ ts.length t) := by
  obtain ⟨pre, post, heq⟩ := List.append_of_mem ht
  refine h.ascends_of_le heq ?_
  rw [heq, List.length_append]
  exact Nat.le_add_right _ _

theorem allFields_of_none (h : t.base? = none) (r : Registry) : r.allFields t = t.fields := by
  have hlineage (n : Nat) : r.lineage n t = [t] := by
    cases n with
    | zero => rfl
    | succ n =>
      rw [lineage, h]
      rfl
  simp [allFields, hlineage]

/-- The fields of a type are its own, after those of the type that it extends. -/
theorem allFields_parent {p : TypeInfo} (h : Ordered ts) (ht : t ∈ ts)
    (hp : t.base?.bind (find? ⟨ts⟩) = some p) :
    allFields ⟨ts⟩ t = allFields ⟨ts⟩ p ++ t.fields := by
  obtain ⟨name, -, hfound⟩ := Option.bind_eq_some_iff.mp hp
  have hrest := h.ascends (List.mem_of_find?_eq_some hfound)
  unfold allFields
  rw [(h.ascends ht).unique (.parent hp hrest)]
  simp

/-- A type extends the same types whatever is declared later. -/
theorem Ascends.append {us vs : List TypeInfo} (hv : Ascends ⟨ts⟩ t vs) (h : Ordered (ts ++ us)) (ht : t ∈ ts) :
    Ascends ⟨ts ++ us⟩ t vs := by
  induction hv with
  | @top t last =>
    refine .top ?_
    cases hb : t.base? with
    | none => rfl
    | some name =>
      obtain ⟨pre, post, heq⟩ := List.append_of_mem ht
      obtain ⟨p, -, hfound⟩ := h.take.find heq (base?_eq_some hb)
      rw [hb, Option.bind_some, hfound] at last
      cases last
  | parent found rest ih =>
    obtain ⟨name, hname, hfound⟩ := Option.bind_eq_some_iff.mp found
    refine .parent ?_ (ih (List.mem_of_find?_eq_some hfound))
    rw [hname, Option.bind_some]
    exact Declaration.find?_append hfound us

theorem allFields_append {us : List TypeInfo} (h : Ordered (ts ++ us)) (ht : t ∈ ts) :
    allFields ⟨ts ++ us⟩ t = allFields ⟨ts⟩ t := by
  unfold allFields
  rw [(h.ascends (List.mem_append_left us ht)).unique ((h.take.ascends ht).append h ht)]

theorem allFields_last (h : Ordered (ts ++ [t])) :
    allFields ⟨ts ++ [t]⟩ t = t.fields ∨
      ∃ p ∈ ts, t.parent = some p.name ∧
        allFields ⟨ts ++ [t]⟩ t = allFields ⟨ts⟩ p ++ t.fields := by
  cases hb : t.base? with
  | none => exact .inl (allFields_of_none hb _)
  | some name =>
    have hparent := base?_eq_some hb
    obtain ⟨p, hp, rfl⟩ := h.earlier ts t [] rfl name hparent
    have hfound := find?_of_mem h.distinct (List.mem_append_left _ hp)
    refine .inr ⟨p, hp, hparent, ?_⟩
    rw [allFields_parent h (by simp) (by rw [hb, Option.bind_some, hfound]), allFields_append h hp]

end Registry

/-! ## Sound types -/

/-- A part of a list to which one more was added is the new one, or was there before. -/
theorem split_last {α : Type} {ts earlier later : List α} {t u : α}
    (h : ts ++ [t] = earlier ++ u :: later) :
    (earlier = ts ∧ u = t) ∨ ∃ rest, ts = earlier ++ u :: rest := by
  rcases List.eq_nil_or_concat' later with rfl | ⟨rest, v, rfl⟩
  · obtain ⟨rfl, hu⟩ := List.append_inj' h rfl
    cases hu
    exact .inl ⟨rfl, rfl⟩
  · rw [← List.cons_append, ← List.append_assoc] at h
    exact .inr ⟨rest, (List.append_inj' h rfl).1⟩

/-- What is known of a declared type, if these are the types before it. -/
structure TypeInfo.Sound (earlier : List TypeInfo) (t : TypeInfo) : Prop where
  bytes : 1 ≤ t.byteLength
  alignment : t.alignment ∈ [1, 2, 4, 8]
  aligned : IsLeast {n | t.byteLength ≤ n ∧ t.alignment ∣ n} t.alignedLength
  parent : ∀ name, t.parent = some name → ∃ p ∈ earlier, p.name = name ∧ p.isAggregate = true ∧
    p.hasFlexible = false ∧ p.byteLength ≤ t.byteLength
  backing : t.form = .enum → ∃ p : Primitive, t.backing = some p ∧ p.isInteger = true ∧
    p.bytes ∈ [1, 2, 4] ∧ t.byteLength = p.bytes
  fields : ∀ f ∈ t.fields, f.kind.Sound earlier

namespace Registry

variable {r : Registry} {t : TypeInfo}

structure Sound (r : Registry) : Prop where
  distinct : (r.types.map (·.name)).Nodup
  free : ∀ t ∈ r.types, t.name ∉ Builtin.reserved
  types : ∀ earlier t later, r.types = earlier ++ t :: later → t.Sound earlier
  fields : ∀ t ∈ r.types, ((r.allFields t).map (·.name)).Nodup

theorem sound_empty : Sound {} := by
  refine ⟨List.nodup_nil, nofun, fun earlier t later h => ?_, nofun⟩
  have hlength := congrArg List.length h
  simp at hlength

theorem Sound.type (h : r.Sound) (ht : t ∈ r.types) : ∃ earlier later,
    r.types = earlier ++ t :: later ∧ t.Sound earlier := by
  obtain ⟨earlier, later, heq⟩ := List.append_of_mem ht
  exact ⟨earlier, later, heq, h.types _ _ _ heq⟩

theorem Sound.regular (h : r.Sound) : r.Regular := by
  intro t ht
  obtain ⟨_, _, -, hs⟩ := h.type ht
  exact hs.alignment

theorem Sound.aligned (h : r.Sound) : r.Aligned := by
  intro t ht
  have hmem := h.regular t ht
  simp only [List.mem_cons, List.not_mem_nil, or_false] at hmem
  omega

theorem Sound.backed (h : r.Sound) : r.Backed := by
  intro t ht hform
  obtain ⟨_, _, -, hs⟩ := h.type ht
  obtain ⟨p, hp, -⟩ := hs.backing hform
  rw [hp]
  nofun

theorem Sound.ordered (h : r.Sound) : Ordered r.types := by
  refine ⟨h.distinct, fun pre t post heq name hname => ?_⟩
  obtain ⟨p, hp, hn, -⟩ := (h.types pre t post heq).parent name hname
  exact ⟨p, hp, hn⟩

theorem not_taken (h : r.taken t.name = false) :
    t.name ∉ r.types.map (·.name) ∧ t.name ∉ Builtin.reserved := by
  simp only [taken, Bool.or_eq_false_iff] at h
  refine ⟨fun hmem => ?_, by simpa using h.2⟩
  obtain ⟨u, hu, hn⟩ := List.mem_map.mp hmem
  have hnone : r.types.find? (·.name == t.name) = none := by simpa [contains, find?] using h.1
  have hne := List.find?_eq_none.mp hnone u hu
  exact hne (by simpa using hn)

theorem Ordered.last (h : r.Sound) (hfree : r.taken t.name = false) (ht : t.Sound r.types) :
    Ordered (r.types ++ [t]) := by
  constructor
  · rw [List.map_append, List.nodup_append]
    refine ⟨h.distinct, by simp, fun a ha b hb heq => ?_⟩
    obtain rfl := List.mem_singleton.mp hb
    rw [heq] at ha
    exact (not_taken hfree).1 ha
  · intro pre u post heq name hname
    rcases split_last heq with ⟨rfl, rfl⟩ | ⟨rest, heq⟩
    · obtain ⟨p, hp, hn, -⟩ := ht.parent name hname
      exact ⟨p, hp, hn⟩
    · exact h.ordered.earlier pre u rest heq name hname

/-- A sound type with a free name, whose fields have different names, can be added. -/
theorem Sound.append (h : r.Sound) (hfree : r.taken t.name = false) (ht : t.Sound r.types)
    (hfields : ((allFields ⟨r.types ++ [t]⟩ t).map (·.name)).Nodup) : Sound ⟨r.types ++ [t]⟩ := by
  have hordered := Ordered.last h hfree ht
  refine ⟨hordered.distinct, ?_, ?_, ?_⟩
  · intro u hu
    rcases List.mem_append.mp hu with hu | hu
    · exact h.free u hu
    · obtain rfl := List.mem_singleton.mp hu
      exact (not_taken hfree).2
  · intro earlier u later heq
    rcases split_last heq with ⟨rfl, rfl⟩ | ⟨rest, heq⟩
    · exact ht
    · exact h.types earlier u rest heq
  · intro u hu
    rcases List.mem_append.mp hu with hu | hu
    · rw [allFields_append hordered hu]
      exact h.fields u hu
    · obtain rfl := List.mem_singleton.mp hu
      exact hfields

end Registry

namespace Declaration
open Reader Draft

variable {env : Env} {s s' : State} {d d' : Draft} {t : TypeInfo} {form : Form} {r : Registry}

/-! ## The body of a declaration -/

structure Closed (r : Registry) (d₀ d : Draft) : Prop where
  follows : Follows d₀ d
  regular : d.Regular
  named : d.Named d₀.names
  kinds : ∀ f ∈ d.fields, f.kind.Sound r.types

theorem closed_members (hf : Fresh s.registry form d) (hr : s.registry.Sound)
    (hn : d.names.Nodup) (h : members d env s = .ok (some d') s') : Closed s.registry d d' := by
  obtain ⟨d₁, s₁, hrun, hdone⟩ := members_ok h
  obtain ⟨-, rfl, -⟩ := memberRound_done hdone
  obtain ⟨ho, hb⟩ := runs_packable hrun hf
  have hplain := plain_flush s₁.settings (runs_plain hrun hf hr.backed)
  refine ⟨(runs_follows hrun).trans (follows_flush _ d₁),
    regular_flush _ (runs_regular hrun hf hr.regular),
    (runs_named hrun hf hn).subperm (continues_flush _ d₁).names (declared_flush _ d₁).subperm, ?_⟩
  intro f hfield
  have hmem : f ∈ (d₁.flush s₁.settings).fields ++ (d₁.flush s₁.settings).waiting :=
    List.mem_append_left _ hfield
  rcases hplain f.label (List.mem_map_of_mem hmem) with ⟨b, hkind⟩ | hsound
  · -- a bit field has its word from a run that waited in the body, or from the last one
    have hkind : f.kind = .bits b := hkind
    have hslice : (f.name, b) ∈ (d₁.flush s₁.settings).slices :=
      List.mem_filterMap.mpr ⟨f, hmem, by rw [Field.slice?, hkind]⟩
    rw [slices_flush ho, List.mem_append] at hslice
    rw [hkind]
    rcases hslice with hslice | hslice
    · obtain ⟨run, order, hrun, hx⟩ := runs_slices hrun hf _ hslice
      exact BitRun.sound_slice hrun hx _
    · exact BitRun.sound_slice hb hslice _
  · exact hsound

theorem Closed.distinct {d₀ : Draft} (h : Closed r d₀ d) :
    (d₀.names ++ d.fields.map (·.name)).Nodup := by
  refine h.named.distinct.sublist (List.Sublist.append (List.Sublist.refl _) ?_)
  have hlabels : d.labels.map (·.1) = d.fields.map (·.name) ++ d.waiting.map (·.name) := by
    rw [labels, List.map_map, List.map_append]
    rfl
  rw [Draft.declared, hlabels, List.append_assoc]
  exact List.sublist_append_left _ _

/-! ## What a statement declares -/

theorem Fresh.names_nodup (hf : Fresh r form d) (hr : r.Sound) : d.names.Nodup := by
  rcases hf.start with ⟨-, hn, -⟩ | ⟨p, hp, -, -, -, hn, -⟩
  · rw [hn]
    exact List.nodup_nil
  · rw [hn]
    exact hr.fields p (List.mem_of_find?_eq_some hp)

theorem Enters.form_ne {typedef : Bool} (h : Enters env s form typedef s') : form ≠ .enum := by
  cases h with
  | declaration _ _ _ ne => exact ne
  | typedef _ _ _ _ _ _ ne => exact ne

theorem isLeast_aligned {a n : Nat} (h : a ∈ [1, 2, 4, 8]) :
    IsLeast {m | n ≤ m ∧ a ∣ m} (alignUp n a) := by
  refine isLeast_alignUp ?_
  simp only [List.mem_cons, List.not_mem_nil, or_false] at h
  omega

/-- What a body extends is declared before it, and comes before all that is placed in it. -/
theorem Closes.parent_sound {typedef : Bool} {s₁ : State} (hcloses : Closes env d s' t)
    (enters : Enters env s form typedef s₁) (opens : opening form typedef env s₁ = .ok d s')
    (hf : Fresh s'.registry form d) (hr : s'.registry.Sound) {name : String}
    (hn : t.parent = some name) :
    ∃ p, s'.registry.find? name = some p ∧ p.name = name ∧ p.isAggregate = true ∧ p.hasFlexible = false ∧
      p.byteLength ≤ t.byteLength ∧ ∀ f ∈ t.fields, p.byteLength ≤ f.offset := by
  rw [hcloses.parent_eq] at hn
  rcases hf.start with ⟨hnone, -⟩ | ⟨p, hp, hd, hcursor, -, -, haggregate, hflexible, hunion⟩
  · rw [hnone] at hn
    cases hn
  rw [hd] at hn
  cases hn
  -- only a struct extends a type, and its units come after those of that type
  have hstruct : form = .struct := by
    cases form with
    | struct => rfl
    | union => exact absurd rfl hunion
    | enum => exact absurd rfl enters.form_ne
  subst hstruct
  obtain ⟨us, hlaid⟩ := closes_laidOut ⟨s, s₁, _, _, .start, enters, opens⟩ hf hr.aligned hcloses
  refine ⟨p, hp, rfl, haggregate, hflexible, ?_, fun f hfield => ?_⟩
  · rw [← hcursor]
    exact hlaid.tiled.base_le
  · rw [hlaid.fields] at hfield
    rw [← hcursor]
    exact (hlaid.tiled.field_bounds hlaid.sound f hfield).1

/-- A statement declares a sound type. -/
theorem Completes.sound (h : Completes env s t s') (hr : s.registry.Sound) :
    t.Sound s.registry.types := by
  cases h with
  | @enum _ _ _ _ _ _ e₀ e _ name going next word opens body ends named =>
    have hhead : e.backing = e₀.backing := congrArg Prod.snd (enumMembers_ok body)
    have hinteger : e.backing.isInteger = true := by
      rw [hhead]
      exact (enumOpening_ok opens).1
    have halign := min_pack_mem s'.settings.pack (primitive_bytes_mem e.backing)
    exact ⟨bytes_pos _, halign, isLeast_aligned halign, nofun,
      fun _ => ⟨e.backing, rfl, hinteger, integer_bytes hinteger, rfl⟩, nofun⟩
  | @aggregate form typedef s₁ s₂ s₃ _ d d₁ _ enters opens body ends =>
    obtain ⟨hf, hr₂⟩ := enters.fresh opens
    obtain ⟨name, ht⟩ := ends.finish
    rw [← hr₂] at hf hr ⊢
    have hclosed := closed_members hf hr (hf.names_nodup hr) body
    have halign := min_pack_mem s₃.settings.pack hclosed.regular.full
    obtain ⟨hsize, heq⟩ := finish_some ht
    have hcloses := ends.closes body
    refine ⟨?_, ?_, ?_, fun name hn => ?_, ?_, ?_⟩
    · rw [heq]
      exact Nat.one_le_iff_ne_zero.mpr hsize
    · rw [heq]
      exact halign
    · rw [heq]
      exact isLeast_aligned halign
    · obtain ⟨p, hp, hname, haggregate, hflexible, hle, -⟩ :=
        hcloses.parent_sound enters opens hf hr hn
      exact ⟨p, List.mem_of_find?_eq_some hp, hname, haggregate, hflexible, hle⟩
    · intro henum
      rw [hcloses.form_eq, hf.form_eq] at henum
      exact absurd henum enters.form_ne
    · rw [heq]
      exact hclosed.kinds

/-- The fields of a declared type and those that it inherits have different names. -/
theorem Completes.distinct (h : Completes env s t s') (hr : s.registry.Sound) :
    ((Registry.allFields ⟨s.registry.types ++ [t]⟩ t).map (·.name)).Nodup := by
  have hordered := Registry.Ordered.last hr h.free (h.sound hr)
  have hlast := Registry.allFields_last hordered
  cases h with
  | enum =>
    rcases hlast with hfields | ⟨p, -, hparent, -⟩
    · rw [hfields]
      exact List.nodup_nil
    · cases hparent
  | @aggregate form typedef s₁ s₂ s₃ _ d d₁ _ enters opens body ends =>
    obtain ⟨hf, hr₂⟩ := enters.fresh opens
    obtain ⟨name, ht⟩ := ends.finish
    have hnames := hf.names_nodup hr
    rw [← hr₂] at hf hr
    have hclosed := closed_members hf hr hnames body
    have hdistinct := hclosed.distinct
    obtain ⟨-, heq⟩ := finish_some ht
    have hfields : t.fields = d₁.fields := by rw [heq]
    have hparent : t.parent = d.parent := (ends.closes body).parent_eq
    rw [hr₂] at hf hr
    rcases hlast with hall | ⟨p, hp, hn, hall⟩
    · rw [hall, hfields]
      exact (List.nodup_append.mp hdistinct).2.1
    · rcases hf.start with ⟨hnone, -⟩ | ⟨q, hq, hd, -, -, hinherited, -⟩
      · rw [hparent, hnone] at hn
        cases hn
      · have hpq : p = q := by
          have hname : p.name = q.name := by
            rw [hparent, hd] at hn
            exact (Option.some.inj hn).symm
          have hfound := Registry.find?_of_mem hr.distinct hp
          rw [hname] at hfound
          exact Option.some.inj (hfound.symm.trans hq)
        subst hpq
        rw [hall, hfields, List.map_append, ← hinherited]
        exact hdistinct

/-! ## All points of a reading -/

/-- The points of the reading of a description: before each statement, before each member of a body
and of an enum, where a type is to be declared, and the end. -/
inductive Visits (env : Env) (s₀ : State) : State → Prop where
  | statement {s : State} (before : Runs statementRound env () s₀ () s) : Visits env s₀ s
  | member {d₀ d : Draft} {s₁ s : State} (opens : Opens env s₀ d₀ s₁)
      (body : Runs memberRound env d₀ s₁ d s) : Visits env s₀ s
  | enumerator {t keyword : Token} {e₀ e : EnumDraft} {s₁ s₂ s₃ s : State}
      (before : Runs statementRound env () s₀ () s₁) (going : s₁.report.full = false)
      (next : peek env s₁ = .ok t s₂) (word : t.isWord "enum" = true)
      (opens : enumOpening env s₂ = .ok (keyword, e₀) s₃)
      (body : Runs (enumRound keyword) env e₀ s₃ e s) : Visits env s₀ s
  | declaration {s s' : State} {t : TypeInfo} (before : Runs statementRound env () s₀ () s)
      (completes : Completes env s t s') : Visits env s₀ s'
  | last : Visits env s₀ (read env s₀).1

/-- The declared types are at all points as they are before a statement, or as at the end. -/
theorem Visits.registry_eq {s₀ : State} (h : Visits env s₀ s) :
    (∃ s₁, Runs statementRound env () s₀ () s₁ ∧ s.registry = s₁.registry) ∨
      s = (read env s₀).1 := by
  cases h with
  | statement before => exact .inl ⟨s, before, rfl⟩
  | member opens body =>
    obtain ⟨s₁, s₂, form, typedef, before, enters, hopen⟩ := opens
    refine .inl ⟨s₁, before, ?_⟩
    rw [runs_registry body, (enters.fresh hopen).2]
  | @enumerator _ _ _ _ _ _ s₃ _ before going next word opens body =>
    have hbody : s.registry = s₃.registry :=
      congrArg Prod.fst (body.keeps (asidePath_output.enumRound output_enumerator _))
    refine .inl ⟨_, before, ?_⟩
    rw [hbody, context_enumOpening.declarations.registry.of_ok opens,
      held_peek.context.declarations.registry.of_ok next]
  | declaration before completes => exact .inl ⟨_, before, completes.registry_eq⟩
  | last => exact .inr rfl

theorem read_sound (env : Env) {s₀ : State} (h₀ : s₀.registry = {}) :
    (∀ s, Runs statementRound env () s₀ () s → s.registry.Sound) ∧
      (read env s₀).1.registry.Sound := by
  have hstart : s₀.registry.Sound := by
    rw [h₀]
    exact Registry.sound_empty
  exact registry_growth hstart fun s t s' _ hs ht =>
    hs.append ht.free (ht.sound hs) (ht.distinct hs)

/-- The declared types are sound at every point of a reading, and no declaration is refused because
its name is taken. -/
theorem registry_sound (env : Env) (s₀ : State) (h₀ : s₀.registry = {}) :
    (∀ s, Visits env s₀ s → s.registry.Sound) ∧
      ∀ s t s', Runs statementRound env () s₀ () s → Completes env s t s' →
        register t env s' = .ok () { s' with registry := ⟨s.registry.types ++ [t]⟩ } := by
  obtain ⟨hruns, hlast⟩ := read_sound env h₀
  constructor
  · intro s h
    rcases h.registry_eq with ⟨s₁, hr, heq⟩ | rfl
    · rw [heq]
      exact hruns s₁ hr
    · exact hlast
  · intro s t s' _ ht
    have heq := ht.registry_eq
    rw [← heq]
    exact register_ok (by rw [heq]; exact ht.free)

/-- A struct, one that extends it and holds it, and an enum. -/
def heirTokens : List Token :=
  [⟨.identifier, "struct", "", 1, 1⟩, ⟨.identifier, "A", "", 1, 8⟩, ⟨.leftBrace, "\x7b", "", 1, 10⟩,
   ⟨.identifier, "Uint16", "", 2, 1⟩, ⟨.identifier, "a", "", 2, 8⟩, ⟨.semicolon, ";", "", 2, 9⟩,
   ⟨.rightBrace, "\x7d", "", 3, 1⟩, ⟨.semicolon, ";", "", 3, 2⟩,
   ⟨.identifier, "struct", "", 4, 1⟩, ⟨.identifier, "B", "", 4, 8⟩, ⟨.colon, ":", "", 4, 10⟩,
   ⟨.identifier, "A", "", 4, 12⟩, ⟨.leftBrace, "\x7b", "", 4, 14⟩,
   ⟨.identifier, "Boolean", "", 5, 1⟩, ⟨.identifier, "b", "", 5, 9⟩, ⟨.semicolon, ";", "", 5, 10⟩,
   ⟨.identifier, "A", "", 6, 1⟩, ⟨.identifier, "c", "", 6, 3⟩, ⟨.semicolon, ";", "", 6, 4⟩,
   ⟨.rightBrace, "\x7d", "", 7, 1⟩, ⟨.semicolon, ";", "", 7, 2⟩,
   ⟨.identifier, "enum", "", 8, 1⟩, ⟨.identifier, "C", "", 8, 6⟩, ⟨.leftBrace, "\x7b", "", 8, 8⟩,
   ⟨.identifier, "d", "", 9, 1⟩, ⟨.rightBrace, "\x7d", "", 10, 1⟩, ⟨.semicolon, ";", "", 10, 2⟩,
   ⟨.eof, "", "", 11, 1⟩]

theorem registry_sound_heir :
    (read ⟨"__", fun _ => ""⟩ { unread := heirTokens }).1.registry.types.map
        (fun t => (t.name, t.parent, t.byteLength, t.alignedLength)) =
      [("A", none, 2, 2), ("B", some "A", 6, 6), ("C", none, 4, 4)] ∧
      (read ⟨"__", fun _ => ""⟩ { unread := heirTokens }).1.registry.Sound := by
  refine ⟨by decide +kernel, ?_⟩
  exact (registry_sound ⟨"__", fun _ => ""⟩ { unread := heirTokens } rfl).1 _ .last

end Declaration
end RecordView
