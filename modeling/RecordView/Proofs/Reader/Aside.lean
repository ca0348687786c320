import RecordView.Proofs.Declaration.Twin

/-! Readings that stay where they are in the stream: they look at no token, and do the same wherever
they are. -/
namespace RecordView.Declaration
open Reader

variable {α β : Type} {env : Env} {s s' u u' : State} {m : Reader α} {x y x' : Script} {settings : Settings}

def State.movedTo (s p : State) : State :=
  { s with
    unread := p.unread, frames := p.frames, ahead := p.ahead, eof := p.eof, last := p.last,
    taken := p.taken }

def carry (f : State → State) : EStateM.Result (Halt Diagnostic) State α →
    EStateM.Result (Halt Diagnostic) State α
  | .ok a s => .ok a (f s)
  | .error e s => .error e (f s)

/-- Two states with the same declarations, settings and errors, and with an open class both or
neither. What was written and taken may differ. -/
structure Core (s u : State) : Prop where
  declared : s.declared = u.declared
  constants : s.constants = u.constants
  settings : s.settings = u.settings
  registry : s.registry = u.registry
  current : s.script.current.isSome = u.script.current.isSome
  limit : s.report.limit = u.report.limit
  errors : s.report.errors = u.report.errors

theorem Core.refl (s : State) : Core s s := ⟨rfl, rfl, rfl, rfl, rfl, rfl, rfl⟩

theorem Core.symm (h : Core s u) : Core u s :=
  ⟨h.declared.symm, h.constants.symm, h.settings.symm, h.registry.symm, h.current.symm, h.limit.symm,
    h.errors.symm⟩

theorem Core.trans {v : State} (h : Core s u) (h' : Core u v) : Core s v :=
  ⟨h.declared.trans h'.declared, h.constants.trans h'.constants, h.settings.trans h'.settings,
    h.registry.trans h'.registry, h.current.trans h'.current, h.limit.trans h'.limit,
    h.errors.trans h'.errors⟩

theorem Core.full (h : Core s u) : s.report.full = u.report.full := by
  rw [Report.full, Report.full, h.limit, h.errors]

theorem Core.drawn (h : Core s u) {d d' : Frames.Draw} (hd : d.errors = d'.errors) :
    Core (s.drawn d) (u.drawn d') :=
  { h with errors := by simp only [State.drawn, Report.addAll, h.errors, hd] }

theorem Core.receive (h : Core s u) (o : Option Token) : Core (s.receive o) (u.receive o) := by
  obtain ⟨ts, e, hreceive⟩ := receive_eq o
  rw [hreceive, hreceive]
  exact { h with }

/-- A reading that looks at no token and takes none. Without an error it ends in the same way wherever
declarations and settings are the same. -/
structure Aside (m : Reader α) : Prop where
  adv : Advancing m
  moved : ∀ env s p, m env (s.movedTo p) = carry (·.movedTo p) (m env s)
  settings : Keeps State.settings m
  alike : ∀ {env s u a s'}, Core s u → m env s = .ok a s' → s'.report.errors = [] →
    ∃ u', m env u = .ok a u' ∧ Core s' u'

/-- Such a reading leaves the stream as it is. -/
theorem Aside.stays (hm : Aside m) {a : α} (h : m env s = .ok a s') : s' = s'.movedTo s := by
  have hmoved := hm.moved env s s
  rw [show s.movedTo s = s from rfl, h] at hmoved
  exact (EStateM.Result.ok.inj hmoved).2

/-- An error in between is an error at the end. -/
theorem Advances.clean (h : Advances s s') (hclean : s'.report.errors = []) : s.report.errors = [] :=
  List.prefix_nil.mp (hclean ▸ h.errors)

/-! ## Sequences -/

theorem Aside.pure (a : α) : Aside (pure a : Reader α) :=
  ⟨fun _ s => .refl s, fun _ _ _ => rfl, Keeps.pure a, fun {_ _ u _ _} hs h _ => by
    cases h
    exact ⟨u, rfl, hs⟩⟩

theorem Aside.throw (e : Halt Diagnostic) : Aside (throw e : Reader α) := by
  refine ⟨fun _ s => .refl s, fun _ _ _ => rfl, Keeps.throw e, fun _ h _ => ?_⟩
  cases h

theorem Aside.bind {f : α → Reader β} (hm : Aside m) (hf : ∀ a, Aside (f a)) : Aside (m >>= f) := by
  refine ⟨hm.adv.bind fun a => (hf a).adv, fun env s p => ?_,
    .bind hm.settings fun a => (hf a).settings, fun {env s u b s'} hs h hclean => ?_⟩
  · rw [bind_apply, bind_apply, hm.moved]
    cases m env s with
    | ok a s₁ => exact (hf a).moved env s₁ p
    | error e s₁ => rfl
  · obtain ⟨a, s₁, h₁, h₂⟩ := bind_ok.mp h
    obtain ⟨u₁, hu₁, hs₁⟩ := hm.alike hs h₁ (((hf a).adv.of_ok h₂).clean hclean)
    obtain ⟨u₂, hu₂, hs₂⟩ := (hf a).alike hs₁ h₂ hclean
    exact ⟨u₂, bind_ok.mpr ⟨a, u₁, hu₁, hu₂⟩, hs₂⟩

theorem Aside.ite {c : Prop} [Decidable c] {n : Reader α} (hm : Aside m) (hn : Aside n) :
    Aside (if c then m else n) := by
  split
  · exact hm
  · exact hn

theorem Aside.modify {g : State → State} (hplace : ∀ s, (g s).place = s.place)
    (hmoved : ∀ s p, g (s.movedTo p) = (g s).movedTo p) (hsettings : ∀ s, (g s).settings = s.settings)
    (hcore : ∀ {s u}, Core s u → Core (g s) (g u)) : Aside (modify g : Reader PUnit) := by
  refine ⟨fun _ s => advances_of_place (hplace s), fun env s p => ?_, Keeps.modify hsettings,
    fun {env s u a s'} hs h _ => ?_⟩
  · exact congrArg (EStateM.Result.ok PUnit.unit) (hmoved s p)
  · cases h
    exact ⟨g u, rfl, hcore hs⟩

theorem Aside.forM {f : α → Reader PUnit} (hf : ∀ a, Aside (f a)) (as : List α) : Aside (as.forM f) := by
  induction as with
  | nil => exact .pure _
  | cons a as ih => exact .bind (hf a) fun _ => ih

/-- What is done may depend on what is declared and set. -/
theorem Aside.get {k : State → Reader α} (hk : ∀ s, Aside (k s))
    (hmoved : ∀ s p, k (s.movedTo p) = k s) (hcore : ∀ s u, Core s u → k s = k u) :
    Aside (get >>= k) := by
  refine ⟨fun env s => (hk s).adv env s, fun env s p => ?_, fun env s => (hk s).settings env s,
    fun {env s u a s'} hs h hclean => ?_⟩
  · rw [get_bind_apply, get_bind_apply, hmoved]
    exact (hk s).moved env s p
  · rw [get_bind_apply] at h ⊢
    rw [← hcore s u hs]
    exact (hk s).alike hs h hclean

/-! ## Messages and writing -/

theorem Aside.log (n : Note) : Aside (log n) :=
  .ite (.modify (fun _ => rfl) (fun _ _ => rfl) (fun _ => rfl) fun h => { h with })
    (.throw _)

/-- An error is recorded, and so this never ends without one. -/
theorem Aside.report (location : Location) (p : Problem) : Aside (report location p) := by
  refine ⟨tokenPath_advances.report location p, fun _ _ _ => rfl,
    .bind .read fun _ => .modify fun _ => rfl, fun {env s u a s'} _ h hclean => ?_⟩
  cases h
  simp [Report.add] at hclean

/-- Writing goes well in one state if it does in the other, and an open class stays open in both. -/
theorem Aside.write {f : State → Except Failure Script} (hmoved : ∀ s p, f (s.movedTo p) = f s)
    (hf : ∀ {s u x}, Core s u → f s = .ok x →
      ∃ y, f u = .ok y ∧ x.current.isSome = y.current.isSome) : Aside (write f) := by
  refine ⟨.write isPath_advances fun _ _ _ => advances_of_place rfl, fun env s p => ?_,
    Along.write (isPath_keeps _) fun _ _ _ => rfl, fun {env s u a s'} hs h _ => ?_⟩
  · rw [write_apply, write_apply, hmoved]
    cases f s with
    | ok script => rfl
    | error g => rfl
  · rw [write_apply] at h ⊢
    cases hx : f s with
    | error g =>
      rw [hx] at h
      cases h
    | ok x =>
      rw [hx] at h
      cases h
      obtain ⟨y, hy, hcurrent⟩ := hf hs hx
      rw [hy]
      exact ⟨_, rfl, { hs with current := hcurrent }⟩

theorem isSome_verbatim (x : Script) (text : String) :
    (x.verbatim text).current.isSome = x.current.isSome := by
  unfold Script.verbatim
  split
  · rename_i h
    rw [h]
    rfl
  · rfl

theorem current_eq_none (h : x.current.isSome = y.current.isSome) (hx : x.current = none) :
    y.current = none := by
  rw [hx] at h
  exact Option.isSome_eq_false_iff.mp h.symm |> Option.isNone_iff_eq_none.mp

theorem exists_current {c : OpenClass} (h : x.current.isSome = y.current.isSome)
    (hx : x.current = some c) : ∃ c', y.current = some c' := by
  rw [hx] at h
  exact Option.isSome_iff_exists.mp h.symm

/-- An accessor can be written in one script if it can be in another, unless only that one has a class
open. -/
theorem addField_alike {f : Field} (hcurrent : x.current.isSome = y.current.isSome)
    (h : x.addField settings f = .ok x') :
    ∃ y', y.addField settings f = .ok y' ∧ x'.current.isSome = y'.current.isSome := by
  rcases Script.addField_eq_ok_iff.mp h with ⟨hunwritten, rfl⟩ | ⟨c, a, hx, hpadding, ha, rfl⟩
  · have hunwritten' := hunwritten.imp_left (current_eq_none hcurrent)
    exact ⟨y, Script.addField_eq_ok_iff.mpr (.inl ⟨hunwritten', rfl⟩), hcurrent⟩
  · obtain ⟨c', hy⟩ := exists_current hcurrent hx
    exact ⟨_, Script.addField_eq_ok_iff.mpr (.inr ⟨c', a, hy, hpadding, ha, rfl⟩), rfl⟩

theorem closeClass_alike {registry : Registry} {t : TypeInfo} (hcurrent : x.current.isSome = y.current.isSome)
    (h : x.closeClass settings registry t = .ok x') :
    ∃ y', y.closeClass settings registry t = .ok y' ∧ x'.current.isSome = y'.current.isSome := by
  rcases Script.closeClass_eq_ok_iff.mp h with ⟨hx, rfl⟩ | ⟨c, hx, hwritable, rfl⟩
  · exact ⟨y, Script.closeClass_eq_ok_iff.mpr (.inl ⟨current_eq_none hcurrent hx, rfl⟩), hcurrent⟩
  · obtain ⟨c', hy⟩ := exists_current hcurrent hx
    exact ⟨_, Script.closeClass_eq_ok_iff.mpr (.inr ⟨c', hy, hwritable, rfl⟩), rfl⟩

/-- Whether the script of an enum can be written does not depend on what stands before it. -/
theorem addEnum_alike {name : String} {members : List (String × Constant)}
    (hcurrent : x.current.isSome = y.current.isSome) (h : x.addEnum settings name members = .ok x') :
    ∃ y', y.addEnum settings name members = .ok y' ∧ x'.current.isSome = y'.current.isSome := by
  obtain ⟨written, hwritten, h⟩ := bind_eq_ok_iff.mp h
  cases h
  exact ⟨_, bind_eq_ok_iff.mpr ⟨written, hwritten, rfl⟩, hcurrent⟩

/-! ## Comments, members and types -/

theorem Aside.comment (t : Token) : Aside (comment t) := by
  have hscript (s : State) : (if keepsComment s then s.script.verbatim t.text else s.script).current.isSome =
      s.script.current.isSome := by
    split
    · exact isSome_verbatim s.script t.text
    · rfl
  refine .modify (fun _ => rfl) (fun _ _ => rfl) (fun _ => rfl) fun {s u} h => ?_
  exact { h with current := by rw [hscript, hscript, h.current] }

theorem Aside.perform (steps : List Step) : Aside (perform steps) := by
  refine .forM (fun step => ?_) steps
  cases step with
  | field f =>
    refine .write (fun _ _ => rfl) fun {s u x} hs hx => ?_
    rw [← hs.settings]
    exact addField_alike hs.current hx
  | note n => exact .log n

theorem Aside.advanceTo (d d' : Draft) : Aside (advanceTo d d') := .perform _

theorem Aside.discardClass : Aside discardClass :=
  .modify (fun _ => rfl) (fun _ _ => rfl) (fun _ => rfl) fun h => { h with current := rfl }

theorem Aside.register (t : TypeInfo) : Aside (register t) := by
  refine ⟨declarationPath_advances.register t, fun env s p => ?_,
    Along.register (isPath_keeps _) fun _ _ _ => rfl, fun {env s u a s'} hs h _ => ?_⟩
  · rw [register_apply, register_apply]
    rw [show (s.movedTo p).registry = s.registry from rfl]
    cases s.registry.register t with
    | ok r => rfl
    | error p => rfl
  · rw [register_apply] at h ⊢
    rw [← hs.registry]
    cases hr : s.registry.register t with
    | error p =>
      rw [hr] at h
      cases h
    | ok r =>
      rw [hr] at h
      cases h
      exact ⟨_, rfl, { hs with registry := rfl }⟩

theorem Aside.warnOfPadding (d : Draft) (t : TypeInfo) : Aside (warnOfPadding d t) := by
  refine .ite (.bind ?_ fun _ => .log _) (.pure _)
  exact .modify (fun _ => rfl) (fun _ _ => rfl) (fun _ => rfl) fun h => { h with }

protected theorem Aside.closeAggregate (d : Draft) : Aside (closeAggregate d) := by
  unfold closeAggregate
  split
  · rename_i name _ _
    refine .get (fun s => ?_) (fun _ _ => rfl) fun s u h => by rw [h.settings]
    cases d.finish s.settings name with
    | none => exact .bind .discardClass fun _ => .throw _
    | some t =>
      refine .bind (.register t) fun _ => .bind ?_ fun _ => ?_
      · refine .write (fun _ _ => rfl) fun {s u x} hs hx => ?_
        rw [← hs.settings, ← hs.registry]
        exact closeClass_alike hs.current hx
      · exact .bind (.log _) fun _ => .bind (.warnOfPadding d t) fun _ => .log _
  · exact .discardClass

theorem Aside.closeEnum (e : EnumDraft) (name : String) : Aside (closeEnum e name) := by
  refine .get (fun s => ?_) (fun _ _ => rfl) fun s u h => by rw [h.settings]
  refine .bind (.register _) fun _ => .bind ?_ fun _ =>
    .bind (.log _) fun _ => .log _
  refine .write (fun _ _ => rfl) fun {s u x} hs hx => ?_
  rw [← hs.settings]
  exact addEnum_alike hs.current hx

end RecordView.Declaration
