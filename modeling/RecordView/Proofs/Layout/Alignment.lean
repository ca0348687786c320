import RecordView.Proofs.Declaration.Registry

/-! What the alignment of fields says about their place and about the alignment of the whole, as long as
the packing is not below it. -/
namespace RecordView

/-! ## Powers of two -/

variable {a b q : Nat} {r : Registry} {f : Field}

theorem dvd_of_le (ha : a ∈ [1, 2, 4, 8]) (hb : b ∈ [1, 2, 4, 8]) (h : a ≤ b) : a ∣ b := by
  simp only [List.mem_cons, List.not_mem_nil, or_false] at ha hb
  rcases ha with rfl | rfl | rfl | rfl <;> rcases hb with rfl | rfl | rfl | rfl <;>
    first | decide | omega

theorem dvd_pack (p : Pack) (ha : a ∈ [1, 2, 4, 8]) (h : a ≤ p.bytes) : a ∣ p.bytes := by
  simp only [List.mem_cons, List.not_mem_nil, or_false] at ha
  rcases ha with rfl | rfl | rfl | rfl <;> cases p <;> revert h <;> decide

theorem pos_of_mem (h : a ∈ [1, 2, 4, 8]) : 0 < a := by
  simp only [List.mem_cons, List.not_mem_nil, or_false] at h
  omega

theorem dvd_min (ha : q ∣ a) (hb : q ∣ b) : q ∣ min a b := by
  rcases Nat.le_total a b with h | h
  · rwa [Nat.min_eq_left h]
  · rwa [Nat.min_eq_right h]

/-! ## Fields -/

theorem NaturalAlignment.unique {kind : FieldKind} (ha : NaturalAlignment r kind a)
    (hb : NaturalAlignment r kind b) : a = b := by
  cases ha with
  | number => cases hb; rfl
  | text => cases hb; rfl
  | bits => cases hb; rfl
  | nested _ hfound =>
    cases hb with
    | nested _ hfound' =>
      rw [hfound] at hfound'
      cases hfound'
      rfl
  | flexible => cases hb; rfl

/-- If a field is naturally aligned to multiples of `q`, then it stands at one, and so does what it is
part of. -/
def Field.Fits (r : Registry) (q : Nat) (f : Field) (alignment : Nat) : Prop :=
  ∃ a, NaturalAlignment r f.kind a ∧ (q ∣ a → q ∣ f.offset ∧ q ∣ alignment)

theorem Field.Fits.imp (h : f.Fits r q a) (hab : q ∣ a → q ∣ b) : f.Fits r q b := by
  obtain ⟨n, hn, hq⟩ := h
  exact ⟨n, hn, fun hd => ⟨(hq hd).1, hab (hq hd).2⟩⟩

theorem Field.Fits.mono (h : f.Fits r q a) (hab : a ∣ b) :
    f.Fits r q b := h.imp fun hq => Nat.dvd_trans hq hab

theorem Field.Fits.shift {start : Nat} (h : f.Fits r q a) (hstart : q ∣ a → q ∣ start) (hab : a ∣ b) :
    (f.shift start).Fits r q b := by
  obtain ⟨n, hn, hq⟩ := h
  refine ⟨n, hn, fun hd => ?_⟩
  obtain ⟨ho, ha⟩ := hq hd
  exact ⟨(Nat.dvd_add_right ho).mpr (hstart ha), Nat.dvd_trans ha hab⟩

namespace Draft

variable {d d' : Draft} {u : Surroundings} {s : Settings} {r : Registry} {p : Piece} {q : Nat}

/-- The fields of a draft fit, those that wait into the union that is open. -/
structure Fitted (r : Registry) (q : Nat) (d : Draft) : Prop where
  form : d.form ≠ .enum
  regular : d.Regular
  placed : ∀ f ∈ d.fields, f.Fits r q d.fullAlignment
  waits : ∀ f ∈ d.waiting, f.Fits r q (d.overlap.getD {}).alignment

theorem full_outside (h : d.overlap = none) : d.fullAlignment = d.alignment := by
  unfold fullAlignment
  rw [h]
  split <;> simp_all

theorem full_struct (h : d.form = .struct) : d.fullAlignment = d.alignment := by
  unfold fullAlignment
  rw [h]

/-- What is placed where the whole gets no less aligned still fits. -/
theorem Fitted.le (h : d.Fitted r q) (hd : d'.Regular) (hle : d.fullAlignment ≤ d'.fullAlignment) :
    ∀ f ∈ d.fields, f.Fits r q d'.fullAlignment := by
  intro f hf
  exact (h.placed f hf).mono (dvd_of_le h.regular.full hd.full hle)

theorem piece_fits (hp : p.Sound r) (hpack : q ∣ p.pack.bytes) (hf : f ∈ p.fields) :
    f.Fits r q p.alignment := by
  obtain ⟨ho, -, hn⟩ := hp.field f hf
  refine ⟨p.natural, hn, fun hd => ⟨?_, dvd_min hpack hd⟩⟩
  rw [ho]
  exact Nat.dvd_zero q

/-- The whole gets no less aligned, and no less than a piece that gets its place in it. -/
theorem full_store (d : Draft) (p : Piece) : d.fullAlignment ≤ (d.store p).fullAlignment ∧
    (d.overlap = none ∨ d.form = .union → p.alignment ≤ (d.store p).fullAlignment) := by
  cases ho : d.overlap with
  | none =>
    have hoverlap : (d.store p).overlap = none := by
      rw [store_outside ho]
      exact ho
    rw [full_outside ho, full_outside hoverlap, store_outside ho]
    exact ⟨Nat.le_max_left _ _, fun _ => Nat.le_max_right _ _⟩
  | some o =>
    obtain ⟨fs, ho'⟩ := overlap_store ho p
    unfold fullAlignment
    rw [(continues_store d p).form, alignment_store ho, ho, ho']
    cases d.form <;> simp
    omega

/-- A piece fits where it is stored. -/
theorem fitted_store (h : d.Fitted r q) (hp : p.Sound r) (ha : p.alignment ∈ [1, 2, 4, 8])
    (hpack : q ∣ p.pack.bytes) : (d.store p).Fitted r q := by
  have hregular := regular_store ha h.regular
  obtain ⟨hle, hpiece⟩ := full_store d p
  refine ⟨(continues_store d p).form ▸ h.form, hregular, fun f hf => ?_, fun f hf => ?_⟩
  · rcases store_cases d p with ⟨hout, -, n, hn, hfields⟩ | ⟨-, hfields, -⟩
    · rw [hfields, List.mem_append] at hf
      rcases hf with hf | hf
      · exact h.le hregular hle f hf
      · obtain ⟨g, hg, rfl⟩ := List.mem_map.mp hf
        have hdvd : p.alignment ∣ n := by
          rcases hn with rfl | rfl
          · exact Nat.dvd_zero _
          · exact dvd_alignUp _ _ (pos_of_mem ha)
        refine (piece_fits hp hpack hg).shift (fun hd => Nat.dvd_trans hd hdvd) ?_
        refine dvd_of_le ha hregular.full (hpiece (hout.imp_right fun hother => ?_))
        have hform := h.form
        cases hd : d.form <;> simp_all
    · rw [hfields] at hf
      exact h.le hregular hle f hf
  · -- a member of an anonymous union waits, and fits into the union
    have hmem : f ∈ d.waiting ∨ f ∈ p.fields := by
      rcases store_cases d p with ⟨-, hw, -⟩ | ⟨-, -, hw, -⟩ <;> rw [hw] at hf
      · exact .inl hf
      · exact List.mem_append.mp hf
    cases ho : d.overlap with
    | none =>
      rw [store_outside ho, waiting, ho] at hf
      cases hf
    | some o =>
      obtain ⟨fs, ho'⟩ := overlap_store ho p
      have hw := h.waits
      rw [ho] at hw
      rw [ho']
      have hmax := max_mem (h.regular.shared o ho) ha
      rcases hmem with hf | hf
      · exact (hw f hf).mono (dvd_of_le (h.regular.shared o ho) hmax (Nat.le_max_left _ _))
      · exact (piece_fits hp hpack hf).mono (dvd_of_le ha hmax (Nat.le_max_right _ _))

theorem Fitted.congr (h : d.Fitted r q) (hd : d'.Regular) (hlayout : d'.layout = d.layout)
    (ha : d'.alignment = d.alignment) : d'.Fitted r q := by
  simp only [layout, Prod.mk.injEq] at hlayout
  obtain ⟨hform, hfields, -, ho⟩ := hlayout
  have hfull : d'.fullAlignment = d.fullAlignment := by
    unfold fullAlignment
    rw [hform, ho, ha]
  refine ⟨by rw [hform]; exact h.form, hd, ?_, ?_⟩
  · rw [hfields, hfull]
    exact h.placed
  · simp only [waiting, ho]
    exact h.waits

theorem fitted_flush (h : d.Fitted r q) (hpack : q ∣ s.pack.bytes) : (d.flush s).Fitted r q := by
  have hregular := regular_flush s h.regular
  cases hr : d.run.isEmpty with
  | true =>
    rw [flush_of_isEmpty s hr]
    exact h
  | false =>
    have hword := alignment_wordPiece_mem s h.regular.waits
    have hstore := fitted_store h (wordPiece_sound s hr) hword hpack
    refine hstore.congr hregular (layout_flush s hr) ?_
    rw [flush_eq s hr]
    rfl

theorem fitted_put {f : FieldStatement} {c : Content} (h : d.Fitted u.registry q)
    (hr : u.registry.Regular) (hc : c.Admitted u) (hpack : q ∣ u.settings.pack.bytes) :
    (f.put u d c).Fitted u.registry q := by
  have hsame {d d' : Draft} (h : d.Fitted u.registry q) (hlayout : d'.layout = d.layout)
      (ha : d'.alignment = d.alignment) (hrun : d'.run = d.run) : d'.Fitted u.registry q := by
    refine h.congr ⟨ha ▸ h.regular.own, ?_, hrun ▸ h.regular.waits⟩ hlayout ha
    simp only [layout, Prod.mk.injEq] at hlayout
    rw [hlayout.2.2.2]
    exact h.regular.shared
  refine put_induction hc (hsame h rfl rfl rfl) (fun _ h => fitted_flush h hpack) ?_ ?_
    fun _ _ h => hsame h rfl rfl rfl
  · intro d' p hp _ h
    exact h.congr ⟨h.regular.own, h.regular.shared, forall_pending_pend h.regular.waits hp.declared⟩ rfl rfl
  · intro d' g p hp h
    refine fitted_store h (hp.sound fun t ht => pos_of_mem (hr t ht)) (hp.alignment_mem hr) ?_
    rw [hp.pack]
    exact hpack

/-- The members of a union fit into the struct where the union is placed. -/
theorem fitted_closeUnion (s : Settings) (h : d.Fitted r q) (hu : d.inAnonymousUnion = true)
    (hrun : d.run.isEmpty = true) (hd : (d.closeUnion s).1.Regular) :
    (d.closeUnion s).1.Fitted r q := by
  have hstruct : d.form = .struct := by
    simp only [inAnonymousUnion, Bool.and_eq_true, beq_iff_eq] at hu
    exact hu.2
  have hform : (d.closeUnion s).1.form = .struct := (follows_closeUnion s d).form.trans hstruct
  obtain ⟨o, ho⟩ := Option.isSome_iff_exists.mp (inUnion_of_anonymous hu)
  have hnone := (closeUnion_cases s (inUnion_of_anonymous hu) hrun).1
  refine ⟨by rw [hform]; decide, hd, ?_, by rw [hnone]; exact List.forall_mem_nil _⟩
  have hfull : (d.closeUnion s).1.fullAlignment = (d.closeUnion s).1.alignment := full_struct hform
  have hle : d.fullAlignment ≤ (d.closeUnion s).1.fullAlignment := by
    rw [hfull, full_struct hstruct]
    exact (follows_closeUnion s d).alignment
  have hold := h.le hd hle
  by_cases hz : o.width = 0
  · have hfields : (d.closeUnion s).1.fields = d.fields := by
      rw [closeUnion_empty s hrun ho hz]
      rfl
    rw [hfields]
    exact hold
  · let n := alignUp d.cursor o.alignment
    have hfields : (d.closeUnion s).1.fields = d.fields ++ o.members.map (.shift n) :=
      fields_closeUnion s hrun ho hz
    have ha : (d.closeUnion s).1.alignment = max d.alignment o.alignment := by
      rw [closeUnion_filled s hrun ho hz]
    intro f hf
    rw [hfields, List.mem_append] at hf
    rcases hf with hf | hf
    · exact hold f hf
    · obtain ⟨g, hg, rfl⟩ := List.mem_map.mp hf
      have hw := h.waits g (by rw [waiting, ho]; exact hg)
      rw [ho, Option.getD_some] at hw
      have hmem := h.regular.shared o ho
      refine hw.shift (fun hq => Nat.dvd_trans hq (dvd_alignUp _ _ (pos_of_mem hmem))) ?_
      refine dvd_of_le hmem hd.full ?_
      rw [hfull, ha]
      exact Nat.le_max_right _ _

theorem fitted_openUnion (h : d.Fitted r q) (hd : d.inUnion = false) (hpack : q ∣ s.pack.bytes) :
    (d.openUnion s).Fitted r q := by
  have hflush := fitted_flush h hpack
  have ho : (d.flush s).overlap = none := overlap_flush s hd
  have hregular : (d.openUnion s).Regular := by
    refine ⟨hflush.regular.own, fun o ho' => ?_, hflush.regular.waits⟩
    cases ho'
    decide
  have hle : (d.flush s).fullAlignment ≤ (d.openUnion s).fullAlignment := by
    rw [full_outside ho]
    exact Declaration.alignment_le_full (d.openUnion s)
  exact ⟨hflush.form, hregular, hflush.le hregular hle, List.forall_mem_nil _⟩

theorem Change.fitted (h : Change u d d') (hd : d.Fitted u.registry q) (hs : d.Settled)
    (hr : u.registry.Regular) (hchange : d' ≠ d → q ∣ u.settings.pack.bytes) :
    d'.Fitted u.registry q := by
  by_cases hsame : d' = d
  · rw [hsame]
    exact hd
  have hpack := hchange hsame
  have hregular := h.regular hs hr hd.regular
  cases h with
  | same => exact hd
  | field f hc => exact fitted_put hd hr (FieldStatement.resolve_ok hc) hpack
  | openUnion ho => exact fitted_openUnion hd ho hpack
  | closeUnion hu => exact fitted_closeUnion _ hd hu (hs (inUnion_of_anonymous hu)) hregular

end Draft
end RecordView
