import RecordView.Proofs.Declaration.Advance
import RecordView.Proofs.Declaration.Registry
import RecordView.Proofs.Token.Coverage

/-! Inherited fields: a type extends one that was declared before it, so the walk through the types that it
extends ends, whatever the registry. -/
namespace RecordView

theorem Token.text_ne_of_scan {file source : String} {ts : List Token} {t : Token}
    (h : scan file source = .ok ts) (ht : t ∈ ts) (hkind : t.kind = .identifier) : t.text ≠ "" := by
  obtain ⟨before, rest, -, hlaid⟩ := laid_of_scan h
  obtain ⟨own, hcovers⟩ := hlaid.covers ht (by rw [hkind]; decide)
  obtain ⟨suffix, hown, -, hsuffix⟩ := hcovers.text (by rw [hkind]; rfl)
  rw [hsuffix (by rw [hkind]; decide), List.append_nil] at hown
  intro hempty
  rw [hempty] at hown
  exact hcovers.ne_nil (by rw [hkind]; rfl) hown

/-- A type that extends another names it, and its own fields stand behind the bytes of the other. -/
def Registry.Inherits (r : Registry) : Prop :=
  ∀ t ∈ r.types, ∀ name, t.parent = some name →
    name ≠ "" ∧ ∃ p, r.find? name = some p ∧ ∀ f ∈ t.fields, p.byteLength ≤ f.offset

namespace Declaration
open Reader

variable {env : Env} {s s' s₀ : State} {t : Token} {info : TypeInfo} {name : String}

/-! ## The name of what is extended -/

theorem Advances.subset (h : Advances s s') (hlive : s.Live) :
    s'.ahead ++ s'.unread ⊆ s.ahead ++ s.unread := by
  obtain ⟨_, _, htrail⟩ := h.trail hlive
  exact htrail.subset

theorem expectName_ok {wanted : Wanted} (hlive : s.Live) (h : expectName wanted env s = .ok t s') :
    t.kind = .identifier ∧ t ∈ s.ahead ++ s.unread := by
  obtain ⟨u, s₁, hpeek, h⟩ := bind_ok.mp h
  split at h
  · rename_i hkind
    have hne : u.kind ≠ .eof := by rw [hkind]; decide
    have hadvances := Advancing.peek.of_ok hpeek
    obtain ⟨us, hahead⟩ := exists_ahead hpeek hne (hadvances.live hlive).1
    rw [advance_apply, peek_peek hpeek] at h
    dsimp only at h
    rw [if_neg hne] at h
    cases h
    refine ⟨hkind, hadvances.subset hlive ?_⟩
    rw [hahead]
    exact List.mem_cons_self
  · cases h

theorem parentName_ok (hlive : s.Live) (h : parentName env s = .ok (some t) s') :
    t.kind = .identifier ∧ t ∈ s.ahead ++ s.unread := by
  obtain ⟨b, s₁, haccept, h⟩ := bind_ok.mp h
  have hadvances := (tokenPath_advances.accept ":").of_ok haccept
  split at h
  · rw [map_eq_pure_bind] at h
    obtain ⟨u, s₂, hname, h⟩ := bind_ok.mp h
    cases h
    obtain ⟨hkind, hmem⟩ := expectName_ok (hadvances.live hlive).1 hname
    exact ⟨hkind, hadvances.subset hlive hmem⟩
  · cases h

/-- What a declared type extends is named by a token of the description. -/
theorem Completes.parent_named (h : Completes env s info s') (hlive : s.Live)
    (hn : info.parent = some name) :
    ∃ t ∈ s.ahead ++ s.unread, t.kind = .identifier ∧ t.text = name := by
  cases h with
  | enum => cases hn
  | @aggregate form typedef s₁ _ _ _ _ _ _ enters opens body ends =>
    rw [(ends.closes body).parent_eq] at hn
    obtain ⟨⟨keyword, own, parent, s₂, s₃, hown, hparent, rfl⟩, -⟩ := opening_header opens
    have hheader : (Header.of s₁.registry form typedef keyword own parent).Proper (fun _ => True) parent 2 :=
      Header.proper_of trivial (fun _ _ => trivial) (fun _ _ => trivial) _ _ _
    obtain ⟨t, rfl, htext⟩ := hheader.extended name hn
    have hadvances : Advances s s₂ := by
      refine (enters.along tokenPath_advances.toTakingPath).trans ?_
      exact (Advancing.advance.bind fun _ => tokenPath_advances.declaredName).of_ok hown
    obtain ⟨hkind, hmem⟩ := parentName_ok (hadvances.live hlive).1 hparent
    exact ⟨t, hadvances.subset hlive hmem, hkind, htext⟩

/-- What a declared type extends is found when it is declared. -/
theorem Completes.parent_found (h : Completes env s info s') (hr : s.registry.Sound)
    (hn : info.parent = some name) :
    ∃ p, s.registry.find? name = some p ∧ ∀ f ∈ info.fields, p.byteLength ≤ f.offset := by
  cases h with
  | enum => cases hn
  | aggregate enters opens body ends =>
    obtain ⟨hf, heq⟩ := enters.fresh opens
    rw [← heq] at hf hr ⊢
    obtain ⟨p, hp, -, -, -, -, hfields⟩ := (ends.closes body).parent_sound enters opens hf hr hn
    exact ⟨p, hp, hfields⟩

/-! ## All points of a reading -/

theorem read_inherits (env : Env) {file source : String} (h₀ : s₀.registry = {}) (hlive : s₀.Live)
    (hscan : Token.scan file source = .ok (s₀.ahead ++ s₀.unread)) :
    (∀ s, Runs statementRound env () s₀ () s → s.registry.Inherits) ∧
      (read env s₀).1.registry.Inherits := by
  have hstart : s₀.registry.Inherits := by
    rw [h₀]
    intro t ht
    cases ht
  refine registry_growth hstart fun s info s' before hs completes t ht name hn => ?_
  -- an earlier type finds what it extends as before; the new one found it when it was declared
  rcases List.mem_append.mp ht with ht | ht
  · obtain ⟨hne, p, hp, hfields⟩ := hs t ht name hn
    exact ⟨hne, p, find?_append hp _, hfields⟩
  · obtain rfl := List.mem_singleton.mp ht
    have hadvances := Advancing.runs (fun _ => .statementRound) before
    obtain ⟨u, hu, hkind, rfl⟩ := completes.parent_named (hadvances.live hlive).1 hn
    obtain ⟨p, hp, hfields⟩ := completes.parent_found ((read_sound env h₀).1 s before) hn
    exact ⟨Token.text_ne_of_scan hscan (hadvances.subset hlive hu) hkind, p, find?_append hp _, hfields⟩

/-- What a type extends was declared before it, and its fields come first, where they are in it. -/
theorem inherits_allFields {r : Registry} (hr : r.Sound) (hi : r.Inherits) {i : Nat}
    (ht : r.types[i]? = some info) (hn : info.parent = some name) :
    ∃ j p, j < i ∧ r.types[j]? = some p ∧ r.find? name = some p ∧
      r.allFields info = r.allFields p ++ info.fields ∧ ∀ f ∈ info.fields, p.byteLength ≤ f.offset := by
  obtain ⟨hi', hget⟩ := List.getElem?_eq_some_iff.mp ht
  have hsplit : r.types = r.types.take i ++ info :: r.types.drop (i + 1) := by
    rw [← hget, List.getElem_cons_drop, List.take_append_drop]
  obtain ⟨p, hp, hfound⟩ := hr.ordered.find hsplit hn
  obtain ⟨j, hj⟩ := List.getElem?_of_mem hp
  have hmem := List.mem_of_getElem? ht
  obtain ⟨hne, q, hq, hfields⟩ := hi info hmem name hn
  rw [hfound] at hq
  cases hq
  have hbase : info.base?.bind r.find? = some p := by
    rw [TypeInfo.base?, hn, Option.filter_some, if_pos (by simpa using hne), Option.bind_some, hfound]
  rw [List.getElem?_take] at hj
  split at hj
  · exact ⟨j, p, ‹_›, hj, hfound, Registry.allFields_parent hr.ordered hmem hbase, hfields⟩
  · cases hj

/-- At every point of a reading, the walk from a declared type through those that it extends ends, since
each was declared before the last. The fields of a type are its own behind those of the type that it
extends, in which they have the same offsets. -/
theorem allFields_wellFounded (env : Env) {file source : String} (h₀ : s₀.registry = {}) (hlive : s₀.Live)
    (hscan : Token.scan file source = .ok (s₀.ahead ++ s₀.unread)) :
    ∀ s, Visits env s₀ s → ∀ (i : Nat) t, s.registry.types[i]? = some t →
      (∃ ts, s.registry.Ascends t ts ∧ s.registry.allFields t = ts.reverse.flatMap (·.fields)) ∧
      (t.parent = none → s.registry.allFields t = t.fields) ∧
      ∀ name, t.parent = some name → ∃ j p, j < i ∧ s.registry.types[j]? = some p ∧
        s.registry.find? name = some p ∧ s.registry.allFields t = s.registry.allFields p ++ t.fields ∧
        ∀ f ∈ t.fields, p.byteLength ≤ f.offset := by
  intro s hs
  obtain ⟨hr, hi⟩ : s.registry.Sound ∧ s.registry.Inherits := by
    obtain ⟨hsound, hsoundLast⟩ := read_sound env h₀
    obtain ⟨hinherits, hinheritsLast⟩ := read_inherits env h₀ hlive hscan
    rcases hs.registry_eq with ⟨s₁, before, heq⟩ | rfl
    · rw [heq]
      exact ⟨hsound s₁ before, hinherits s₁ before⟩
    · exact ⟨hsoundLast, hinheritsLast⟩
  intro i t ht
  refine ⟨⟨_, hr.ordered.ascends (List.mem_of_getElem? ht), rfl⟩, fun hnone => ?_, fun name hn =>
    inherits_allFields hr hi ht hn⟩
  refine Registry.allFields_of_none ?_ _
  rw [TypeInfo.base?, hnone]
  rfl

def heirText : String :=
  "struct A \x7b\nUint16 a;\n\x7d;\nstruct B : A \x7b\nBoolean b;\nA c;\n\x7d;\nenum C \x7b\nd\n\x7d;\n"

theorem allFields_wellFounded_heir :
    let s := (read ⟨"__", fun _ => ""⟩ { unread := heirTokens }).1
    Token.scan "" heirText = .ok heirTokens ∧
      s.registry.types.map (fun t => (t.name, t.fields.map fun f => (f.name, f.offset))) =
        [("A", [("a", 0)]), ("B", [("b", 2), ("c", 4)]), ("C", [])] ∧
      ∃ a b, s.registry.types[0]? = some a ∧ s.registry.types[1]? = some b ∧ b.parent = some "A" ∧
        s.registry.find? "A" = some a ∧ s.registry.allFields b = s.registry.allFields a ++ b.fields ∧
        ∀ f ∈ b.fields, a.byteLength ≤ f.offset := by
  intro s
  let s₀ : State := { unread := heirTokens }
  have hlive : s₀.Live := ⟨fun e he => (Option.some_ne_none e he.symm).elim, fun _ => rfl⟩
  have hscan : Token.scan "" heirText = .ok (s₀.ahead ++ s₀.unread) := by decide +kernel
  have hsecond : ∃ b ∈ s.registry.types[1]?, b.parent = some "A" := by decide +kernel
  obtain ⟨b, hb, hparent⟩ := hsecond
  obtain ⟨-, -, hextends⟩ := allFields_wellFounded _ rfl hlive hscan s .last 1 b hb
  obtain ⟨j, a, hj, ha, hfound⟩ := hextends "A" hparent
  obtain rfl := Nat.lt_one_iff.mp hj
  exact ⟨hscan, by decide +kernel, a, b, ha, hb, hparent, hfound⟩

end Declaration
end RecordView
