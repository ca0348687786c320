import RecordView.Command.Arguments
import RecordView.Proofs.Command.Utf8

/-! What a run of the command does to the files: it writes one file or none, and never its input. -/
namespace RecordView.Command

/-! ## Writing a file -/

namespace FileTree

variable {t t' t'' : FileTree} {p q w : Place} {path : Path} {bytes bytes' content : List UInt8}

theorem lookup_insert_of_ne (h : q ≠ t.origin p) (c : Entry) :
    (t.insert p c).entries.lookup q = t.entries.lookup q := by
  have hfilter (l : List (Place × Entry)) : (l.filter fun e => e.1 != t.origin p).lookup q = l.lookup q := by
    induction l with
    | nil => rfl
    | cons e l ih =>
      by_cases he : e.1 = t.origin p
      · have hne : (q == e.1) = false := by simpa [he] using h
        rw [List.filter_cons_of_neg (by simp [he]), ih, List.lookup_cons, hne]
      · rw [List.filter_cons_of_pos (by simpa using he), List.lookup_cons, List.lookup_cons, ih]
  have hp : (q == t.origin p) = false := by simpa using h
  rw [insert, List.lookup_cons, hp, hfilter]

/-- One file has been written: under its names there are the bytes, and all else is as it was. -/
structure Wrote (t : FileTree) (p : Place) (bytes : List UInt8) (t' : FileTree) : Prop where
  frame : ∃ entries, t' = { t with entries }
  written : t'.find? p = some (.file bytes)
  kept : ∀ q, t.origin q ≠ t.origin p ∨ t.find? q = some .directory → t'.find? q = t.find? q

theorem wrote_insert (h : t.find? p ≠ some .directory) (bytes : List UInt8) :
    t.Wrote p bytes (t.insert p (.file bytes)) := by
  have hp : ¬ p.names.isPrefixOf t.here.names = true := fun hprefix => h (if_pos hprefix)
  refine ⟨⟨_, rfl⟩, ?_, fun q hq => ?_⟩
  · show (if p.names.isPrefixOf t.here.names then _ else _) = _
    rw [if_neg hp]
    exact List.lookup_cons_self
  · show (if q.names.isPrefixOf t.here.names then _ else _) = _
    by_cases hprefix : q.names.isPrefixOf t.here.names = true
    · rw [if_pos hprefix, find?, if_pos hprefix]
    · have hne : t.origin q ≠ t.origin p := by
        intro heq
        rw [find?, if_neg hprefix, heq] at hq
        rw [find?, if_neg hp] at h
        exact hq.elim (fun hne => hne rfl) h
      rw [if_neg hprefix, find?, if_neg hprefix]
      exact lookup_insert_of_ne hne _

theorem Wrote.trans (h : t.Wrote p bytes t') (h' : t'.Wrote p bytes' t'') : t.Wrote p bytes' t'' := by
  obtain ⟨es, rfl⟩ := h.frame
  obtain ⟨es', rfl⟩ := h'.frame
  refine ⟨⟨es', rfl⟩, h'.written, fun q hq => ?_⟩
  have hkept := h.kept q hq
  rw [← hkept] at hq ⊢
  exact h'.kept q hq

/-- A path that can be followed leads to its place. -/
theorem eq_of_walk {parts : List String} (h : t.walk p parts = .ok q) : q = parts.foldl Place.step p := by
  induction parts generalizing p with
  | nil => exact (Except.ok.inj h).symm
  | cons part parts ih =>
    rw [walk] at h
    split at h
    · split at h
      · exact ih h
      · cases h
    · cases h
    · cases h

/-- A path that can be followed is followed in the same way when a file has been written. -/
theorem Wrote.walk (hw : t.Wrote w bytes t') {parts : List String}
    (h : t.walk p parts = .ok q) : t'.walk p parts = .ok q := by
  induction parts generalizing p with
  | nil => exact h
  | cons part parts ih =>
    rw [FileTree.walk] at h ⊢
    split at h
    · next hp =>
      have hreadable : t'.readable p = t.readable p := by
        obtain ⟨es, rfl⟩ := hw.frame
        rfl
      rw [hw.kept p (.inr hp), hp]
      dsimp only
      rw [hreadable]
      split at h
      · next hentered =>
        rw [if_pos hentered]
        exact ih h
      · cases h
    · cases h
    · cases h

/-- Another file is read as before. -/
theorem Wrote.read (hw : t.Wrote w bytes t') (h : t.read path = .ok content)
    (hne : t.origin (path.place t.here) ≠ t.origin w) : t'.read path = .ok content := by
  have hwalk' {p q : Place} (h : t.walk p path.parts = .ok q) := hw.walk h
  have hkept := hw.kept _ (.inl hne)
  obtain ⟨es, rfl⟩ := hw.frame
  unfold FileTree.read at h ⊢
  cases hwalk : t.walk (.start t.here path.root) path.parts with
  | error e =>
    rw [hwalk] at h
    cases h
  | ok q =>
    obtain rfl : q = path.place t.here := eq_of_walk hwalk
    rw [hwalk] at h
    rw [hwalk' hwalk]
    dsimp only [bind, Except.bind] at h ⊢
    rw [hkept]
    exact h

theorem get_bind {α : Type} (f : FileTree → EStateM FileError FileTree α) (t : FileTree) :
    (get >>= f) t = f t t := rfl

/-- To open a file fails and changes nothing, or it leads to a device, or the file is empty then. -/
theorem openEmpty_cases (path : Path) (t : FileTree) :
    (∃ e, openEmpty path t = .error e t) ∨
    (openEmpty path t = .ok (path.place t.here) t ∧ t.find? (path.place t.here) = some .device) ∨
    ∃ t', openEmpty path t = .ok (path.place t.here) t' ∧ t.Wrote (path.place t.here) [] t' := by
  rw [openEmpty, get_bind]
  cases hwalk : t.walk (.start t.here path.root) path.parts with
  | error e => exact .inl ⟨e, rfl⟩
  | ok p =>
    obtain rfl : p = path.place t.here := eq_of_walk hwalk
    dsimp only
    by_cases hdirectory : t.find? (path.place t.here) = some .directory
    · rw [if_pos hdirectory]
      exact .inl ⟨.isDirectory, rfl⟩
    rw [if_neg hdirectory]
    split
    · exact .inl ⟨.denied, rfl⟩
    by_cases hdevice : t.find? (path.place t.here) = some .device
    · rw [if_pos hdevice]
      exact .inr (.inl ⟨rfl, hdevice⟩)
    · rw [if_neg hdevice]
      exact .inr (.inr ⟨_, rfl, wrote_insert hdirectory []⟩)

/-- What is stored in an open file is stored whole, or as much of it as there is space for. -/
theorem store_cases (bytes : List UInt8) (h : t.find? p = some (.file content)) :
    (∃ t', store p bytes t = .ok () t' ∧ t.Wrote p bytes t') ∨
    ∃ t' n, store p bytes t = .error .noSpace t' ∧ t.space = some n ∧ n < bytes.length ∧
      t.Wrote p (bytes.take n) t' := by
  have hdirectory : t.find? p ≠ some .directory := by simp [h]
  have hdevice : t.find? p ≠ some .device := by simp [h]
  have hstore : store p bytes t = (if t.space.getD bytes.length < bytes.length then throw .noSpace else pure () :
      EStateM FileError FileTree Unit) (t.insert p (.file (bytes.take (t.space.getD bytes.length)))) := by
    rw [store, get_bind, if_neg hdevice]
    rfl
  rw [hstore]
  split
  · next hlt =>
    cases hspace : t.space with
    | none => simp [hspace] at hlt
    | some n =>
      rw [hspace] at hlt
      exact .inr ⟨_, n, rfl, rfl, hlt, wrote_insert hdirectory _⟩
  · next hle =>
    rw [List.take_of_length_le (Nat.not_lt.mp hle)]
    exact .inl ⟨_, rfl, wrote_insert hdirectory _⟩

theorem store_device (bytes : List UInt8) (h : t.find? p = some .device) : store p bytes t = .ok () t := by
  rw [store, get_bind, if_pos h]
  rfl

end FileTree

/-! ## How a run ends -/

/-- No trouble with files is an error in the description. -/
theorem exit_ofFileError (e : FileError) (p : Path) :
    (Trouble.ofFileError e p).exit = .usage ∨ (Trouble.ofFileError e p).exit = .internal := by
  cases e <;> simp [Trouble.ofFileError, Trouble.exit]

theorem exit_ofSourceError (e : SourceError) (p : Path) :
    (Trouble.ofSourceError e p).exit = .usage ∨ (Trouble.ofSourceError e p).exit = .internal := by
  cases e with
  | file e => exact exit_ofFileError e p
  | text m => exact .inl rfl

/-- What is left of a text that could not be written: nothing if it has a character that stands for a byte,
else as much as there is space for. -/
inductive Remnant (stray : Char → Option UInt8) (t : FileTree) (text : String) : List UInt8 → Prop where
  | nothing (h : ∃ c ∈ text.toList, (stray c).isSome = true) : Remnant stray t text []
  | part {bytes : List UInt8} {n : Nat} (decodes : Utf8.decode bytes = .ok text.toList)
      (space : t.space = some n) (lt : n < bytes.length) : Remnant stray t text (bytes.take n)

variable {stray : Char → Option UInt8} {t : FileTree} {r : Request} {c : Compilation}

/-- The whole text is in the file that it goes to, unless that is a device. -/
def Stored (t : FileTree) (p : Place) (text : String) (t' : FileTree) : Prop :=
  (t.find? p = some .device ∧ t' = t) ∨
    ∃ bytes, Utf8.decode bytes = .ok text.toList ∧ t.Wrote p bytes t'

/-- The steps of a delivery. Each leaves its files, also when it fails. -/
theorem deliver_eq (stray : Char → Option UInt8) (r : Request) (c : Compilation) (t : FileTree) :
    deliver stray r c t =
      if (r.target c).place t.here = r.input.place t.here then
        .error (.unusable s!"output file would overwrite the input '{r.input.text}'") t
      else match FileTree.openEmpty (r.target c) t with
        | .error e t => .error (.ofFileError e (r.target c)) t
        | .ok p t =>
          match Utf8.encode stray c.text with
          | .error u => .error (.internal u.message) t
          | .ok bytes =>
            match FileTree.store p bytes t with
            | .error e t => .error (.ofFileError e (r.target c)) t
            | .ok () t => .ok (r.target c) t := by
  show (if (r.target c).place t.here = r.input.place t.here then _ else (_ : EStateM Trouble FileTree Path)) t = _
  split
  · rfl
  show EStateM.bind (EStateM.adaptExcept _ _) _ _ = _
  delta EStateM.bind EStateM.adaptExcept
  cases FileTree.openEmpty (r.target c) t with
  | error e t => rfl
  | ok p t =>
    cases Utf8.encode stray c.text with
    | error u => rfl
    | ok bytes =>
      show EStateM.bind (EStateM.adaptExcept _ _) _ _ = _
      delta EStateM.bind EStateM.adaptExcept
      dsimp only
      cases FileTree.store p bytes t with
      | error e t => rfl
      | ok x t => rfl

/-- A result is delivered to a file that is not the input, or the files are as before, or only a remnant of
the result is in its file. -/
theorem deliver_cases (stray : Char → Option UInt8) (r : Request) (c : Compilation) (t : FileTree) :
    (∃ trouble, deliver stray r c t = .error trouble t ∧ (trouble.exit = .usage ∨ trouble.exit = .internal)) ∨
    (r.target c).place t.here ≠ r.input.place t.here ∧
      ((∃ trouble t' kept, deliver stray r c t = .error trouble t' ∧ trouble.exit = .internal ∧
          Remnant stray t c.text kept ∧ t.Wrote ((r.target c).place t.here) kept t') ∨
        ∃ t', deliver stray r c t = .ok (r.target c) t' ∧ Stored t ((r.target c).place t.here) c.text t') := by
  rw [deliver_eq]
  split
  · exact .inl ⟨_, rfl, .inl rfl⟩
  next hapart =>
  rcases FileTree.openEmpty_cases (r.target c) t with ⟨e, hopen⟩ | ⟨hopen, hdevice⟩ | ⟨t', hopen, hempty⟩
  · rw [hopen]
    exact .inl ⟨_, rfl, exit_ofFileError e _⟩
  · rw [hopen]
    dsimp only
    cases hbytes : Utf8.encode stray c.text with
    | error u => exact .inl ⟨_, rfl, .inr rfl⟩
    | ok bytes =>
      dsimp only
      rw [FileTree.store_device bytes hdevice]
      exact .inr ⟨hapart, .inr ⟨t, rfl, .inl ⟨hdevice, rfl⟩⟩⟩
  · rw [hopen]
    dsimp only
    refine .inr ⟨hapart, ?_⟩
    cases hbytes : Utf8.encode stray c.text with
    | error u =>
      exact .inl ⟨_, t', [], rfl, rfl, .nothing (Utf8.exists_stray_of_encode hbytes), hempty⟩
    | ok bytes =>
      have hdecodes := Utf8.decode_of_encode hbytes
      dsimp only
      rcases FileTree.store_cases bytes hempty.written with
        ⟨t'', hstore, hwrote⟩ | ⟨t'', n, hstore, hspace, hlt, hwrote⟩
      · rw [hstore]
        exact .inr ⟨t'', rfl, .inr ⟨bytes, hdecodes, hempty.trans hwrote⟩⟩
      · rw [hstore]
        obtain ⟨es, rfl⟩ := hempty.frame
        exact .inl ⟨_, t'', _, rfl, rfl, .part hdecodes hspace hlt, hempty.trans hwrote⟩

theorem conclude_eq (t : FileTree) (r : Request) (c : Compilation) (output : Path) (log : String) :
    (conclude t r c output log).files = t ∧
      (conclude t r c output log).exit = if c.report.errors = [] then .success else .errors := by
  unfold conclude
  dsimp only
  by_cases herrors : c.report.errors = [] <;> simp [Compilation.success, herrors]

/-- The arguments are accepted, and the description is compiled. -/
def Compiles (system : System) (args : List String) (t : FileTree) (r : Request) (c : Compilation) : Prop :=
  system.parse overrides args t = .accepts r ∧
    ∃ p, compileFile t r.options r.input = .ok p ∧ p.result = .ok c

theorem Compiles.exists_read {system : System} {args : List String} (h : Compiles system args t r c) :
    ∃ bytes, t.read r.input = .ok bytes := by
  obtain ⟨-, p, hp, -⟩ := h
  unfold compileFile readSource at hp
  cases hread : t.read r.input with
  | error e =>
    rw [hread] at hp
    cases hp
  | ok bytes => exact ⟨bytes, rfl⟩

/-- What has become of a result that did not go to the input: its file has only a remnant of it, or the run
tells whether the description has errors. -/
structure Delivered (stray : Char → Option UInt8) (t : FileTree) (r : Request) (c : Compilation) (o : Outcome) :
    Prop where
  apart : (r.target c).place t.here ≠ r.input.place t.here
  ends : (o.exit = .internal ∧ ∃ kept, Remnant stray t c.text kept ∧
      t.Wrote ((r.target c).place t.here) kept o.files) ∨
    (o.exit = (if c.report.errors = [] then .success else .errors) ∧
      Stored t ((r.target c).place t.here) c.text o.files)

/-- A run fails and leaves the files as they are, only informs, or delivers a result. -/
theorem run_cases (system : System) (args : List String) (t : FileTree) :
    ((run system args t).files = t ∧
      ((run system args t).exit = .usage ∨ (run system args t).exit = .internal)) ∨
    (∃ text, system.parse overrides args t = .informs text ∧ (run system args t).files = t ∧
      (run system args t).exit = .success) ∨
    ∃ r c, Compiles system args t r c ∧ Delivered system.stray t r c (run system args t) := by
  unfold run
  cases hparse : system.parse overrides args t with
  | informs text => exact .inr (.inl ⟨text, rfl, rfl, rfl⟩)
  | refused text => exact .inl ⟨rfl, .inl rfl⟩
  | accepts r =>
    dsimp only
    unfold execute
    cases hp : compileFile t r.options r.input with
    | error e => exact .inl ⟨rfl, exit_ofSourceError e _⟩
    | ok p =>
      dsimp only
      cases hc : p.result with
      | error f => exact .inl ⟨rfl, .inr rfl⟩
      | ok c =>
        have hcompiles : Compiles system args t r c := ⟨hparse, p, hp, hc⟩
        dsimp only
        rcases deliver_cases system.stray r c t with ⟨trouble, heq, hexit⟩ | ⟨hapart, hend⟩
        · rw [heq]
          exact .inl ⟨rfl, hexit⟩
        · refine .inr (.inr ⟨r, c, hcompiles, hapart, ?_⟩)
          rcases hend with ⟨trouble, t', kept, heq, hexit, hremnant, hwrote⟩ | ⟨t', heq, hstored⟩
          · rw [heq]
            exact .inl ⟨hexit, kept, hremnant, hwrote⟩
          · rw [heq]
            obtain ⟨hfiles, hexit⟩ := conclude_eq t' r c (r.target c) (logText r.verbose p.notes)
            exact .inr ⟨hexit, hfiles.symm ▸ hstored⟩

/-- A result that goes to another file leaves the input as it is, if that has no other name. -/
theorem Delivered.read_input {o : Outcome} {content : List UInt8} (h : Delivered stray t r c o)
    (hread : t.read r.input = .ok content)
    (hsole : ∀ q, t.origin q = t.origin (r.input.place t.here) → q = r.input.place t.here) :
    o.files.read r.input = .ok content := by
  have hne : t.origin (r.input.place t.here) ≠ t.origin ((r.target c).place t.here) :=
    fun heq => h.apart (hsole _ heq.symm)
  rcases h.ends with ⟨-, kept, -, hwrote⟩ | ⟨-, ⟨-, heq⟩ | ⟨bytes, -, hwrote⟩⟩
  · exact hwrote.read hread hne
  · rw [heq, hread]
  · exact hwrote.read hread hne

/-- A run never damages its input, and does all or nothing, whatever reads the arguments. An accepted input
is read as before, unless it has another name. A run that ends with 2 or 3 leaves the files as they are; but
one that fails when its output is open, since the text cannot be encoded or there is no space for it, has left
a remnant there. One that ends with 0 or 1 and does not only inform has compiled its input: unless the output
is a device, it has written one file, whose bytes spell the diagnostics and the code of the result, and it ends
with 1 if there are errors. -/
theorem run_protects_input (system : System) (args : List String) (t : FileTree) :
    (∀ r, system.parse overrides args t = .accepts r →
      (∀ q, t.origin q = t.origin (r.input.place t.here) → q = r.input.place t.here) →
      (run system args t).files.read r.input = t.read r.input) ∧
    ((run system args t).exit.code = 2 ∨ (run system args t).exit.code = 3 →
      (run system args t).files = t ∨
      (run system args t).exit.code = 3 ∧ ∃ r c kept, Compiles system args t r c ∧
        Remnant system.stray t (c.diagnostics ++ c.code) kept ∧
        t.Wrote ((r.target c).place t.here) kept (run system args t).files) ∧
    ((run system args t).exit.code = 0 ∨ (run system args t).exit.code = 1 →
      (∃ text, system.parse overrides args t = .informs text ∧ (run system args t).files = t) ∨
      ∃ r c, Compiles system args t r c ∧ (r.target c).place t.here ≠ r.input.place t.here ∧
        ((t.find? ((r.target c).place t.here) = some .device ∧ (run system args t).files = t) ∨
          ∃ bytes, Utf8.decode bytes = .ok (c.diagnostics ++ c.code).toList ∧
            t.Wrote ((r.target c).place t.here) bytes (run system args t).files) ∧
        ((run system args t).exit.code = 1 ↔ c.report.errors ≠ [])) := by
  rcases run_cases system args t with
    ⟨hfiles, hexit⟩ | ⟨text, htext, hfiles, hexit⟩ | ⟨r, c, hcompiles, hdelivered⟩
  · refine ⟨fun _ _ _ => by rw [hfiles], fun _ => .inl hfiles, ?_⟩
    rcases hexit with hexit | hexit <;> simp [hexit, Exit.code]
  · exact ⟨fun _ _ _ => by rw [hfiles], fun _ => .inl hfiles, fun _ => .inl ⟨text, htext, hfiles⟩⟩
  refine ⟨fun r' hr' hsole => ?_, ?_⟩
  · obtain rfl := Reading.accepts.inj (hcompiles.1.symm.trans hr')
    obtain ⟨content, hread⟩ := hcompiles.exists_read
    rw [hread]
    exact hdelivered.read_input hread hsole
  rcases hdelivered.ends with ⟨hexit, kept, hremnant, hwrote⟩ | ⟨hexit, hstored⟩
  · rw [hexit]
    exact ⟨fun _ => .inr ⟨rfl, r, c, kept, hcompiles, hremnant, hwrote⟩, by simp [Exit.code]⟩
  · have hcode : (run system args t).exit.code = if c.report.errors = [] then 0 else 1 := by
      rw [hexit]
      split <;> rfl
    rw [hcode]
    refine ⟨fun h => ?_, fun _ => .inr ⟨r, c, hcompiles, hdelivered.apart, hstored, ?_⟩⟩
    · split at h <;> simp at h
    · split <;> simp_all

/-- A device keeps nothing of a result, an undecoded byte of an argument costs the output what it had, and an
input with two names is overwritten by the other. -/
theorem run_not_all_or_nothing :
    let t : FileTree := .ofList [("a.h", .file []), ("out.js", .file [65])]
    let input : Place := ⟨["work", "cdvc", "a.h"]⟩
    let withDevice := t.insertDeep ⟨["dev", "null"]⟩ .device
    let toDevice := run shell ["a.h", "/dev/null"] withDevice
    let unencoded := run { shell with stray := fun c => if c = '~' then some 0xFF else none }
      ["-p", "inject=~", "a.h", "out.js"] t
    let toName := run shell ["a.h", "b.h"] { t with names := [(⟨["work", "cdvc", "b.h"]⟩, input)] }
    (toDevice.exit.code = 0 ∧ toDevice.files = withDevice) ∧
      (unencoded.exit.code = 3 ∧ unencoded.files.find? ⟨["work", "cdvc", "out.js"]⟩ = some (.file [])) ∧
      toName.exit.code = 0 ∧ toName.files.find? input ≠ some (.file []) := by
  decide +kernel

/-- The input is found out however it is spelled. -/
example : (run shell ["a.h", "b/../../cdvc/./a.h"] (.ofList [("a.h", .file [])])).exit = .usage := by
  decide +kernel

end RecordView.Command
