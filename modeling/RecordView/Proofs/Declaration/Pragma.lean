import RecordView.Proofs.Declaration.Progress

/-! A pragma line is read at once: it gives one setting its value, and the reading goes on behind it. -/
namespace RecordView.Declaration
open Reader

variable {env : Env} {s : State} {t mark name value ending : Token} {ts post : List Token}
  {u : Settings} {c : Script}

/-! ## Tokens without conditions -/

structure State.Clear (s : State) : Prop where
  ahead : s.ahead = []
  eof : s.eof = none
  active : s.frames.active = true

/-- A token that is no conditional directive. -/
def Plain (t : Token) : Prop := t.kind ≠ .eof ∧ ConditionWord.ofToken? t = none

theorem plain_of_kind (ht : t.kind ≠ .eof) (hd : t.kind ≠ .directive) : Plain t := by
  refine ⟨ht, ?_⟩
  simp [ConditionWord.ofToken?, Token.directive?, hd]

def State.look (s : State) (t : Token) (ts : List Token) : State := { s with unread := ts, ahead := [t] }

def State.pass (s : State) (t : Token) (ts : List Token) : State :=
  { s with unread := ts, ahead := [], taken := s.taken + 1, last := some t }

theorem State.Clear.pass (hs : s.Clear) (t : Token) (ts : List Token) : (s.pass t ts).Clear :=
  ⟨rfl, hs.eof, hs.active⟩

theorem peek_plain (hs : s.Clear) (ht : Plain t) (hunread : s.unread = t :: ts) :
    peek env s = .ok t (s.look t ts) := by
  have hdraw : s.draw env = ⟨.ok (some t), ts, s.frames, [], []⟩ := by
    rw [State.draw, hunread, Frames.draw_plain_cons ht.1 ht.2, if_pos hs.active]
  rw [peek_of_draw env hs.ahead hs.eof, hdraw]
  dsimp only
  rw [receive_seen ht.1]
  simp [State.drawn, State.look, Report.addAll, hs.ahead]

theorem advance_look (ht : t.kind ≠ .eof) : advance env (s.look t ts) = .ok t (s.pass t ts) := by
  rw [advance_apply, peek_of_ahead (t := t) rfl]
  exact if_neg ht

theorem peek_look : peek env (s.look t ts) = .ok t (s.look t ts) := peek_of_ahead rfl

/-- The end of a directive line is taken. -/
theorem endOfDirective_eq (hs : s.Clear) (ht : t.kind = .newline) (hunread : s.unread = t :: ts) :
    endOfDirective env s = .ok () (s.pass t ts) := by
  have hplain : Plain t := plain_of_kind (by simp [ht]) (by simp [ht])
  have hpeek : peek env s = .ok t (s.look t ts) := peek_plain hs hplain hunread
  have hcomments : rounds (fun () => do
      if (← peek).kind = .comment then
        let _ ← advance
        return .again ()
      else return .done ()) () env s = .ok () (s.look t ts) := by
    rw [rounds, bind_apply, hpeek]
    simp [ht]
    rfl
  refine bind_ok.mpr ⟨(), s.look t ts, hcomments, bind_ok.mpr ⟨t, s.look t ts, peek_look, ?_⟩⟩
  rw [if_pos ht]
  exact bind_ok.mpr ⟨t, s.pass t ts, advance_look hplain.1, rfl⟩

/-! ## The line -/

/-- To give the setting its value is to go on with these settings and this script. -/
inductive Sets (s : State) (name value : String) : Settings → Script → Prop where
  | verbatim (named : name = "inject") : Sets s name value s.settings (s.script.verbatim value)
  | setting {u : Settings} (named : name ≠ "inject")
      (accepted : s.settings.apply name value s.declared = .ok u) : Sets s name value u s.script

theorem Sets.applySetting_eq {name value : String} (h : Sets s name value u c) :
    applySetting name value env s = .ok () { s with settings := u, script := c } := by
  cases h with
  | verbatim named =>
    rw [applySetting_eq, get_bind_apply, if_pos named]
    rfl
  | setting named accepted =>
    rw [applySetting_eq, get_bind_apply, if_neg named, accepted]
    rfl

structure PragmaLine (mark name value ending : Token) : Prop where
  pragma : mark.directive? = some "pragma"
  named : name.kind = .identifier
  blob : value.kind = .blob
  newline : ending.kind = .newline

def State.behind (s : State) (mark name value ending : Token) (post : List Token) (u : Settings)
    (c : Script) : State :=
  { s with
    unread := post, ahead := [], taken := s.taken + 4, last := some ending, settings := u, script := c
    notes := s.notes ++ [.setting mark.line name.text value.text] }

namespace PragmaLine

variable (h : PragmaLine mark name value ending)
include h

theorem kind : mark.kind = .directive := by
  have hpragma := h.pragma
  unfold Token.directive? at hpragma
  split at hpragma
  · assumption
  · cases hpragma

theorem plain_mark : Plain mark := by
  refine ⟨by rw [h.kind]; decide, ?_⟩
  rw [ConditionWord.ofToken?, h.pragma]
  decide

/-- The directive gives the setting its value and does no more. -/
theorem directive_eq (hs : s.Clear) (hsets : Sets s name.text value.text u c) :
    directive env (s.look mark (name :: value :: ending :: post)) =
      .ok () (s.behind mark name value ending post u c) := by
  have hmark : mark.kind ≠ .eof := by rw [h.kind]; decide
  have hname : Plain name := plain_of_kind (by simp [h.named]) (by simp [h.named])
  have hvalue : Plain value := plain_of_kind (by simp [h.blob]) (by simp [h.blob])
  have hclear₁ := hs.pass mark (name :: value :: ending :: post)
  have hclear₂ := hclear₁.pass name (value :: ending :: post)
  have hclear₃ := hclear₂.pass value (ending :: post)
  refine bind_ok.mpr ⟨mark, _, advance_look hmark, ?_⟩
  rw [if_neg (by simp [h.pragma])]
  refine bind_ok.mpr ⟨name, _, peek_plain hclear₁ hname rfl, ?_⟩
  rw [if_neg (by simp [h.named])]
  refine bind_ok.mpr ⟨name, _, advance_look hname.1, ?_⟩
  refine bind_ok.mpr ⟨value, _, peek_plain hclear₂ hvalue rfl, ?_⟩
  dsimp only
  rw [if_neg (by simp [h.blob]), settingValue, if_neg (by simp [h.blob])]
  refine bind_ok.mpr ⟨value, _, advance_look hvalue.1, ?_⟩
  generalize hp : ((s.pass mark _).pass name _).pass value (ending :: post) = p at hclear₃ ⊢
  have hsets' : Sets p name.text value.text u c := by
    subst hp
    cases hsets with
    | verbatim named => exact .verbatim named
    | setting named accepted => exact .setting named accepted
  let q : State := { p with
    settings := u, script := c, notes := p.notes ++ [.setting mark.line name.text value.text] }
  have hunread' : p.unread = ending :: post := by rw [← hp]; rfl
  have hend : endOfDirective env q = .ok () (q.pass ending post) :=
    endOfDirective_eq ⟨hclear₃.ahead, hclear₃.eof, hclear₃.active⟩ h.newline hunread'
  refine bind_ok.mpr ⟨(), _, hsets'.applySetting_eq, bind_ok.mpr ⟨(), q, rfl, hend.trans ?_⟩⟩
  subst hp
  rfl

/-- The round of a description that reads the line changes no more than the setting. -/
theorem statementRound_eq (hs : s.Clear) (hunread : s.unread = mark :: name :: value :: ending :: post)
    (hfull : s.report.full = false) (hsets : Sets s name.text value.text u c) :
    statementRound () env s = .ok (.again ()) (s.behind mark name value ending post u c) := by
  have hnext : peek env s = .ok mark (s.look mark (name :: value :: ending :: post)) :=
    peek_plain hs h.plain_mark hunread
  have hstatement : statement env (s.look mark (name :: value :: ending :: post)) =
      directive env (s.look mark (name :: value :: ending :: post)) := by
    rw [statement, bind_apply, peek_look]
    simp [h.kind]
  rw [statementRound_attempt hfull hnext h.plain_mark.1, bind_apply, attempt, tryCatch_apply, hstatement,
    h.directive_eq hs hsets]
  rfl

end PragmaLine
end RecordView.Declaration
