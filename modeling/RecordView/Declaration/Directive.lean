import RecordView.Declaration.Reader

/-! Comments and directives between and inside declarations. -/
namespace RecordView.Declaration.Reader

/-- Whether a comment goes into the script. -/
def keepsComment (s : State) : Bool :=
  match s.settings.comments with
  | .all => true
  | .header => !s.commentSeen && !s.declared
  | .none => false

def comment (t : Token) : Reader Unit :=
  modify fun s =>
    { s with
      commentSeen := true
      script := if keepsComment s then s.script.verbatim t.text else s.script }

/-- Gives a setting its value, or takes the value over into the script. -/
def applySetting (name value : String) : Reader Unit := do
  let s ← get
  if name = "inject" then set { s with script := s.script.verbatim value }
  else
    match Settings.change name value s.declared s.settings with
    | .ok _ settings => set { s with settings }
    | .error r settings =>
      set { s with settings }
      throw (.refused ⟨.setting r, none, none⟩)

/-- A comment at the end of a directive line. -/
def commentRound (_ : Unit) : Reader (Round Unit Unit) := do
  if (← peek).kind = .comment then
    let _ ← advance
    return .again ()
  else return .done ()

/-- The end of a directive line, after comments. -/
def endOfDirective : Reader Unit := do
  rounds commentRound ()
  let t ← peek
  if t.kind = .newline then
    let _ ← advance
  else if t.kind ≠ .eof then unexpected t .endOfLine

/-- The rest of a pragma from its value on, which is next. -/
def settingValue (mark name value : Token) : Reader Unit := do
  if value.kind ≠ .blob then refuse name.location (.malformed (.pragmaValue name.text))
  let _ ← advance
  applySetting name.text value.text
  log (.setting mark.line name.text value.text)
  endOfDirective

/-- A directive line. The only directive besides conditions is a pragma; it takes effect before the
end of its line is read, and so before the next line is drawn. -/
def directive : Reader Unit := do
  let mark ← advance
  if mark.directive? ≠ some "pragma" then
    refuse mark.location (.malformed (.unknownDirective mark.text))
  let name ← peek
  if name.kind ≠ .identifier then refuse mark.location (.malformed .pragmaName)
  let _ ← advance
  let value ← peek
  if value.kind = .other ∧ value.text.toList.head? = some '(' then
    let _ ← advance
    refuse value.location (.malformed (.pragmaUnclosed name.text))
  settingValue mark name value

end RecordView.Declaration.Reader
