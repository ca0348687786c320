import RecordView.Command.Arguments

/-! The command: reads the files that a run may look at, runs it, and writes what it changed. -/
namespace RecordView.Command

/-- The text of a place for the system. -/
def Place.text (p : Place) : String := "/" ++ "/".intercalate p.names

/-- Adds what the system has at a place. -/
def probe (t : FileTree) (p : Place) : IO FileTree := do
  try
    let bytes ← IO.FS.readBinFile p.text
    return t.insert p (.file bytes.toList)
  catch e =>
    match e with
    | .inappropriateType .. => return t.insert p .directory
    | .permissionDenied .. => return { t.insert p (.file []) with unreadable := p :: t.unreadable }
    | _ => return t

/-- All that the system has on the way to some paths. -/
def snapshot (paths : List String) : IO FileTree := do
  let here := (Path.ofText (← IO.currentDir).toString).place ⟨[]⟩
  let mut t : FileTree := { here }
  for text in paths do
    for p in (Path.ofText text).places here do
      if (t.find? p).isNone then t ← probe t p
  return t

end RecordView.Command

open RecordView Command in
def main (args : List String) : IO UInt32 := do
  let before ← snapshot (reach args)
  let outcome := run shell args before
  for (p, c) in outcome.files.entries do
    if let .file bytes := c then
      if before.find? p != some c then IO.FS.writeBinFile p.text ⟨bytes.toArray⟩
  IO.print outcome.output
  IO.eprint outcome.errors
  return outcome.exit.code.toUInt32
