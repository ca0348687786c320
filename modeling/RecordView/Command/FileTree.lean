import RecordView.Command.Path
import RecordView.Text.Quoted

/-! Files and directories. -/
namespace RecordView.Command

/-- What is at a place. A device keeps nothing of what is written to it, and has nothing to read. -/
inductive Entry where
  | file (bytes : List UInt8)
  | directory
  | device
  deriving DecidableEq, Repr

/-- Why a file cannot be read or written. -/
inductive FileError where
  | noEntry
  | notDirectory
  | isDirectory
  | denied
  | noSpace
  deriving DecidableEq, Repr

def FileError.message (e : FileError) (p : Path) : String :=
  let shown := Text.display p.text
  match e with
  | noEntry => s!"[Errno 2] No such file or directory: {shown}"
  | denied => s!"[Errno 13] Permission denied: {shown}"
  | notDirectory => s!"[Errno 20] Not a directory: {shown}"
  | isDirectory => s!"[Errno 21] Is a directory: {shown}"
  | noSpace => "[Errno 28] No space left on device"

/-- Files and directories by their places. The working directory `here` and all above it are
directories. -/
structure FileTree where
  here : Place := ⟨["work", "cdvc"]⟩
  entries : List (Place × Entry) := []
  /-- Further names of files, each with the place of its file. -/
  names : List (Place × Place) := []
  /-- Files that may not be read, and directories that may not be entered. -/
  unreadable : List Place := []
  /-- Files that may not be written, and directories in which none may be made. -/
  unwritable : List Place := []
  /-- How many bytes a file can take, if not all. -/
  space : Option Nat := none
  deriving DecidableEq, Repr

namespace FileTree

/-- The place of the file that has a name. -/
def origin (t : FileTree) (p : Place) : Place := (t.names.lookup p).getD p

def find? (t : FileTree) (p : Place) : Option Entry :=
  if p.names.isPrefixOf t.here.names then some .directory else t.entries.lookup (t.origin p)

def readable (t : FileTree) (p : Place) : Bool := !t.unreadable.contains (t.origin p)

/-- Whether what is at a place may be written, or else a file may be made there. -/
def writable (t : FileTree) (p : Place) : Bool :=
  !t.unwritable.contains (if (t.find? p).isSome then t.origin p else p.parent)

/-- Puts something at a place, instead of what was there. -/
def insert (t : FileTree) (p : Place) (c : Entry) : FileTree :=
  { t with entries := (t.origin p, c) :: t.entries.filter fun e => e.1 != t.origin p }

/-- Puts something at a place and makes the directories on the way to it. -/
def insertDeep (t : FileTree) (p : Place) (c : Entry) : FileTree :=
  let reached := p.ancestors.foldl (fun t a => if (t.find? a).isSome then t else t.insert a .directory) t
  reached.insert p c

def ofList (entries : List (String × Entry)) : FileTree :=
  entries.foldl (fun t e => t.insertDeep ((Path.ofText e.1).place t.here) e.2) {}

/-- Follows the parts of a path; each part but the last is a directory. -/
def walk (t : FileTree) (p : Place) : List String → Except FileError Place
  | [] => .ok p
  | part :: parts =>
    match t.find? p with
    | some .directory => if t.readable p then walk t (p.step part) parts else .error .denied
    | some _ => .error .notDirectory
    | none => .error .noEntry

/-- What the text of a path leads to. A slash at the end asks for a directory. -/
def status (t : FileTree) (text : String) : Except FileError (Place × Entry) :=
  if text.isEmpty then .error .noEntry
  else do
    let parts := Text.split '/' text
    let p ← t.walk (.start t.here (if parts.head? = some "" then "/" else "")) parts
    match t.find? p with
    | some c => return (p, c)
    | none => throw .noEntry

def read (t : FileTree) (path : Path) : Except FileError (List UInt8) := do
  let p ← t.walk (.start t.here path.root) path.parts
  match t.find? p with
  | none => throw .noEntry
  | some c =>
    if !t.readable p then throw .denied
    match c with
    | .file bytes => return bytes
    | .directory => throw .isDirectory
    | .device => return []

/-- Opens a file for writing: it is made, or it loses what it has. -/
def openEmpty (path : Path) : EStateM FileError FileTree Place := do
  let t ← get
  match t.walk (.start t.here path.root) path.parts with
  | .error e => throw e
  | .ok p =>
    if t.find? p = some .directory then throw .isDirectory
    if !t.writable p then throw .denied
    if t.find? p = some .device then return p
    set (t.insert p (.file []))
    return p

/-- Stores bytes in a file that is open, as many as there is space for. -/
def store (p : Place) (bytes : List UInt8) : EStateM FileError FileTree Unit := do
  let t ← get
  if t.find? p = some .device then return
  let space := t.space.getD bytes.length
  set (t.insert p (.file (bytes.take space)))
  if space < bytes.length then throw .noSpace

end FileTree
end RecordView.Command
