import RecordView.Text.Blank

/-! Paths of files: their spelling, and the places they lead to. -/
namespace RecordView.Command

/-- A path without empty parts and parts that stay in place. The root is empty for a path from the
working directory. -/
structure Path where
  root : String
  parts : List String
  deriving DecidableEq, Repr

namespace Path

/-- The parts of a text between slashes that lead somewhere. -/
def significant (text : String) : List String :=
  (Text.split '/' text).filter fun p => p != "" && p != "."

/-- Two slashes at the front are kept, more count as one. -/
def ofText (text : String) : Path :=
  let slashes := (text.toList.takeWhile (· == '/')).length
  ⟨if slashes = 0 then "" else if slashes = 2 then "//" else "/", significant text⟩

def text (p : Path) : String :=
  if p.root.isEmpty && p.parts.isEmpty then "." else p.root ++ "/".intercalate p.parts

/-- A name without what follows its last dot, unless the dot is its first or last character. -/
def stem (name : String) : String :=
  let cs := name.toList
  let tail := (cs.reverse.takeWhile (· != '.')).length
  if 0 < tail ∧ tail + 1 < cs.length then String.ofList (cs.take (cs.length - (tail + 1))) else name

/-- The path with another suffix. -/
def withSuffix (p : Path) (suffix : String) : Path :=
  match p.parts.getLast? with
  | some name => { p with parts := p.parts.dropLast ++ [stem name ++ "." ++ suffix] }
  | none => p

end Path

/-- A place, by the names that lead to it from the top of all. -/
structure Place where
  names : List String
  deriving DecidableEq, Repr

namespace Place

/-- The directory in which a place is. The top is in itself. -/
def parent (p : Place) : Place := ⟨p.names.dropLast⟩

/-- Where a part of a path leads from a directory. -/
def step (p : Place) (part : String) : Place :=
  if part = "" ∨ part = "." then p
  else if part = ".." then p.parent
  else ⟨p.names ++ [part]⟩

/-- Where a path with the given root starts, from the working directory `here`. -/
def start (here : Place) (root : String) : Place := if root.isEmpty then here else ⟨[]⟩

/-- The directories on the way to a place. -/
def ancestors (p : Place) : List Place := (List.range p.names.length).map fun n => ⟨p.names.take n⟩

end Place

/-- The place of a path, by its parts alone. -/
def Path.place (here : Place) (p : Path) : Place := p.parts.foldl Place.step (.start here p.root)

/-- The places that a path leads through, from its start to its end. -/
def Path.places (here : Place) (p : Path) : List Place :=
  (List.range (p.parts.length + 1)).map fun n => Path.place here { p with parts := p.parts.take n }

end RecordView.Command
