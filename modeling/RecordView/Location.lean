/-! Places in a description. -/
namespace RecordView

/-- A line and a column of a file, both counted from one. -/
structure Location where
  file : String
  line : Int
  column : Int
  deriving DecidableEq, Repr

def Location.text (l : Location) : String := s!"{l.file}:{l.line}:{l.column}"

end RecordView
