import LocaleLift.Failure

/-! What is said of a failed run or source, and the place it happened at. -/
namespace LocaleLift

/-- A place in a source is a line, and a column if it is known. -/
structure Place where
  line : Int
  column : Option Int
  deriving DecidableEq, Repr

def Place.text (p : Place) : Text :=
  " (line " ++ Text.ofInt p.line ++ ", column " ++ (p.column.map Text.ofInt).getD "None" ++ ")"

/-- A diagnostic is a message, with the place in the source if there is one. -/
structure Diagnostic where
  message : Text
  place : Option Place
  deriving DecidableEq, Repr

def Diagnostic.text (d : Diagnostic) : Text :=
  d.message ++ (d.place.map Place.text).getD []

end LocaleLift
