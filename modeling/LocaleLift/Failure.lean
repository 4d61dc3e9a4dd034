import LocaleLift.Text.Quoted

/-! The dialects of script sources, and the causes for which a source is not localized. -/
namespace LocaleLift

/-- The grammars a script can be written in. The first and the last admit markup elements, the
last two admit types. -/
inductive Dialect where
  | javascript
  | typescript
  | tsx
  deriving DecidableEq, Repr

namespace Dialect

def name : Dialect → Text
  | javascript => "javascript"
  | typescript => "typescript"
  | tsx => "tsx"

def ofName? (t : Text) : Option Dialect :=
  [javascript, typescript, tsx].find? (·.name == t)

def hasTypes : Dialect → Bool
  | javascript => false
  | typescript | tsx => true

def hasElements : Dialect → Bool
  | typescript => false
  | javascript | tsx => true

end Dialect

/-- Why a source could not be localized. -/
inductive Failure where
  /-- The script is not a sentence of its dialect. -/
  | unparsable (dialect : Dialect)
  /-- There is no dialect of this name. -/
  | unknownDialect (name : Text)
  /-- The path names neither a component nor a script. -/
  | notScript (path : Text)
  /-- An edit that starts at this offset reaches into a later one. -/
  | overlap (start : Int)
  /-- An escape names a number of more than 31 bits. -/
  | escapeTooLarge
  /-- A surrogate stands where bytes are needed. -/
  | notEncodable
  deriving DecidableEq, Repr

def Failure.message : Failure → Text
  | unparsable d => "Failed to parse " ++ d.name ++ " source"
  | unknownDialect name => "Unknown script dialect: " ++ name.quoted
  | notScript path => "Not a script unit: " ++ path
  | overlap start => "Overlapping edits at byte " ++ Text.ofInt start
  | escapeTooLarge => "escape too large"
  | notEncodable => "surrogates not allowed"

/-- What is said of a failure in a log. The place where a script breaks off is left open. -/
def Failure.report (f : Failure) : Text :=
  match f with
  | unparsable _ => f.message ++ " (line #, column #)"
  | _ => f.message

end LocaleLift
