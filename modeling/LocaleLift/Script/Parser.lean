import LocaleLift.Failure
import LocaleLift.Script.Tree

/-! The parser that scripts are read with. -/
namespace LocaleLift.Script

/-- A parser gives the syntax tree of a source, if this is a sentence of a dialect. -/
class Parser where
  parse? : Dialect → Text → Option Node

export Parser (parse?)

end LocaleLift.Script
