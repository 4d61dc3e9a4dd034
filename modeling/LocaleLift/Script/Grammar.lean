import LocaleLift.Script.Grammar.Statements
import LocaleLift.Script.Parser

/-! The grammar of scripts in each dialect, and the syntax tree of a source. -/
namespace LocaleLift.Script

open Grammar in
def production (d : Dialect) : Phrase → Production
  | .statement => anyStatement d
  | .declaration => Grammar.declaration d
  | .block => Grammar.block
  | .expression results => operation d results
  | .operand results => Grammar.operand d results
  | .newTarget => Grammar.newTarget d
  | .template => Grammar.template
  | .object => Grammar.object d
  | .array => Grammar.array
  | .arguments => Grammar.arguments
  | .function => Grammar.function d
  | .classExpression => Grammar.classExpression d
  | .element => Grammar.element d
  | .pattern => Grammar.pattern d
  | .parameters => Grammar.parameters d
  | .decorator => Grammar.decorator d
  | .propertyName => Grammar.propertyName
  | .type => Grammar.type
  | .typeOperand => Grammar.typeOperand d
  | .typeArguments => Grammar.typeArguments
  | .typeParameters => Grammar.typeParameters
  | .objectType => Grammar.objectType d

def Grammar.source : Grammar.Production :=
  Rule.node .other
    (Rule.opt (Rule.scan Lexeme.interpreterLine) >> Grammar.statements >>
      Rule.token Lexeme.sourceEnd)

/-- How deep the rules for a source may be entered inside each other. -/
def depthFor (source : Text) : Nat :=
  256 * (source.length + 4)

/-- The syntax tree of a source, if it is a sentence of the dialect. -/
def Grammar.parse? (d : Dialect) (source : Text) : Option Node :=
  match Rule.run Lexeme.gap (production d) (depthFor source) Grammar.source ⟨0, source⟩ with
  | some (_, [root]) => some root
  | _ => none

/-- Scripts are read with the grammar. -/
instance : Parser := ⟨Grammar.parse?⟩

theorem Grammar.parse?_eq (d : Dialect) (source : Text) :
    Script.parse? d source = Grammar.parse? d source :=
  rfl

end LocaleLift.Script
