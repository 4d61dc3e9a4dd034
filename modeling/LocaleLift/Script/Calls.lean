import LocaleLift.Script.Tree
import LocaleLift.Text.Utf8

/-! Recognising the calls that look a key up. -/
namespace LocaleLift.Script

def Node.text (source : Text) (n : Node) : Text :=
  Utf8.slice n.start n.stop source

/-- The part of a callee that names the function: the last name of a chain of members. -/
def calledName? (callee : Node) : Option Node :=
  if callee.kind == .member then callee.child? .property else some callee

/-- Whether a node is a call of the look-up function, alone or as a member of something. -/
def isLookupCall (source function : Text) (n : Node) : Bool :=
  n.kind == .call && ((n.child? .function).bind calledName?).any fun c => c.text source == function

mutual

/-- Whether a call of the look-up function stands anywhere in a tree. -/
def hasLookupCall (source function : Text) : Node → Bool
  | .mk k f a b cs =>
    isLookupCall source function (.mk k f a b cs) || anyLookupCall source function cs

/-- Whether a call of the look-up function stands anywhere in several trees. -/
def anyLookupCall (source function : Text) : List Node → Bool
  | [] => false
  | n :: ns => hasLookupCall source function n || anyLookupCall source function ns

end

end LocaleLift.Script
