import LocaleLift.Text

/-! Syntax trees of scripts, as far as the rules on literals tell their nodes apart. -/
namespace LocaleLift.Script

/-- What a node is. Constructs that no rule singles out are `other`. -/
inductive Kind where
  /-- A string literal with its quotes. -/
  | string
  /-- A template literal with its backquotes. -/
  | template
  /-- A substitution inside a template literal. -/
  | substitution
  /-- The words between the tags of a markup element. -/
  | elementText
  /-- An attribute of a markup element. -/
  | attribute
  /-- A call: the function and its arguments. -/
  | call
  /-- The parenthesised arguments of a call. -/
  | arguments
  /-- The choice of a named member. -/
  | member
  /-- A literal used as a type. -/
  | literalType
  /-- The body of an enumeration. -/
  | enumBody
  /-- The choice of a member by a computed name. -/
  | subscript
  /-- An expression in parentheses. -/
  | group
  /-- An expression asserted not to be null. -/
  | nonNull
  /-- A declaration of block-scoped variables. -/
  | declaration
  /-- One variable of a declaration. -/
  | declarator
  /-- A name, or another word that stands for a value. -/
  | word
  /-- Anything else. -/
  | other
  deriving DecidableEq, Repr, Inhabited

/-- The part that a node plays in its parent. -/
inductive Field where
  | key
  | name
  | property
  | source
  | function
  | arguments
  | value
  deriving DecidableEq, Repr

/-- A node of a syntax tree: its kind, its part in the parent, the range of bytes it covers and
its children in order. -/
inductive Node where
  | mk (kind : Kind) (field : Option Field) (start stop : Nat) (children : List Node)
  deriving Repr

namespace Node

instance : Inhabited Node := ⟨.mk .other none 0 0 []⟩

mutual

def decEq : (m n : Node) → Decidable (m = n)
  | mk k f a b cs, mk k' f' a' b' cs' =>
    match decEqAll cs cs' with
    | isTrue h => decidable_of_iff (k = k' ∧ f = f' ∧ a = a' ∧ b = b') (by simp [h])
    | isFalse h => isFalse (by simp [h])

def decEqAll : (ms ns : List Node) → Decidable (ms = ns)
  | [], [] => isTrue rfl
  | [], _ :: _ => isFalse nofun
  | _ :: _, [] => isFalse nofun
  | m :: ms, n :: ns =>
    match decEq m n, decEqAll ms ns with
    | isTrue h, isTrue hs => isTrue (by rw [h, hs])
    | isFalse h, _ => isFalse fun heq => h (List.cons.inj heq).1
    | _, isFalse hs => isFalse fun heq => hs (List.cons.inj heq).2

end

instance : DecidableEq Node := decEq

def kind : Node → Kind
  | mk k _ _ _ _ => k

def field : Node → Option Field
  | mk _ f _ _ _ => f

def start : Node → Nat
  | mk _ _ a _ _ => a

def stop : Node → Nat
  | mk _ _ _ b _ => b

def children : Node → List Node
  | mk _ _ _ _ cs => cs

def withField (f : Field) : Node → Node
  | mk k _ a b cs => mk k (some f) a b cs

def child? (n : Node) (f : Field) : Option Node :=
  n.children.find? fun c => c.field == some f

/-- Whether two nodes of one tree have the same kind and range. -/
def same (m n : Node) : Bool :=
  m.kind == n.kind && m.start == n.start && m.stop == n.stop

def isPart (n parent : Node) (f : Field) : Bool :=
  match parent.child? f with
  | some c => c.same n
  | none => false

end Node

end LocaleLift.Script
