import LocaleLift.Script.Tree
import LocaleLift.Text.Utf8

/-! Grammar rules as data, and the tree builder that follows them. -/
namespace LocaleLift.Script

/-- A place in a source: the bytes before it and the text after it. -/
structure Cursor where
  offset : Nat
  rest : Text
  deriving DecidableEq, Repr

def Cursor.advance (c : Cursor) (n : Nat) : Cursor :=
  ⟨c.offset + Utf8.size (c.rest.take n), c.rest.drop n⟩

/-- A scanner tells how many code points of a text make up one token, if there is one. -/
abbrev Scanner := Text → Option Nat

/-- A grammar rule over phrases named by `P`. A choice takes the first alternative that matches
and does not come back to the others. -/
inductive Rule (P : Type) where
  /-- Nothing matches. -/
  | fail
  /-- The empty text matches. -/
  | done
  /-- What may stand between tokens, as far as it goes. -/
  | gap
  /-- A token that begins right here. -/
  | scan (s : Scanner)
  /-- The phrase of a given name. -/
  | phrase (p : P)
  /-- One rule after another. -/
  | seq (x y : Rule P)
  /-- One rule, or else another. -/
  | alt (x y : Rule P)
  /-- A rule as often as it matches. -/
  | many (x : Rule P)
  /-- The rule would match here. -/
  | ahead (x : Rule P)
  /-- The rule would not match here. -/
  | absent (x : Rule P)
  /-- What the rule matches is a node. -/
  | node (kind : Kind) (x : Rule P)
  /-- The nodes of the rule play a part in the node around them. -/
  | field (f : Field) (x : Rule P)
  /-- What the first rule matches; then, as long as that is of an admitted kind and the second rule
  matches, the node of the second with all that came before as its first child. -/
  | grow (x : Rule P) (admits : Kind → Bool) (y : Rule P)
  /-- The rest of a growth that began at an offset and has come to the given nodes. -/
  | grown (start : Nat) (heads : List Node) (admits : Kind → Bool) (y : Rule P)

namespace Rule

variable {P : Type}

instance : AndThen (Rule P) := ⟨fun x y => seq x (y ())⟩
instance : OrElse (Rule P) := ⟨fun x y => alt x (y ())⟩
instance : Inhabited (Rule P) := ⟨fail⟩

def opt (x : Rule P) : Rule P :=
  alt x done

def when (condition : Bool) (x : Rule P) : Rule P :=
  if condition then x else fail

def token (s : Scanner) : Rule P :=
  seq gap (scan s)

def tree (k : Kind) (x : Rule P) : Rule P :=
  seq gap (node k x)

def chain (x y : Rule P) : Rule P :=
  seq gap (grow x (fun _ => true) y)

/-- The part that the first child plays in a node that has grown around it. -/
def headField : Kind → Option Field
  | .call => some .function
  | _ => none

def adopt (start : Nat) (heads : List Node) : Node → Node
  | .mk k f _ b cs =>
    let heads := match headField k with
      | some part => heads.map (·.withField part)
      | none => heads
    .mk k f start b (heads ++ cs)

/-- Follow a rule from a place, where `between` tells how much may be skipped before a token and
`g` gives the rule of each phrase. The depth bounds how often rules may be entered inside each
other; a match that would need more fails. -/
def run (between : Text → Nat) (g : P → Rule P) :
    Nat → Rule P → Cursor → Option (Cursor × List Node)
  | 0, _, _ => none
  | depth + 1, rule, c =>
    match rule with
    | fail => none
    | done => some (c, [])
    | gap => some (c.advance (between c.rest), [])
    | scan s => (s c.rest).map fun n => (c.advance n, [])
    | phrase p => run between g depth (g p) c
    | seq x y =>
      match run between g depth x c with
      | none => none
      | some (c, xs) =>
        match run between g depth y c with
        | none => none
        | some (c, ys) => some (c, xs ++ ys)
    | alt x y =>
      match run between g depth x c with
      | none => run between g depth y c
      | some r => some r
    | many x =>
      match run between g depth x c with
      | none => some (c, [])
      | some (d, xs) =>
        match run between g depth (many x) d with
        | none => none
        | some (e, ys) => some (e, xs ++ ys)
    | ahead x => (run between g depth x c).map fun _ => (c, [])
    | absent x => if (run between g depth x c).isSome then none else some (c, [])
    | node k x =>
      (run between g depth x c).map fun (d, xs) => (d, [.mk k none c.offset d.offset xs])
    | field f x => (run between g depth x c).map fun (d, xs) => (d, xs.map (·.withField f))
    | grow x admits y =>
      match run between g depth x c with
      | none => none
      | some (d, xs) => run between g depth (grown c.offset xs admits y) d
    | grown start heads admits y =>
      if heads.all fun n => admits n.kind then
        match run between g depth y c with
        | none => some (c, heads)
        | some (d, ys) => run between g depth (grown start (ys.map (adopt start heads)) admits y) d
      else some (c, heads)

end Rule
end LocaleLift.Script
