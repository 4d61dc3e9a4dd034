import LocaleLift.Text.Parts
import LocaleLift.Text.Space

/-! Markup as a sequence of comments, tags and text. -/
namespace LocaleLift.Markup

def isNameChar (c : CodePoint) : Bool :=
  !c.isSpace && !("\"'<>/=" : Text).contains c

theorem isNameChar_of_isSpace {c : CodePoint} (h : c.isSpace = true) : isNameChar c = false := by
  rw [isNameChar, h]
  rfl

theorem isSpace_of_isNameChar {c : CodePoint} (h : isNameChar c = true) : c.isSpace = false := by
  rw [isNameChar, Bool.and_eq_true] at h
  simpa using h.1

/-- What may begin at a place in markup. -/
inductive Mark where
  | comment
  | tag
  | interpolation
  deriving DecidableEq, Repr

/-- The places after an opening angle bracket at which a tag begins. -/
def startsTag (c : CodePoint) : Bool :=
  c.inRange 0x41 0x5A || c.inRange 0x61 0x7A || c == .scalar '/' || c == .scalar '!'

/-- How far a tag reaches: up to the first closing bracket outside quotes, or to the end. -/
def tagLength : Option CodePoint → Text → Nat
  | _, [] => 0
  | some q, c :: t => 1 + tagLength (if c = q then none else some q) t
  | none, c :: t =>
    if c = .scalar '>' then 1
    else 1 + tagLength (if c = .scalar '\x22' || c = .scalar '\x27' then some c else none) t

/-- How far it is to the end of the first occurrence of a pattern. -/
def through? (pattern t : Text) : Option Nat :=
  (Text.splitAt? pattern t).map fun (before, _) => before.length + pattern.length

/-- The comment, interpolation or tag that begins at a place. A comment that is not closed reaches
to the end; an interpolation that is not closed is none. -/
def matchMark : Matcher Mark := fun c t =>
  if c = .scalar '<' then
    if Text.startsWith "!--" t then
      some (.comment, ((through? "-->" (t.drop 3)).map (· + 3)).getD t.length)
    else if t.head?.any startsTag then some (.tag, tagLength none t)
    else none
  else if c = .scalar '\x7b' && t.head? == some (.scalar '\x7b') then
    (through? "\x7d\x7d" (t.drop 1)).map fun n => (.interpolation, n + 1)
  else none

/-- The kinds of tokens. -/
inductive TokenKind where
  | comment
  | tag
  | text
  deriving DecidableEq, Repr

/-- A token: its kind and the chunk of markup it covers. -/
structure Token where
  kind : TokenKind
  chunk : Text
  deriving DecidableEq, Repr

namespace Token

/-- The kind of the token to which a part belongs. Interpolations belong to the text. -/
def kindOf : Part Mark → TokenKind
  | .found .comment _ => .comment
  | .found .tag _ => .tag
  | .found .interpolation _ | .plain _ => .text

/-- Put a part before tokens: text joins text, everything else stands alone. -/
def cons (p : Part Mark) : List Token → List Token
  | ⟨.text, chunk⟩ :: ts =>
    if kindOf p = .text then ⟨.text, p.text ++ chunk⟩ :: ts
    else ⟨kindOf p, p.text⟩ :: ⟨.text, chunk⟩ :: ts
  | ts => ⟨kindOf p, p.text⟩ :: ts

def ofParts (ps : List (Part Mark)) : List Token :=
  ps.foldr cons []

end Token

/-- The tokens of a piece of markup. Their chunks make it up. -/
def tokens (markup : Text) : List Token :=
  Token.ofParts (Text.parts matchMark markup)

private theorem flatten_cons_token (p : Part Mark) (ts : List Token) :
    (Token.cons p ts).flatMap Token.chunk = p.text ++ ts.flatMap Token.chunk := by
  rw [Token.cons.eq_def]
  split
  · split <;> simp
  · simp

/-- Nothing is lost: the chunks of the tokens make up the markup. -/
theorem flatten_tokens (markup : Text) : (tokens markup).flatMap Token.chunk = markup := by
  have hparts (ps : List (Part Mark)) :
      (Token.ofParts ps).flatMap Token.chunk = ps.flatMap Part.text := by
    induction ps with
    | nil => rfl
    | cons p ps ih =>
      rw [Token.ofParts, List.foldr_cons, flatten_cons_token, List.flatMap_cons, ← ih,
        Token.ofParts]
  rw [tokens, hparts, Text.flatten_parts]

end LocaleLift.Markup
