import LocaleLift.Markup.Token
import LocaleLift.Script.Binding

/-! Localizing the attributes of tags. -/
namespace LocaleLift.Markup

/-- An attribute with its quoted value, and the space before it. -/
structure Attribute where
  space : CodePoint
  name : Text
  /-- The equals sign and the space around it. -/
  equals : Text
  quote : CodePoint
  value : Text
  deriving DecidableEq, Repr

namespace Attribute

def text (a : Attribute) : Text :=
  a.space :: a.name ++ a.equals ++ a.quote :: a.value ++ [a.quote]

def matchAttribute : Matcher Attribute := fun c t =>
  if c.isSpace then
    let name := t.takeWhile isNameChar
    let t := t.drop name.length
    let before := t.takeWhile (·.isSpace)
    match t.drop before.length with
    | .scalar '=' :: t =>
      let after := t.takeWhile (·.isSpace)
      match t.drop after.length with
      | q :: t =>
        let value := t.takeWhile (· != q)
        let equals := before ++ .scalar '=' :: after
        if name.isEmpty || !(q = .scalar '\x22' || q = .scalar '\x27') ||
          value.length = t.length then none
        else some (⟨c, name, equals, q, value⟩, name.length + equals.length + value.length + 2)
      | [] => none
    | _ => none
  else none

private theorem takeWhile_append_drop (p : CodePoint → Bool) (t : Text) :
    t.takeWhile p ++ t.drop (t.takeWhile p).length = t :=
  List.prefix_iff_eq_append.mp (List.takeWhile_prefix p)

/-- A value ends with its quote, if that stands somewhere behind it. -/
private theorem quote_after {q : CodePoint} {t : Text}
    (h : (t.takeWhile (· != q)).length ≠ t.length) :
    ∃ rest, t = t.takeWhile (· != q) ++ q :: rest := by
  induction t with
  | nil => exact absurd rfl h
  | cons c t ih =>
    by_cases hc : c = q
    · subst hc
      exact ⟨t, by simp⟩
    · have hne : (c != q) = true := by simpa using hc
      rw [List.takeWhile_cons_of_pos (p := (· != q)) hne] at h ⊢
      obtain ⟨rest, hrest⟩ := ih (by simpa using h)
      exact ⟨rest, congrArg (c :: ·) hrest⟩

/-- An attribute is written as it was found. -/
theorem text_of_matchAttribute {c : CodePoint} {t : Text} {a : Attribute} {n : Nat}
    (h : matchAttribute c t = some (a, n)) : a.text = c :: t.take n ∧ n ≤ t.length := by
  unfold matchAttribute at h
  split at h
  · dsimp only at h
    split at h
    · rename_i t2 ht2
      split at h
      · rename_i q t3 ht3
        split at h
        · cases h
        · rename_i hvalid
          cases h
          simp only [Bool.or_eq_true, not_or, decide_eq_true_eq] at hvalid
          obtain ⟨rest, hrest⟩ := quote_after hvalid.2
          have hname := takeWhile_append_drop isNameChar t
          have hbefore := takeWhile_append_drop (·.isSpace) (t.drop (t.takeWhile isNameChar).length)
          have hafter := takeWhile_append_drop (·.isSpace) t2
          rw [ht2] at hbefore
          rw [ht3] at hafter
          generalize t.takeWhile isNameChar = name at *
          generalize (t.drop name.length).takeWhile (·.isSpace) = before at *
          generalize t2.takeWhile (·.isSpace) = after at *
          generalize t3.takeWhile (· != q) = value at *
          have ht : t = name ++ (before ++ .scalar '=' :: after) ++ q :: value ++ [q] ++ rest := by
            rw [← hname, ← hbefore, ← hafter, hrest]
            simp
          have hlen : name.length + (before ++ .scalar '=' :: after).length + value.length + 2 =
              (name ++ (before ++ .scalar '=' :: after) ++ q :: value ++ [q]).length := by
            simp only [List.length_append, List.length_cons, List.length_nil]
            omega
          rw [hlen, ht, List.take_left]
          exact ⟨by simp [text], (List.sublist_append_left _ rest).length_le⟩
      · cases h
    · cases h
  · cases h

/-- Whether the value of an attribute is an expression, as its name tells. -/
def isDynamic (name : Text) : Bool :=
  ([":", "@", "\x23", "v-"] : List Text).any fun start => Text.startsWith start name

def innerQuote (a : Attribute) : Text :=
  if a.quote = .scalar '\x22' then "\x27" else "\x22"

variable [Script.Parser]

/-- Localize an attribute whose value holds Chinese. An expression is localized as such, unless it
holds a call already; any other value becomes a bound call. -/
def localize (scope : Scope) (a : Attribute) : Extract Text := do
  if !Text.hasHan a.value then return a.text
  if isDynamic a.name then
    if ← Extract.lift (Script.Binding.hasCall scope.function a.value) then return a.text
    let value ← Script.Binding.localize scope a.innerQuote a.value
    return Attribute.text { a with value }
  else
    let text := Text.trim a.value
    Extract.text text
    return Attribute.text
      { a with name := .scalar ':' :: a.name, equals := "=", value := scope.call a.innerQuote text }

end Attribute

/-- Localize each part of a text, found or not, and join the results. -/
def localizeParts {α : Type} (localize : α → Extract Text) : List (Part α) → Extract Text
  | [] => return []
  | .plain c :: ps => return c :: (← localizeParts localize ps)
  | .found a _ :: ps => do
    let head ← localize a
    return head ++ (← localizeParts localize ps)

/-- Localize the chunks of all tokens of one kind, and leave the others as they are. -/
def localizeTokens (kind : TokenKind) (localize : Text → Extract Text) :
    List Token → Extract Text
  | [] => return []
  | t :: ts => do
    let head ← if t.kind = kind then localize t.chunk else pure t.chunk
    return head ++ (← localizeTokens kind localize ts)

variable [Script.Parser]

/-- Localize the attributes of one tag, if it is an opening one. -/
def localizeTag (scope : Scope) (tag : Text) : Extract Text :=
  if Text.startsWith "</" tag || Text.startsWith "<!" tag || !Text.hasHan tag then return tag
  else localizeParts (Attribute.localize scope) (Text.parts Attribute.matchAttribute tag)

def attributePass (scope : Scope) (markup : Text) : Extract Text :=
  localizeTokens .tag (localizeTag scope) (tokens markup)

end LocaleLift.Markup
