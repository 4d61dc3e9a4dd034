import LocaleLift.Markup.Attribute

/-! Localizing the text between tags: words and the literals of interpolations. -/
namespace LocaleLift.Markup

def matchInterpolation : Matcher Text := fun c t =>
  if c = .scalar '\x7b' && t.head? == some (.scalar '\x7b') then
    (Text.splitAt? "\x7d\x7d" (t.drop 1)).map fun (inside, _) => (inside, inside.length + 3)
  else none

/-- An interpolation is what stands between its braces, with these. -/
theorem raw_of_matchInterpolation {c : CodePoint} {t inside : Text} {n : Nat}
    (h : matchInterpolation c t = some (inside, n)) :
    c :: t.take n = "\x7b\x7b" ++ inside ++ "\x7d\x7d" := by
  rw [matchInterpolation] at h
  split at h
  · rename_i hopen
    obtain ⟨hc, hhead⟩ := Bool.and_eq_true_iff.mp hopen
    obtain rfl := of_decide_eq_true hc
    obtain ⟨⟨found, rest⟩, hsplit, h⟩ := Option.map_eq_some_iff.mp h
    cases h
    cases t with
    | nil => cases hhead
    | cons d t =>
      obtain rfl := Option.some.inj (beq_iff_eq.mp hhead)
      rw [List.drop_one, List.tail_cons] at hsplit
      have hlength : (inside ++ "\x7d\x7d").length = inside.length + 2 := List.length_append
      rw [Text.splitAt?_eq_some hsplit, List.take_succ_cons, ← hlength, List.take_left]
      rfl
  · cases h

def asInterpolation (call : Text) : Text :=
  "\x7b\x7b " ++ call ++ " \x7d\x7d"

/-- The runs of Chinese in text before something, and the text with each as an interpolation. -/
def wrapWords (scope : Scope) (words : Text) : Extract Text := do
  Extract.found (Text.runs .ideographs words)
  let wrap (r : Text) : Text := asInterpolation (scope.call "\x27" r)
  return Text.wrapRuns wrap (Text.pieces .ideographs words)

def localizeBetween (scope : Scope) (words : Text) : List (Part Text) → Extract Text
  | [] => wrapWords scope words
  | .plain c :: ps => localizeBetween scope (words ++ [c]) ps
  | .found _ raw :: ps => do
    let head ← wrapWords scope words
    return head ++ raw ++ (← localizeBetween scope [] ps)

/-- Localize the words of one text token: each run of Chinese outside interpolations becomes one. -/
def localizeWords (scope : Scope) (chunk : Text) : Extract Text :=
  if Text.isBlank chunk || !Text.hasHan chunk then return chunk
  else localizeBetween scope [] (Text.parts matchInterpolation chunk)

def textPass (scope : Scope) (markup : Text) : Extract Text :=
  localizeTokens .text (localizeWords scope) (tokens markup)

/-- How much of a text belongs to a literal with the given quote, the closing one included. -/
def literalLength (quote : CodePoint) : Bool → Text → Option Nat
  | _, [] => none
  | true, c :: t => if c = .scalar '\n' then none else (literalLength quote false t).map (· + 1)
  | false, c :: t =>
    if c = quote then some 1
    else if c = .scalar '\n' then none
    else (literalLength quote (c = .scalar '\\') t).map (· + 1)

def matchLiteral : Matcher Text := fun c t =>
  if c = .scalar '\x22' || c = .scalar '\x27' then
    (literalLength c false t).map fun n => (t.take (n - 1), n)
  else none

private theorem exists_of_literalLength {q : CodePoint} {escaped : Bool} {t : Text} {n : Nat}
    (h : literalLength q escaped t = some n) :
    ∃ body rest, t = body ++ q :: rest ∧ n = body.length + 1 := by
  induction t generalizing escaped n with
  | nil => cases escaped <;> cases h
  | cons c t ih =>
    have hrest {escaped : Bool} (h : (literalLength q escaped t).map (· + 1) = some n) :
        ∃ body rest, c :: t = body ++ q :: rest ∧ n = body.length + 1 := by
      obtain ⟨m, hm, rfl⟩ := Option.map_eq_some_iff.mp h
      obtain ⟨body, rest, rfl, rfl⟩ := ih hm
      exact ⟨c :: body, rest, rfl, rfl⟩
    cases escaped with
    | true =>
      rw [literalLength] at h
      split at h
      · cases h
      · exact hrest h
    | false =>
      rw [literalLength] at h
      split at h
      · rename_i hc
        subst hc
        cases h
        exact ⟨[], t, rfl, rfl⟩
      · split at h
        · cases h
        · exact hrest h

/-- A literal is its body between two quotes. -/
theorem raw_of_matchLiteral {c : CodePoint} {t body : Text} {n : Nat}
    (h : matchLiteral c t = some (body, n)) :
    (c = .scalar '\x22' ∨ c = .scalar '\x27') ∧ c :: t.take n = c :: (body ++ [c]) := by
  rw [matchLiteral] at h
  split at h
  · rename_i hquote
    refine ⟨by simpa using hquote, ?_⟩
    obtain ⟨m, hm, h⟩ := Option.map_eq_some_iff.mp h
    cases h
    obtain ⟨body, rest, rfl, rfl⟩ := exists_of_literalLength hm
    have hlength : (body ++ [c]).length = body.length + 1 := List.length_append
    rw [Nat.add_sub_cancel, List.take_left, List.append_cons, ← hlength, List.take_left]
  · cases h

/-- Whether a text ends with the beginning of a call of the look-up function. -/
def opensCall (function before : Text) : Bool :=
  Text.endsWith (function ++ "(") (Text.trimEnd before)

/-- Localize the literals of an expression that stand after `before`. A literal with Chinese becomes
a call, unless it is the first argument of one. -/
def localizeLiterals (scope : Scope) (before : Text) : List (Part Text) → Extract Text
  | [] => return []
  | .plain c :: ps => return c :: (← localizeLiterals scope (before ++ [c]) ps)
  | .found body raw :: ps => do
    let head ←
      if Text.hasHan body && !opensCall scope.function before then do
        let text := Text.trim (← Extract.lift (Literal.cook body))
        Extract.text text
        pure (scope.call "\x27" text)
      else pure raw
    return head ++ (← localizeLiterals scope (before ++ raw) ps)

def localizeInterpolation (scope : Scope) (inside : Text) : Extract Text := do
  return "\x7b\x7b" ++ (← localizeLiterals scope [] (Text.parts matchLiteral inside)) ++ "\x7d\x7d"

def localizeInterpolations (scope : Scope) (chunk : Text) : Extract Text :=
  if !Text.hasHan chunk then return chunk
  else localizeParts (localizeInterpolation scope) (Text.parts matchInterpolation chunk)

def interpolationPass (scope : Scope) (markup : Text) : Extract Text :=
  localizeTokens .text (localizeInterpolations scope) (tokens markup)

def settle (scope : Scope) : Nat → Text → Extract Text
  | 0, markup => return markup
  | n + 1, markup => do
    let new ← textPass scope markup
    if new = markup then return markup else settle scope n new

variable [Script.Parser]

/-- Localize a template: attributes, words, interpolations, and words again until nothing
changes. -/
def localize (scope : Scope) (template : Text) : Extract Text := do
  settle scope 5 (← interpolationPass scope (← textPass scope (← attributePass scope template)))

end LocaleLift.Markup
