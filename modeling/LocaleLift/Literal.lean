import LocaleLift.Failure
import LocaleLift.Text.Hex
import LocaleLift.Text.Parts

/-! String literals: the value of a body, and the literal that denotes a value. -/
namespace LocaleLift.Literal

/-- What an escape stands for. -/
inductive Escape where
  /-- It stands for a text, which may be empty. -/
  | text (t : Text)
  /-- It names a code point by number. -/
  | number (n : Nat)
  deriving DecidableEq, Repr

def simpleEscape (c : CodePoint) : Text :=
  match c with
  | .scalar 'n' => [.scalar '\n']
  | .scalar 't' => [.scalar '\t']
  | .scalar 'r' => [.scalar '\r']
  | .scalar 'b' => [.scalar '\x08']
  | .scalar 'f' => [.scalar '\x0c']
  | .scalar 'v' => [.scalar '\x0b']
  | .scalar '0' => [.scalar '\x00']
  | .scalar '\n' | .scalar '\r' | .scalar '\u2028' | .scalar '\u2029' => []
  | c => [c]

/-- The number that a text begins with in so many hexadecimal digits. -/
def digits (n : Nat) (t : Text) : Option Nat :=
  if t.length < n then none else Text.hexNumber? (t.take n)

/-- The escape that follows a backslash, and how many code points it takes there. -/
def escape? : Text → Option (Escape × Nat)
  | [] => none
  | .scalar 'u' :: .scalar '\x7b' :: t =>
    let hex := t.takeWhile fun c => (Text.hexDigit? c).isSome
    if !hex.isEmpty && (t.drop hex.length).head? == some (.scalar '\x7d') then
      (Text.hexNumber? hex).map fun n => (.number n, hex.length + 3)
    else some (.text [.scalar 'u'], 1)
  | .scalar 'u' :: t =>
    match digits 4 t with
    | some n => some (.number n, 5)
    | none => some (.text [.scalar 'u'], 1)
  | .scalar 'x' :: t =>
    match digits 2 t with
    | some n => some (.number n, 3)
    | none => some (.text [.scalar 'x'], 1)
  | .scalar '\r' :: .scalar '\n' :: _ => some (.text [], 2)
  | c :: _ => some (.text (simpleEscape c), 1)

private theorem isEncodable_simpleEscape {c : CodePoint} (h : c.isScalar = true) :
    (simpleEscape c).isEncodable = true := by
  unfold simpleEscape
  split <;> first | rfl | simp [h]

/-- Only a number can stand for a surrogate that is not written as such. -/
theorem isEncodable_of_escape? {t u : Text} {n : Nat} (h : escape? t = some (.text u, n))
    (ht : t.isEncodable = true) : u.isEncodable = true := by
  unfold escape? at h
  split at h
  · cases h
  · dsimp only at h
    split at h
    · obtain ⟨_, -, h⟩ := Option.map_eq_some_iff.mp h
      cases h
    · cases h
      rfl
  · split at h
    · cases h
    · cases h
      rfl
  · split at h
    · cases h
    · cases h
      rfl
  · cases h
    rfl
  · cases h
    exact isEncodable_simpleEscape (Bool.and_eq_true_iff.mp ht).1

/-- The text of an escape whose spelling is given: a number that no code point has keeps its
spelling, and one of more than 31 bits is refused. -/
def Escape.cook (spelling : Text) : Escape → Except Failure Text
  | .text t => .ok t
  | .number n =>
    match CodePoint.ofNat? n with
    | some c => .ok [c]
    | none => if n ≤ 0x7FFFFFFF then .ok spelling else .error .escapeTooLarge

def matchEscape : Matcher Escape := fun c t =>
  if c = .scalar '\\' then escape? t else none

def cookPart : Part Escape → Except Failure Text
  | .plain c => .ok [c]
  | .found e spelling => e.cook spelling

/-- The value of a literal's body. A backslash at the very end stands for itself. -/
def cook (body : Text) : Except Failure Text := do
  return (← (Text.parts matchEscape body).mapM cookPart).flatten

def quote (q value : Text) : Text :=
  let body := Text.replaceAll "\\" "\\\\" value
    |> Text.replaceAll q (.scalar '\\' :: q)
    |> Text.replaceAll "\n" "\\n"
    |> Text.replaceAll "\r" "\\r"
    |> Text.replaceAll "\u2028" "\\u2028"
    |> Text.replaceAll "\u2029" "\\u2029"
  q ++ body ++ q

/-- How one code point of a value is written between quotes of a kind. -/
def spell (q c : CodePoint) : Text :=
  if c = .scalar '\\' then "\\\\"
  else if c = q then [.scalar '\\', q]
  else if c = .scalar '\n' then "\\n"
  else if c = .scalar '\r' then "\\r"
  else if c = .scalar '\u2028' then "\\u2028"
  else if c = .scalar '\u2029' then "\\u2029"
  else [c]

/-- The code points of a value are written one by one. -/
theorem quote_eq_spell {q : CodePoint} (hq : q = .scalar '\x22' ∨ q = .scalar '\x27')
    (value : Text) : quote [q] value = q :: (value.flatMap (spell q) ++ [q]) := by
  have hbackslash : ("\\" : Text) = [.scalar '\\'] := rfl
  have hfeed : ("\n" : Text) = [.scalar '\n'] := rfl
  have hreturn : ("\r" : Text) = [.scalar '\r'] := rfl
  have hline : ("\u2028" : Text) = [.scalar '\u2028'] := rfl
  have hparagraph : ("\u2029" : Text) = [.scalar '\u2029'] := rfl
  rw [quote, hbackslash, hfeed, hreturn, hline, hparagraph]
  simp only [Text.replaceAll_singleton, List.flatMap_assoc]
  refine congrArg (fun f => q :: (value.flatMap f ++ [q])) (funext fun c => ?_)
  -- what one replacement brings in, none of the later ones touches
  rcases hq with rfl | rfl
  all_goals
    by_cases hslash : c = .scalar '\\'
    · subst hslash; rfl
    by_cases hquote : c = .scalar '\x22'
    · subst hquote; rfl
    by_cases happ : c = .scalar '\x27'
    · subst happ; rfl
    by_cases hn : c = .scalar '\n'
    · subst hn; rfl
    by_cases hr : c = .scalar '\r'
    · subst hr; rfl
    by_cases hl : c = .scalar '\u2028'
    · subst hl; rfl
    by_cases hp : c = .scalar '\u2029'
    · subst hp; rfl
    simp [spell, hslash, hquote, happ, hn, hr, hl, hp]

end LocaleLift.Literal
