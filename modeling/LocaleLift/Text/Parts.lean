import LocaleLift.Text

/-! Dividing a text at all that a matcher finds in it. -/
namespace LocaleLift

/-- A matcher looks at a place in a text, given by the code point there and the text after it. If
something begins there, it tells what it is and how much of the text after belongs to it. -/
abbrev Matcher (α : Type) := CodePoint → Text → Option (α × Nat)

/-- A part of a text is a code point at which nothing begins, or something found with its text. -/
inductive Part (α : Type) where
  | plain (c : CodePoint)
  | found (a : α) (text : Text)
  deriving DecidableEq, Repr

namespace Part

variable {α : Type}

def text : Part α → Text
  | plain c => [c]
  | found _ t => t

def found? : Part α → Option α
  | plain _ => none
  | found a _ => some a

/-- What a part of a text is: a code point at which the matcher finds nothing, or what it finds at
some place with the text that belongs to it there. -/
def Of (m : Matcher α) (t : Text) : Part α → Prop
  | plain c => ∃ before after, t = before ++ c :: after ∧ m c after = none
  | found a text => ∃ before c after n, t = before ++ c :: after ∧ m c after = some (a, n) ∧
      text = c :: after.take n

/-- The text of a part, with a filling in the place of what was found. -/
def fill (filling : Text) : Part α → Text
  | plain c => [c]
  | found _ _ => filling

end Part

namespace Text

variable {α : Type}

private def partsFrom (m : Matcher α) : Nat → Text → List (Part α)
  | _, [] => []
  | skip + 1, _ :: t => partsFrom m skip t
  | 0, c :: t =>
    match m c t with
    | some (a, n) => .found a (c :: t.take n) :: partsFrom m n t
    | none => .plain c :: partsFrom m 0 t

/-- The parts of a text from left to right: where something is found, the search goes on behind
it. -/
def parts (m : Matcher α) (t : Text) : List (Part α) :=
  partsFrom m 0 t

/-- All that a matcher finds in a text, none overlapping the one before. -/
def findAll (m : Matcher α) (t : Text) : List α :=
  (parts m t).filterMap Part.found?

private theorem partsFrom_eq (m : Matcher α) (skip : Nat) (t : Text) :
    partsFrom m skip t = parts m (t.drop skip) := by
  induction t generalizing skip with
  | nil => rw [List.drop_nil, parts, partsFrom, partsFrom]
  | cons c t ih =>
    cases skip with
    | zero => rfl
    | succ skip => exact ih skip

/-- What is found at the start is the first part, and the search goes on behind it. -/
theorem parts_cons (m : Matcher α) (c : CodePoint) (t : Text) : parts m (c :: t) =
    match m c t with
    | some (a, n) => .found a (c :: t.take n) :: parts m (t.drop n)
    | none => .plain c :: parts m t := by
  rw [parts, partsFrom]
  simp only [partsFrom_eq, List.drop_zero]

theorem parts_found {m : Matcher α} {c : CodePoint} {r t : Text} {a : α}
    (h : m c (r ++ t) = some (a, r.length)) :
    parts m (c :: r ++ t) = .found a (c :: r) :: parts m t := by
  rw [List.cons_append, parts_cons, h]
  simp

theorem parts_plain {m : Matcher α} {c : CodePoint} {t : Text} (h : m c t = none) :
    parts m (c :: t) = .plain c :: parts m t := by
  rw [parts_cons, h]

/-- Where nothing is found at any place of a text, the search goes on behind it. -/
theorem parts_passed {m : Matcher α} {s t : Text}
    (h : ∀ c r, c :: r <:+ s → m c (r ++ t) = none) :
    parts m (s ++ t) = s.map .plain ++ parts m t := by
  induction s with
  | nil => rfl
  | cons c s ih =>
    rw [List.cons_append, parts_plain (h c s (List.suffix_refl _)),
      ih fun d r hr => h d r (hr.trans (List.suffix_cons c s))]
    rfl

private theorem partsFrom_flatten (m : Matcher α) (t : Text) (skip : Nat) :
    (partsFrom m skip t).flatMap Part.text = t.drop skip := by
  induction t generalizing skip with
  | nil => simp [partsFrom]
  | cons c t ih =>
    cases skip with
    | succ skip => simpa [partsFrom] using ih skip
    | zero =>
      rw [partsFrom]
      split <;> simp [Part.text, ih]

/-- Nothing is lost: the parts of a text make it up. -/
theorem flatten_parts (m : Matcher α) (t : Text) : (parts m t).flatMap Part.text = t := by
  simpa [parts] using partsFrom_flatten m t 0

private theorem of_mem_partsFrom {m : Matcher α} {p : Part α} (t : Text) (skip : Nat)
    (h : p ∈ partsFrom m skip t) : p.Of m t := by
  induction t generalizing skip with
  | nil => simp [partsFrom] at h
  | cons c t ih =>
    have hrest (skip : Nat) (h : p ∈ partsFrom m skip t) : p.Of m (c :: t) := by
      have hp := ih skip h
      cases p with
      | plain d =>
        obtain ⟨before, after, rfl, hm⟩ := hp
        exact ⟨c :: before, after, rfl, hm⟩
      | found a text =>
        obtain ⟨before, d, after, n, rfl, hm⟩ := hp
        exact ⟨c :: before, d, after, n, rfl, hm⟩
    cases skip with
    | succ skip =>
      rw [partsFrom] at h
      exact hrest skip h
    | zero =>
      rw [partsFrom] at h
      split at h
      · rename_i a n hm
        rcases List.mem_cons.mp h with rfl | h
        · exact ⟨[], c, t, n, rfl, hm, rfl⟩
        · exact hrest n h
      · rename_i hm
        rcases List.mem_cons.mp h with rfl | h
        · exact ⟨[], t, rfl, hm⟩
        · exact hrest 0 h

theorem of_mem_parts {m : Matcher α} {t : Text} {p : Part α} (h : p ∈ parts m t) : p.Of m t :=
  of_mem_partsFrom t 0 h

/-- What is found in a text is found at some place of it. -/
theorem of_mem_findAll {m : Matcher α} {t : Text} {a : α} (h : a ∈ findAll m t) :
    ∃ before c after n, t = before ++ c :: after ∧ m c after = some (a, n) := by
  obtain ⟨p, hp, hfound⟩ := List.mem_filterMap.mp h
  cases p with
  | plain c => cases hfound
  | found b text =>
    cases hfound
    obtain ⟨before, c, after, n, ht, hm, -⟩ := of_mem_parts hp
    exact ⟨before, c, after, n, ht, hm⟩

private def matchText (pattern : Text) : Matcher Unit := fun c t =>
  if pattern.isPrefixOf (c :: t) then some ((), pattern.length - 1) else none

/-- Replace the occurrences of a pattern from left to right, none overlapping the one before.
The empty pattern occurs before every code point and at the end. -/
def replaceAll (pattern new t : Text) : Text :=
  if pattern.isEmpty then new ++ t.flatMap fun c => c :: new
  else (parts (matchText pattern) t).flatMap fun
    | .plain c => [c]
    | .found _ _ => new

/-- Replacing a single code point is done at each one for itself. -/
theorem replaceAll_singleton (p : CodePoint) (new t : Text) :
    replaceAll [p] new t = t.flatMap fun c => if c = p then new else [c] := by
  rw [replaceAll, if_neg (by simp)]
  induction t with
  | nil => rfl
  | cons c t ih =>
    rw [parts_cons, matchText]
    by_cases hc : c = p
    · simpa [hc, List.isPrefixOf] using ih
    · have hc' : ¬ p = c := fun e => hc e.symm
      simpa [hc, hc', List.isPrefixOf] using ih

/-- Replacing puts the new text where occurrences of the pattern were, and changes nothing else. -/
theorem replaceAll_fill {pattern : Text} (h : pattern ≠ []) (new t : Text) :
    ∃ ps : List (Part Unit), t = ps.flatMap (Part.fill pattern) ∧
      replaceAll pattern new t = ps.flatMap (Part.fill new) := by
  refine ⟨parts (matchText pattern) t, ?_, ?_⟩
  · have hfill {p : Part Unit} (hp : p ∈ parts (matchText pattern) t) :
        p.text = Part.fill pattern p := by
      cases p with
      | plain c => rfl
      | found a text =>
        obtain ⟨before, c, after, n, -, hm, rfl⟩ := of_mem_parts hp
        rw [matchText] at hm
        split at hm
        · rename_i hprefix
          obtain ⟨rest, hrest⟩ := List.isPrefixOf_iff_prefix.mp hprefix
          cases hm
          cases pattern with
          | nil => exact absurd rfl h
          | cons d pattern =>
            obtain ⟨rfl, rfl⟩ := List.cons.inj hrest
            simp [Part.text, Part.fill]
        · cases hm
    calc t = (parts (matchText pattern) t).flatMap Part.text := (flatten_parts _ t).symm
      _ = (parts (matchText pattern) t).flatMap (Part.fill pattern) := by
        simp only [List.flatMap]
        exact congrArg List.flatten (List.map_congr_left fun p hp => hfill hp)
  · rw [replaceAll, if_neg (by simpa using h)]
    refine congrArg (fun f => List.flatMap f _) (funext fun p => ?_)
    cases p <;> rfl

/-- Split at the first occurrence of a pattern, which is left out of both parts. -/
def splitAt? (pattern : Text) : Text → Option (Text × Text)
  | [] => if pattern.isEmpty then some ([], []) else none
  | c :: t =>
    match dropStart? pattern (c :: t) with
    | some rest => some ([], rest)
    | none => (splitAt? pattern t).map fun (before, rest) => (c :: before, rest)

theorem splitAt?_eq_some {pattern t before rest : Text}
    (h : splitAt? pattern t = some (before, rest)) : t = before ++ pattern ++ rest := by
  induction t generalizing before with
  | nil =>
    rw [splitAt?] at h
    split at h
    · rename_i hempty
      cases h
      simpa using hempty
    · cases h
  | cons c t ih =>
    rw [splitAt?] at h
    split at h
    · rename_i rest' hdrop
      cases h
      exact dropStart?_eq_some.mp hdrop
    · obtain ⟨⟨before', rest'⟩, hsplit, h⟩ := Option.map_eq_some_iff.mp h
      cases h
      exact congrArg (c :: ·) (ih hsplit)

end Text
end LocaleLift
