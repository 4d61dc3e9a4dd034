import LocaleLift.Proofs.Markup.Chunk

/-! Interpolations are read in the same way by the tokens of markup and by a search for a pattern in
one token. -/
namespace LocaleLift

/-- Patterns that texts are searched for. None of them matches the empty text as a whole. -/
inductive Pattern where
  /-- A text itself. -/
  | text (t : Text)
  /-- Any code points, as few of them as will do. -/
  | few
  /-- A pattern that captures what it matches. -/
  | group (p : Pattern)
  /-- One pattern behind another. -/
  | seq (p q : Pattern)
  deriving DecidableEq, Repr

namespace Pattern

/-- A match at the start of a text: how long it is and what it captures. -/
structure Match where
  length : Nat
  groups : List Text
  deriving DecidableEq, Repr

/-- All matches at the start of a text, in the order in which they are tried: a later one counts if
what follows the pattern has no match behind the ones before. -/
def tries : Pattern → Text → List Match
  | text s, t => if s.isPrefixOf t then [⟨s.length, []⟩] else []
  | few, t => (List.range (t.length + 1)).map fun n => ⟨n, []⟩
  | group p, t => (p.tries t).map fun m => ⟨m.length, t.take m.length :: m.groups⟩
  | seq p q, t => (p.tries t).flatMap fun m =>
      (q.tries (t.drop m.length)).map fun n => ⟨m.length + n.length, m.groups ++ n.groups⟩

/-- The match at a place, with what it captures. -/
def matcher (p : Pattern) : Matcher (List Text) := fun c t =>
  (p.tries (c :: t)).head?.map fun m => (m.groups, m.length - 1)

end Pattern

def Part.raw? {α : Type} : Part α → Option Text
  | plain _ => none
  | found _ t => some t

namespace Pattern

/-- The matches in a text, from left to right. -/
def findAll (p : Pattern) (t : Text) : List Text :=
  (Text.parts p.matcher t).filterMap Part.raw?

/-- What stands before and between matches, with what each of them captures in its place. -/
def splitParts (before : Text) : List (Part (List Text)) → List Text
  | [] => [before]
  | .plain c :: ps => splitParts (before ++ [c]) ps
  | .found groups _ :: ps => before :: groups ++ splitParts [] ps

def split (p : Pattern) (t : Text) : List Text :=
  splitParts [] (Text.parts p.matcher t)

end Pattern

/-- Every second text of some, which are those at the odd places counted from zero. -/
def everySecond : List Text → List Text
  | _ :: t :: ts => t :: everySecond ts
  | _ => []

namespace Markup

/-- Two braces, as few code points as will do, and the braces that close. What stands between them is
captured. -/
def expressionPattern : Pattern :=
  .seq (.text "\x7b\x7b") (.seq (.group .few) (.text "\x7d\x7d"))

def interpolationPattern : Pattern :=
  .group (.seq (.text "\x7b\x7b") (.seq .few (.text "\x7d\x7d")))

end Markup

namespace Text

/-- Trying one length after another finds the first occurrence of a text. -/
private theorem findSome?_range (pattern t : Text) {α : Type} (f : Nat → α) :
    (List.range (t.length + 1)).findSome?
        (fun n => if pattern.isPrefixOf (t.drop n) then some (f n) else none) =
      (splitAt? pattern t).map fun found => f found.1.length := by
  induction t generalizing f with
  | nil => cases pattern <;> rfl
  | cons c t ih =>
    rw [List.length_cons, List.range_succ_eq_map, List.findSome?_cons, List.drop_zero, splitAt?]
    cases hdrop : dropStart? pattern (c :: t) with
    | some rest =>
      have hprefix : pattern.isPrefixOf (c :: t) = true :=
        List.isPrefixOf_iff_prefix.mpr ⟨rest, (dropStart?_eq_some.mp hdrop).symm⟩
      rw [if_pos hprefix]
      rfl
    | none =>
      have hprefix : ¬ pattern.isPrefixOf (c :: t) = true := fun h =>
        dropStart?_eq_none.mp hdrop (List.isPrefixOf_iff_prefix.mp h)
      rw [if_neg hprefix, List.findSome?_map, Option.map_map]
      exact ih fun n => f (n + 1)

end Text

namespace Pattern

/-- How a pattern is tried that captures something of the code points it takes, however many. -/
def IsFilling (filling : Pattern) (groups : Text → List Text) : Prop :=
  ∀ t, filling.tries t = (List.range (t.length + 1)).map fun n => ⟨n, groups (t.take n)⟩

variable {filling : Pattern} {groups : Text → List Text}

private theorem isFilling_few : few.IsFilling fun _ => [] :=
  fun _ => rfl

private theorem isFilling_group_few : (group few).IsFilling fun t => [t] := by
  intro t
  rw [tries, tries, List.map_map]
  rfl

private theorem head?_tries_until (h : filling.IsFilling groups) (s t : Text) :
    ((seq filling (text s)).tries t).head? =
      (Text.splitAt? s t).map fun found => ⟨found.1.length + s.length, groups found.1⟩ := by
  have htry (n : Nat) : (((text s).tries (t.drop n)).map fun m =>
      (⟨n + m.length, groups (t.take n) ++ m.groups⟩ : Match)).head? =
        if s.isPrefixOf (t.drop n) then some ⟨n + s.length, groups (t.take n)⟩ else none := by
    rw [tries]
    split
    · rw [List.map_singleton, List.append_nil]
      rfl
    · rfl
  rw [tries, h, List.flatMap_map, List.head?_flatMap]
  simp only [htry]
  rw [Text.findSome?_range s t fun n => (⟨n + s.length, groups (t.take n)⟩ : Match)]
  cases hsplit : Text.splitAt? s t with
  | none => rfl
  | some found =>
    obtain ⟨inside, rest⟩ := found
    have htake : t.take inside.length = inside := by
      rw [Text.splitAt?_eq_some hsplit, List.append_assoc, List.take_left]
    exact congrArg (fun inside' => some (⟨inside.length + s.length, groups inside'⟩ : Match)) htake

end Pattern

namespace Markup

/-- An interpolation is the first match of two braces, a filling and the braces that close. -/
private theorem head?_tries {filling : Pattern} {groups : Text → List Text}
    (h : filling.IsFilling groups) (c : CodePoint) (t : Text) :
    ((Pattern.seq (.text "\x7b\x7b") (.seq filling (.text "\x7d\x7d"))).tries (c :: t)).head? =
      (matchInterpolation c t).map fun found => ⟨found.2 + 1, groups found.1⟩ := by
  rw [Pattern.tries, Pattern.tries, matchInterpolation]
  by_cases hopen : ("\x7b\x7b" : Text).isPrefixOf (c :: t) = true
  · obtain ⟨u, hu⟩ := List.isPrefixOf_iff_prefix.mp hopen
    obtain ⟨rfl, rfl⟩ := List.cons.inj hu
    have hrest : (CodePoint.scalar '\x7b' :: .scalar '\x7b' :: u).drop 2 = u := rfl
    rw [if_pos hopen, List.flatMap_singleton, List.head?_map]
    change Option.map _ ((Pattern.seq filling (.text "\x7d\x7d")).tries u).head? =
      ((Text.splitAt? "\x7d\x7d" u).map _).map _
    rw [Pattern.head?_tries_until h, Option.map_map, Option.map_map]
    refine congrArg (fun f => Option.map f _) (funext fun found => ?_)
    have hlength : 2 + (found.1.length + 2) = found.1.length + 3 + 1 := by omega
    exact congrArg (fun n => (⟨n, groups found.1⟩ : Pattern.Match)) hlength
  · have hno : ¬ ((c = .scalar '\x7b' && t.head? == some (.scalar '\x7b')) = true) := by
      intro h
      obtain ⟨hc, hhead⟩ := Bool.and_eq_true_iff.mp h
      obtain ⟨u, rfl⟩ := List.head?_eq_some_iff.mp (beq_iff_eq.mp hhead)
      obtain rfl := of_decide_eq_true hc
      exact hopen (List.isPrefixOf_iff_prefix.mpr ⟨u, rfl⟩)
    rw [if_neg hopen, if_neg hno]
    rfl

/-- The pattern finds expressions as the passes do. -/
theorem matcher_expressionPattern (c : CodePoint) (t : Text) :
    expressionPattern.matcher c t =
      (matchInterpolation c t).map fun found => ([found.1], found.2) := by
  rw [Pattern.matcher, expressionPattern, head?_tries Pattern.isFilling_group_few, Option.map_map]
  rfl

/-- The pattern for splitting finds the same, with the braces. -/
theorem matcher_interpolationPattern (c : CodePoint) (t : Text) :
    interpolationPattern.matcher c t =
      (matchInterpolation c t).map fun found => ([c :: t.take found.2], found.2) := by
  rw [Pattern.matcher, interpolationPattern, Pattern.tries, List.head?_map,
    head?_tries Pattern.isFilling_few, Option.map_map, Option.map_map]
  rfl

end Markup

namespace Markup

private theorem samePart_parts {α β : Type} {m : Matcher α} {m' : Matcher β}
    (h : ∀ c t, (m c t).map Prod.snd = (m' c t).map Prod.snd) (t : Text) :
    List.Forall₂ SamePart (Text.parts m t) (Text.parts m' t) := by
  induction hn : t.length using Nat.strong_induction_on generalizing t with
  | _ n ih =>
  subst hn
  cases t with
  | nil => exact .nil
  | cons c t =>
    have hct := h c t
    rw [Text.parts_cons, Text.parts_cons]
    cases hm : m c t with
    | none =>
      rw [hm, Option.map_none, eq_comm, Option.map_eq_none_iff] at hct
      rw [hct]
      exact .cons (.plain c) (ih t.length (Nat.lt_succ_self _) t rfl)
    | some found =>
      obtain ⟨a, n⟩ := found
      rw [hm, Option.map_some, eq_comm, Option.map_eq_some_iff] at hct
      obtain ⟨⟨b, n'⟩, hm', rfl⟩ := hct
      rw [hm']
      refine .cons (.found a b _) (ih (t.drop n').length ?_ _ rfl)
      rw [List.length_drop, List.length_cons]
      omega

private theorem filterMap_raw? {α β : Type} {ps : List (Part α)} {qs : List (Part β)}
    (h : List.Forall₂ SamePart ps qs) : ps.filterMap Part.raw? = qs.filterMap Part.raw? := by
  induction h with
  | nil => rfl
  | cons hp _ ih =>
    cases hp with
    | plain c => exact ih
    | found a b t => exact congrArg (t :: ·) ih

/-- Both patterns find in a text what the passes find there. -/
theorem findAll_pattern (t : Text) :
    expressionPattern.findAll t = (Text.parts matchInterpolation t).filterMap Part.raw? ∧
      interpolationPattern.findAll t = (Text.parts matchInterpolation t).filterMap Part.raw? := by
  constructor
  · refine filterMap_raw? (samePart_parts (fun c t => ?_) t)
    rw [matcher_expressionPattern, Option.map_map]
    rfl
  · refine filterMap_raw? (samePart_parts (fun c t => ?_) t)
    rw [matcher_interpolationPattern, Option.map_map]
    rfl

private theorem everySecond_splitParts {ps : List (Part (List Text))}
    (h : ∀ groups raw, .found groups raw ∈ ps → groups = [raw]) (before : Text) :
    everySecond (Pattern.splitParts before ps) = ps.filterMap Part.raw? := by
  induction ps generalizing before with
  | nil => rfl
  | cons p ps ih =>
    have hps := ih fun groups raw hmem => h groups raw (List.mem_cons_of_mem p hmem)
    cases p with
    | plain c => exact hps (before ++ [c])
    | found groups raw =>
      obtain rfl := h groups raw List.mem_cons_self
      exact congrArg (raw :: ·) (hps [])

/-- What a text is split at comes up at the odd places. -/
theorem everySecond_split (t : Text) :
    everySecond (interpolationPattern.split t) = interpolationPattern.findAll t := by
  refine everySecond_splitParts (fun groups raw hmem => ?_) []
  obtain ⟨before, c, after, n, -, hm, rfl⟩ := Text.of_mem_parts hmem
  rw [matcher_interpolationPattern, Option.map_eq_some_iff] at hm
  obtain ⟨_, -, hm⟩ := hm
  cases hm
  rfl

/-- The interpolations among the parts of markup, each of which is taken as a whole. -/
def foundInterpolations (ps : List (Part Mark)) : List Text :=
  ps.filterMap fun
    | .found .interpolation raw => some raw
    | _ => none

private theorem Row.filterMap_raw? {ps : List (Part Mark)} {t : Text} (h : Row ps t) :
    ps.filterMap Part.raw? = foundInterpolations ps := by
  induction h with
  | nil => rfl
  | plain _ _ ih => exact ih
  | interpolation _ _ ih => exact congrArg (_ :: ·) ih

/-- Each token is built from parts of the markup. The interpolations among those of a text token are
what a pattern finds in its chunk and what the chunk is split at, with nothing left out, in the same
order. -/
theorem readings_agree (markup : Text) : ∃ rows : List (List (Part Mark)),
    rows.flatten = Text.parts matchMark markup ∧
      List.Forall₂ (fun row t => row.flatMap Part.text = t.chunk ∧ (t.kind = .text →
        everySecond (interpolationPattern.split t.chunk) = foundInterpolations row ∧
        expressionPattern.findAll t.chunk = foundInterpolations row ∧
        (Text.parts matchInterpolation t.chunk).filterMap Part.raw? = foundInterpolations row))
      rows (tokens markup) := by
  have hchunked := chunked_tokens markup
  generalize tokens markup = ts at hchunked ⊢
  induction hchunked with
  | nil => exact ⟨[], rfl, .nil⟩
  | @mark c r t a k ts h hk _ ih =>
    obtain ⟨rows, hrows, htokens⟩ := ih
    refine ⟨[.found a (c :: r)] :: rows, ?_, .cons ⟨?_, fun htext => absurd htext hk⟩ htokens⟩
    · rw [Text.parts_found h, ← hrows]
      rfl
    · exact List.append_nil _
  | @words ps t ts _ row _ ih =>
    obtain ⟨rows, hrows, htokens⟩ := ih
    have hfound := (Markup.filterMap_raw? row.samePart).trans row.filterMap_raw?
    obtain ⟨hexpression, hinterpolation⟩ := findAll_pattern (ps.flatMap Part.text)
    refine ⟨ps :: rows, ?_, .cons ⟨rfl, fun _ => ⟨?_, ?_, hfound⟩⟩ htokens⟩
    · rw [row.parts_append, ← hrows]
      rfl
    · exact (everySecond_split _).trans (hinterpolation.trans hfound)
    · exact hexpression.trans hfound

/-- An interpolation ends with the first braces that close, whatever stands in it, and may begin with
a brace of its own. -/
example : interpolationPattern.split "\x7ba\x7b\x7b\x7b<b>\x7d\x7d\x7d\x7b\x7b" =
    ["\x7ba", "\x7b\x7b\x7b<b>\x7d\x7d", "\x7d\x7b\x7b"] := by
  decide

end Markup

end LocaleLift
