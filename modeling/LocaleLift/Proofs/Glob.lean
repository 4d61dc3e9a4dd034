import LocaleLift.Glob
import LocaleLift.Proofs.Text.Order
import LocaleLift.Proofs.Text.Split
import Mathlib.Data.List.TakeWhile

/-! What glob patterns match, and which of them mean "inside a directory of this name". -/
namespace LocaleLift

theorem CharSet.contains_single {c d : CodePoint} : (single c).contains d = true ↔ d = c := by
  simp only [single, contains, List.any_cons, List.any_nil, Bool.or_false, Bool.bne_false,
    CodePoint.inRange, Bool.and_eq_true, decide_eq_true_eq]
  exact ⟨fun h => CodePoint.toNat_injective (le_antisymm h.2 h.1), fun h => h ▸ ⟨le_rfl, le_rfl⟩⟩

namespace Glob

/-- A pattern matches a text as its pieces do in turn: a star stands for any text, a set for one of
its characters. -/
def Matches : Glob → Text → Prop
  | [], t => t = []
  | .star :: g, t => ∃ u v, t = u ++ v ∧ Matches g v
  | .one set :: g, t => ∃ c v, t = c :: v ∧ set.contains c = true ∧ Matches g v

def literal (t : Text) : Glob :=
  t.map fun c => .one (.single c)

/-- A text that stands for itself as a pattern: it has no star and no question mark, and no opening
bracket has a closing one behind it. -/
def IsLiteral : Text → Prop
  | [] => True
  | c :: t => (c ≠ .scalar '*' ∧ c ≠ .scalar '?' ∧ (c = .scalar '[' → .scalar ']' ∉ t)) ∧ IsLiteral t

instance decidableIsLiteral : (t : Text) → Decidable (IsLiteral t)
  | [] => .isTrue trivial
  | _ :: t => haveI := decidableIsLiteral t; inferInstanceAs (Decidable (_ ∧ _))

section Table

variable {p : Piece} {set : CharSet} {g h : Glob} {c : CodePoint} {t u v : Text}

private def row (g : Glob) (t : Text) : List Bool :=
  t.foldr (fun c row => nextRow c g row) (endRow g)

private theorem row_tail (p : Piece) (g : Glob) (t : Text) : (row (p :: g) t).tail = row g t := by
  induction t with
  | nil => rfl
  | cons c t ih =>
    have hstep : (row (p :: g) (c :: t)).tail = nextRow c g (row (p :: g) t).tail := rfl
    rw [hstep, ih]
    rfl

private theorem isMatch_star_nil : isMatch (.star :: g) [] = isMatch g [] := rfl

private theorem isMatch_star_cons :
    isMatch (.star :: g) (c :: t) = (isMatch g (c :: t) || isMatch (.star :: g) t) := by
  have hstep : isMatch (.star :: g) (c :: t) =
      ((nextRow c g (row (.star :: g) t).tail).headD false || isMatch (.star :: g) t) := rfl
  rw [hstep, row_tail]
  rfl

private theorem isMatch_one_cons :
    isMatch (.one set :: g) (c :: t) = (set.contains c && isMatch g t) := by
  have hstep : isMatch (.one set :: g) (c :: t) =
      (set.contains c && (row (.one set :: g) t).tail.headD false) := rfl
  rw [hstep, row_tail]
  rfl

/-- The table of matches says what a pattern matches. -/
theorem isMatch_iff : isMatch g t = true ↔ Matches g t := by
  induction g generalizing t with
  | nil =>
    cases t with
    | nil => exact ⟨fun _ => rfl, fun _ => rfl⟩
    | cons c t => exact ⟨fun h => (nomatch h), fun h => (nomatch h)⟩
  | cons p g ih =>
    cases p with
    | star =>
      induction t with
      | nil =>
        rw [isMatch_star_nil, ih, Matches]
        exact ⟨fun h => ⟨[], [], rfl, h⟩,
          fun ⟨u, v, huv, h⟩ => (List.append_eq_nil_iff.mp huv.symm).2 ▸ h⟩
      | cons c t iht =>
        rw [isMatch_star_cons, Bool.or_eq_true, ih, iht, Matches, Matches]
        constructor
        · rintro (h | ⟨u, v, rfl, h⟩)
          · exact ⟨[], c :: t, rfl, h⟩
          · exact ⟨c :: u, v, rfl, h⟩
        · rintro ⟨u, v, huv, h⟩
          cases u with
          | nil => exact .inl (huv ▸ h)
          | cons d u => exact .inr ⟨u, v, (List.cons.inj huv).2, h⟩
    | one set =>
      cases t with
      | nil =>
        rw [Matches]
        exact ⟨fun h => (nomatch h), fun ⟨_, _, h, _⟩ => (nomatch h)⟩
      | cons c t =>
        rw [isMatch_one_cons, Bool.and_eq_true, ih, Matches]
        exact ⟨fun h => ⟨c, t, rfl, h⟩, fun ⟨d, v, hcons, h⟩ => by
          obtain ⟨rfl, rfl⟩ := List.cons.inj hcons
          exact h⟩

end Table

theorem matches_literal_append {s t : Text} {g : Glob} :
    Matches (literal s ++ g) t ↔ ∃ v, t = s ++ v ∧ Matches g v := by
  induction s generalizing t with
  | nil => exact ⟨fun h => ⟨t, rfl, h⟩, fun ⟨v, h, hv⟩ => h ▸ hv⟩
  | cons c s ih =>
    have hcons : literal (c :: s) ++ g = .one (.single c) :: (literal s ++ g) := rfl
    rw [hcons, Matches]
    simp only [CharSet.contains_single, ih]
    constructor
    · rintro ⟨_, _, rfl, rfl, v, rfl, hv⟩
      exact ⟨v, rfl, hv⟩
    · rintro ⟨v, rfl, hv⟩
      exact ⟨c, s ++ v, rfl, rfl, v, rfl, hv⟩

theorem matches_literal {s t : Text} : Matches (literal s) t ↔ t = s := by
  rw [← List.append_nil (literal s), matches_literal_append]
  exact ⟨fun ⟨v, h, hv⟩ => by rw [h, hv, List.append_nil], fun h => ⟨[], by simp [h], rfl⟩⟩

theorem matches_stars {g : Glob} {t : Text} :
    Matches (.star :: .star :: g) t ↔ Matches (.star :: g) t :=
  ⟨fun ⟨u, _, ht, u', v, hv, h⟩ => ⟨u ++ u', v, by rw [ht, hv, List.append_assoc], h⟩,
    fun h => ⟨[], t, rfl, h⟩⟩

theorem matches_any (t : Text) : Matches [.star] t :=
  ⟨t, [], by simp, rfl⟩

private theorem body?_eq_none {t : Text} (h : .scalar ']' ∉ t) : body? t = none := by
  have hhead (n : Nat) : ((t.drop n).head? == some (.scalar ']')) = false := by
    rw [beq_eq_false_iff_ne]
    exact fun he => h (List.mem_of_mem_drop (List.mem_of_head? he))
  have hall (n : Nat) : (t.drop n).takeWhile (· != .scalar ']') = t.drop n := by
    refine List.takeWhile_eq_self_iff.mpr fun c hc => ?_
    exact bne_iff_ne.mpr fun he => h (he ▸ List.mem_of_mem_drop hc)
  simp only [body?, hhead, hall, Bool.false_eq_true, if_false, List.append_nil, if_true]

/-- A literal text at the start of a pattern is read as it is, if no bracket is closed behind it. -/
theorem ofText_literal_append {s t : Text} (hs : IsLiteral s) (ht : .scalar ']' ∉ t) :
    ofText (s ++ t) = literal s ++ ofText t := by
  induction s with
  | nil => rfl
  | cons c s ih =>
    obtain ⟨⟨hstar, hmark, hbracket⟩, hs⟩ := hs
    have hcons : literal (c :: s) ++ ofText t = .one (.single c) :: ofText (s ++ t) := by
      rw [ih hs]
      rfl
    rw [hcons, List.cons_append, ofText_cons, if_neg hstar, if_neg hmark]
    by_cases hc : c = .scalar '['
    · have hclosed : .scalar ']' ∉ s ++ t := by
        rw [List.mem_append, not_or]
        exact ⟨hbracket hc, ht⟩
      rw [if_pos hc, body?_eq_none hclosed]
    · rw [if_neg hc]

theorem ofText_literal {s : Text} (hs : IsLiteral s) : ofText s = literal s := by
  simpa using ofText_literal_append (t := []) hs List.not_mem_nil

private theorem ofText_within {name : Text} (h : IsLiteral name) :
    ofText ("**/" ++ name ++ "/**") =
      .star :: .star :: (literal (.scalar '/' :: (name ++ [.scalar '/'])) ++ [.star, .star]) := by
  have hstart : ofText ("**/" ++ name ++ "/**") =
      .star :: .star :: .one (.single (.scalar '/')) :: ofText (name ++ "/**") := by
    rw [List.append_assoc]
    exact congrArg (fun g => Piece.star :: .star :: g) (ofText_cons _ _)
  have hend : ofText "/**" = [.one (.single (.scalar '/')), .star, .star] := by decide
  rw [hstart, ofText_literal_append h (by decide), hend]
  simp [literal]

/-- Two stars on either side match whatever holds the slashes and the name between them. -/
private theorem matches_within {name t : Text} (h : IsLiteral name) :
    Matches (ofText ("**/" ++ name ++ "/**")) t ↔
      .scalar '/' :: (name ++ [.scalar '/']) <:+: t := by
  rw [ofText_within h, matches_stars, Matches]
  simp only [matches_literal_append, matches_stars, matches_any, and_true]
  constructor
  · rintro ⟨u, _, rfl, v, rfl⟩
    exact ⟨u, v, List.append_assoc ..⟩
  · rintro ⟨u, v, rfl⟩
    exact ⟨u, _, List.append_assoc .., v, rfl⟩

end Glob

def Text.withSlashes (t : Text) : Text :=
  t.map fun c => if c = .scalar '\\' then .scalar '/' else c

namespace Path

/-- A path below another one is seen as the way to it. -/
theorem globText?_append (base : Path) {rel : Path} (h : rel.root = 0) :
    globText? base (base.append rel) = some rel.toText.withSlashes := by
  have hrel : (base.append rel).relativeTo? base = some rel := by
    obtain ⟨root, names⟩ := rel
    obtain rfl : root = 0 := h
    simp [append, relativeTo?]
  rw [globText?, hrel]
  rfl

theorem globText?_eq_none {base p : Path} (h : ¬ (p.root = base.root ∧ base.names <+: p.names)) :
    globText? base p = none := by
  rw [globText?, relativeTo?, if_neg (by simpa using h)]
  rfl

theorem isIgnored_append {base rel : Path} (h : rel.root = 0) (globs : List Glob) :
    isIgnored base (base.append rel) globs = true ↔ ∃ g ∈ globs,
      g.Matches rel.toText.withSlashes ∨ g.Matches (.scalar '/' :: rel.toText.withSlashes) := by
  rw [isIgnored, globText?_append base h]
  simp only [List.any_eq_true, Glob.isPathMatch, Bool.or_eq_true, Glob.isMatch_iff]

/-- The pattern of a name leaves out what lies inside a directory of that name, at any depth, but not
such a directory itself. Whatever does not lie below the base is left out. -/
theorem isIgnored_within (base : Path) (name : Text) (hslash : .scalar '/' ∉ name)
    (hliteral : Glob.IsLiteral name) :
    (∀ rel : Path, rel.root = 0 →
      (isIgnored base (base.append rel) [Glob.ofText ("**/" ++ name ++ "/**")] = true ↔
        name ∈ (Text.splitOn (.scalar '/') rel.toText.withSlashes).dropLast)) ∧
    ∀ (p : Path) (globs : List Glob), ¬ (p.root = base.root ∧ base.names <+: p.names) →
      isIgnored base p globs = true := by
  refine ⟨fun rel hroot => ?_, fun p globs hbelow => ?_⟩
  · rw [isIgnored_append hroot, Text.mem_dropLast_splitOn hslash]
    simp only [List.mem_singleton, exists_eq_left, Glob.matches_within hliteral]
    exact ⟨fun h => h.elim (fun h => h.trans (List.suffix_cons _ _).isInfix) id, .inr⟩
  · rw [isIgnored, globText?_eq_none hbelow]

theorem isIgnored_within_modules :
    (.scalar '/' ∉ ("node_modules" : Text) ∧ Glob.IsLiteral "node_modules") ∧
    isIgnored ⟨1, ["src"]⟩ ⟨1, ["src", "a", "node_modules", "x.ts"]⟩
      [Glob.ofText "**/node_modules/**"] = true ∧
    isIgnored ⟨1, ["src"]⟩ ⟨1, ["src", "my_node_modules", "node_modules"]⟩
      [Glob.ofText "**/node_modules/**"] = false ∧
    isIgnored ⟨1, ["src"]⟩ ⟨1, ["lib", "x.ts"]⟩ [] = true := by
  have h := isIgnored_within ⟨1, ["src"]⟩ "node_modules" (by decide) (by decide)
  exact ⟨⟨by decide, by decide⟩, (h.1 ⟨0, ["a", "node_modules", "x.ts"]⟩ rfl).mpr (by decide),
    Bool.eq_false_iff.mpr (mt (h.1 ⟨0, ["my_node_modules", "node_modules"]⟩ rfl).mp (by decide)),
    h.2 ⟨1, ["lib", "x.ts"]⟩ [] (by decide)⟩

end Path

end LocaleLift
