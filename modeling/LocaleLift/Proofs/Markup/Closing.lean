import LocaleLift.Markup.Words
import LocaleLift.Proofs.Text.Search
import Mathlib.Data.List.Chain

/-! Texts that close no interpolation, and interpolations that end where they are meant to. -/
namespace LocaleLift.Markup

/-- The mark that closes an interpolation does not occur in a text. -/
def Unclosed (t : Text) : Prop :=
  ¬ ("\x7d\x7d" : Text) <:+: t

instance (t : Text) : Decidable (Unclosed t) :=
  inferInstanceAs (Decidable (¬ _))

section Unclosed

variable {s t : Text}

private theorem unclosed_iff_isChain :
    Unclosed t ↔ t.IsChain fun c d => ¬ (c = .scalar '\x7d' ∧ d = .scalar '\x7d') := by
  rw [List.isChain_iff_forall_rel_of_append_cons_cons, Unclosed]
  constructor
  · rintro h c d before after rfl ⟨rfl, rfl⟩
    exact h ⟨before, after, by simp [Text.ofString]⟩
  · rintro h ⟨before, after, rfl⟩
    exact h (by simp [Text.ofString]; rfl) ⟨rfl, rfl⟩

theorem Unclosed.within (h : Unclosed t) (hs : s <:+: t) : Unclosed s :=
  fun hclosed => h (hclosed.trans hs)

/-- Two texts close an interpolation together only where they meet. -/
theorem unclosed_append : Unclosed (s ++ t) ↔ Unclosed s ∧ Unclosed t ∧
    ¬ (s.getLast? = some (.scalar '\x7d') ∧ t.head? = some (.scalar '\x7d')) := by
  rw [unclosed_iff_isChain, unclosed_iff_isChain, unclosed_iff_isChain, List.isChain_append]
  refine and_congr_right fun _ => and_congr_right fun _ => ⟨?_, ?_⟩
  · rintro h ⟨hs, ht⟩
    exact h _ hs _ ht ⟨rfl, rfl⟩
  · rintro h _ hs _ ht ⟨rfl, rfl⟩
    exact h ⟨hs, ht⟩

theorem unclosed_of_not_mem (h : .scalar '\x7d' ∉ t) : Unclosed t := by
  rintro ⟨before, after, rfl⟩
  exact h (by simp [Text.ofString])

/-- Two texts close none together with a code point between them that is no such bracket. -/
theorem Unclosed.around {c : CodePoint} (hs : Unclosed s) (hc : c ≠ .scalar '\x7d')
    (ht : Unclosed t) : Unclosed (s ++ c :: t) := by
  have htail : Unclosed ([c] ++ t) := by
    refine unclosed_append.mpr ⟨unclosed_of_not_mem ?_, ht, fun h => hc (Option.some.inj h.1)⟩
    exact fun h => hc (List.mem_singleton.mp h).symm
  exact unclosed_append.mpr ⟨hs, htail, fun h => hc (Option.some.inj h.2)⟩

theorem Unclosed.cons {c : CodePoint} (hc : c ≠ .scalar '\x7d') (ht : Unclosed t) :
    Unclosed (c :: t) :=
  .around (s := []) (by decide) hc ht

/-- A text can be followed by others that are like it as far as the next bracket goes. -/
theorem Unclosed.exchange {u : Text} (h : Unclosed (s ++ t)) (hu : Unclosed u)
    (hhead : u.head? = some (.scalar '\x7d') → t.head? = some (.scalar '\x7d')) :
    Unclosed (s ++ u) := by
  obtain ⟨hs, -, hmeet⟩ := unclosed_append.mp h
  exact unclosed_append.mpr ⟨hs, hu, fun h => hmeet ⟨h.1, hhead h.2⟩⟩

end Unclosed

private theorem unclosed_fill {pattern new : Text} (hnew : .scalar '\x7d' ∉ new) (hne : new ≠ [])
    {ps : List (Part Unit)} (h : Unclosed (ps.flatMap (Part.fill pattern))) :
    Unclosed (ps.flatMap (Part.fill new)) ∧
      ((ps.flatMap (Part.fill new)).head? = some (.scalar '\x7d') →
        (ps.flatMap (Part.fill pattern)).head? = some (.scalar '\x7d')) := by
  induction ps with
  | nil => exact ⟨h, id⟩
  | cons p ps ih =>
    rw [List.flatMap_cons] at h ⊢
    obtain ⟨hrest, hhead⟩ := ih (unclosed_append.mp h).2.1
    cases p with
    | plain c => exact ⟨h.exchange hrest hhead, id⟩
    | found a text =>
      obtain ⟨c, new, rfl⟩ := List.exists_cons_of_ne_nil hne
      have hc : c ≠ .scalar '\x7d' := fun hc => hnew (hc ▸ List.mem_cons_self ..)
      refine ⟨unclosed_append.mpr ⟨unclosed_of_not_mem hnew, hrest, fun hmeet => ?_⟩,
        fun hfirst => absurd (Option.some.inj hfirst) hc⟩
      exact hnew (List.mem_of_getLast? hmeet.1)

/-- Replacing closes nothing, if the new text holds no such bracket. -/
private theorem unclosed_replaceAll {pattern new t : Text} (hpattern : pattern ≠ [])
    (hnew : .scalar '\x7d' ∉ new) (hne : new ≠ []) (h : Unclosed t) :
    Unclosed (Text.replaceAll pattern new t) := by
  obtain ⟨ps, hold, hreplaced⟩ := Text.replaceAll_fill hpattern new t
  rw [hold] at h
  rw [hreplaced]
  exact (unclosed_fill hnew hne h).1

private theorem unclosed_quote {value : Text} (h : Unclosed value) :
    Unclosed (Literal.quote "\x27" value) := by
  have hquoted {body : Text} (hbody : Unclosed body) : Unclosed ("\x27" ++ body ++ "\x27") := by
    exact (hbody.cons (c := .scalar '\x27') (by decide)).around (by decide) (by decide)
  refine hquoted ?_
  refine unclosed_replaceAll (by decide) (by decide) (by decide) ?_
  refine unclosed_replaceAll (by decide) (by decide) (by decide) ?_
  refine unclosed_replaceAll (by decide) (by decide) (by decide) ?_
  refine unclosed_replaceAll (by decide) (by decide) (by decide) ?_
  refine unclosed_replaceAll (by decide) (by decide) (by decide) ?_
  exact unclosed_replaceAll (by decide) (by decide) (by decide) h

/-- The names that stand in every call close no interpolation. -/
structure IsUnclosed (scope : Scope) : Prop where
  ns : Unclosed scope.ns
  common : Unclosed scope.common.ns
  function : Unclosed scope.function

theorem IsUnclosed.call {scope : Scope} (h : IsUnclosed scope) {t : Text} (ht : Unclosed t) :
    Unclosed (scope.call "\x27" t) := by
  have hns : Unclosed (scope.common.resolve scope.ns t) := by
    rw [CommonTerms.resolve]
    split
    · exact h.common
    · exact h.ns
  have hkey : Unclosed (scope.common.keyFor scope.ns t) := by
    rw [CommonTerms.keyFor, List.append_assoc]
    exact hns.around (by decide) ht
  rw [Scope.call, lookupCall, List.append_assoc scope.function]
  exact (h.function.around (by decide) (unclosed_quote hkey)).around (by decide) (by decide)

def IsInterpolation (t : Text) : Prop :=
  ∃ inside, t = "\x7b\x7b" ++ inside ++ "\x7d\x7d" ∧ Unclosed (inside ++ "\x7d")

theorem IsUnclosed.isInterpolation {scope : Scope} (h : IsUnclosed scope) {t : Text}
    (ht : Unclosed t) : IsInterpolation (asInterpolation (scope.call "\x27" t)) := by
  refine ⟨" " ++ scope.call "\x27" t ++ " ", ?_, ?_⟩
  · simp [asInterpolation, Text.ofString]
  · rw [List.append_assoc]
    exact ((h.call ht).cons (c := .scalar ' ') (by decide)).around (by decide) (by decide)

end LocaleLift.Markup
