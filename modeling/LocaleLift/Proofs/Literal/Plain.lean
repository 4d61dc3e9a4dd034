import LocaleLift.Proofs.Literal.Verbatim
import LocaleLift.Proofs.Text.Inert
import LocaleLift.Registry

/-! Quotes and angle brackets in literals: no escape hides one that stands in a body, and a call for a
text without them holds only the quotes around its key. -/
namespace LocaleLift

namespace Literal

private theorem isVerbatim_of_not_isPlain {c : CodePoint} (h : ¬ c.IsPlain) : IsVerbatim c := by
  simp only [CodePoint.IsPlain, CodePoint.IsQuote, not_and_or, not_not, ne_eq] at h
  rcases h with (rfl | rfl) | rfl | rfl
  · decide
  · decide
  · decide
  · decide

/-- A body with a plain value is plain. -/
theorem isPlain_of_cook {body v : Text} (h : cook body = .ok v) (hv : v.IsPlain) :
    body.IsPlain := by
  intro c hc
  by_contra hspecial
  exact hspecial (hv c (mem_cook (isVerbatim_of_not_isPlain hspecial) h hc))

end Literal

/-- Replacing brings in nothing that stands in neither text, and nothing at all where the pattern does
not stand. -/
private theorem Text.isPlain_replaceAll {pattern new t : Text} (h : pattern ≠ []) (ht : t.IsPlain)
    (hnew : pattern.IsPlain → new.IsPlain) : (replaceAll pattern new t).IsPlain := by
  obtain ⟨ps, hold, hr⟩ := replaceAll_fill h new t
  intro c hc
  rw [hr] at hc
  obtain ⟨p, hp, hc⟩ := List.mem_flatMap.mp hc
  have hfill (d : CodePoint) (hd : d ∈ p.fill pattern) : d.IsPlain :=
    ht d (hold ▸ List.mem_flatMap.mpr ⟨p, hp, hd⟩)
  cases p with
  | plain d => exact hfill c hc
  | found a text => exact hnew hfill c hc

theorem Literal.balanced_quote {q : CodePoint} (hq : q.IsQuote) {value : Text}
    (h : value.IsPlain) : Text.Balanced (quote [q] value) := by
  have hquoted {body : Text} (hbody : body.IsPlain) : Text.Balanced ([q] ++ body ++ [q]) :=
    .quoted hq (.plain hbody)
  refine hquoted ?_
  refine Text.isPlain_replaceAll (by decide) ?_ fun _ => by decide
  refine Text.isPlain_replaceAll (by decide) ?_ fun _ => by decide
  refine Text.isPlain_replaceAll (by decide) ?_ fun _ => by decide
  refine Text.isPlain_replaceAll (by decide) ?_ fun _ => by decide
  refine Text.isPlain_replaceAll (List.cons_ne_nil q []) ?_ fun hplain => ?_
  · exact Text.isPlain_replaceAll (by decide) h fun _ => by decide
  · exact absurd hq (hplain q (List.mem_singleton.mpr rfl)).1

/-- The names that stand in every call hold no quote and no angle bracket, and the name of the
function begins with a blunt code point. -/
structure Scope.IsPlain (s : Scope) : Prop where
  ns : s.ns.IsPlain
  common : s.common.ns.IsPlain
  function : s.function.IsPlain
  blunt : Text.Blunt s.function

namespace Scope.IsPlain

variable {s : Scope}

theorem balanced_call (h : s.IsPlain) {q : CodePoint} (hq : q.IsQuote) {t : Text}
    (ht : t.IsPlain) : Text.Balanced (s.call [q] t) := by
  have hkey : (s.common.keyFor s.ns t).IsPlain := by
    have hns : (s.common.resolve s.ns t).IsPlain := by
      rw [CommonTerms.resolve]
      split
      · exact h.common
      · exact h.ns
    exact List.forall_mem_append.mpr ⟨List.forall_mem_append.mpr ⟨hns, by decide⟩, ht⟩
  exact .append (.append (.append (.plain h.function) (.plain (by decide)))
    (Literal.balanced_quote hq hkey)) (.plain (by decide))

/-- A call is a passage, also between two texts that may stand around one. -/
theorem isPassage_call (h : s.IsPlain) {q : CodePoint} (hq : q.IsQuote) {t : Text} (ht : t.IsPlain)
    {opening closing : Text} (hopening : opening.IsPlain) (hclosing : closing.IsPlain)
    (hblunt : opening = [] ∨ Text.Blunt opening)
    (hfirm : closing = [] ∨ ∃ s c, closing = s ++ [c] ∧ CodePoint.IsFirm c) :
    Text.IsPassage (opening ++ s.call [q] t ++ closing) where
  balanced := .append (.append (.plain hopening) (h.balanced_call hq ht)) (.plain hclosing)
  last := by
    rcases hfirm with rfl | ⟨s, c, rfl, hc⟩
    · rw [List.append_nil, call, lookupCall, ← List.append_assoc]
      exact ⟨_, .scalar ')', rfl, by decide⟩
    · rw [← List.append_assoc]
      exact ⟨_, c, rfl, hc⟩
  blunt := by
    rcases hblunt with rfl | ⟨c, s, rfl, hc⟩
    · obtain ⟨c, name, hname, hc⟩ := h.blunt
      rw [call, lookupCall, hname]
      exact ⟨c, _, rfl, hc⟩
    · exact ⟨c, _, rfl, hc⟩

end Scope.IsPlain

end LocaleLift
