import LocaleLift.Registry
import LocaleLift.Text.Han
import Mathlib.Data.List.Basic

/-! Which steps of rewriting a text keep it encodable: trimming, wrapping its runs of Chinese, and
putting it into a call. -/
namespace LocaleLift

namespace Text

theorem isEncodable_iff {t : Text} : t.isEncodable = true ↔ ∀ c ∈ t, c.isScalar = true :=
  List.all_eq_true

theorem isEncodable_of_subset {s t : Text} (h : s ⊆ t) (ht : t.isEncodable = true) :
    s.isEncodable = true := by
  rw [isEncodable_iff] at *
  exact fun c hc => ht c (h hc)

theorem isEncodable_flatMap {α : Type} {f : α → Text} {as : List α} :
    isEncodable (as.flatMap f) = true ↔ ∀ a ∈ as, isEncodable (f a) = true := by
  simp only [isEncodable_iff, List.mem_flatMap]
  exact ⟨fun h a ha c hc => h c ⟨a, ha, hc⟩, fun h c ⟨a, ha, hc⟩ => h a ha c hc⟩

private theorem isScalar_of_isSpace {c : CodePoint} (h : c.isSpace = true) :
    c.isScalar = true := by
  rw [CodePoint.isScalar_iff]
  simp only [CodePoint.isSpace, CodePoint.inRange, Bool.or_eq_true, Bool.and_eq_true,
    decide_eq_true_eq, beq_iff_eq] at h
  omega

/-- White space never holds a surrogate. -/
@[simp] theorem isEncodable_trim (t : Text) : isEncodable (trim t) = isEncodable t := by
  rw [Bool.eq_iff_iff, isEncodable_iff, isEncodable_iff]
  exact forall_mem_trim fun _ => isScalar_of_isSpace

theorem isEncodable_pieces {style : RunStyle} {t : Text} :
    (∀ p ∈ pieces style t, p.text.isEncodable = true) ↔ t.isEncodable = true := by
  rw [← isEncodable_flatMap, flatten_pieces]

/-- Wrapping keeps the text of runs and all between them. -/
theorem isEncodable_wrapRuns {wrap : Text → Text}
    (hw : ∀ r, isEncodable (wrap r) = isEncodable r) (ps : List Piece) :
    isEncodable (wrapRuns wrap ps) = true ↔ ∀ p ∈ ps, p.text.isEncodable = true := by
  induction ps with
  | nil => simp [wrapRuns]
  | cons p ps ih =>
    cases p with
    | plain t => simp [wrapRuns, Piece.text, ih]
    | run r => simp [wrapRuns, Piece.text, ih, hw]

private theorem dropOddBackslash_subset (t : Text) : dropOddBackslash t ⊆ t := by
  rw [dropOddBackslash]
  split
  · exact (List.dropLast_sublist t).subset
  · exact List.Subset.refl t

theorem isEncodable_wrapTemplateRuns {wrap : Text → Text}
    (hw : ∀ r, isEncodable (wrap r) = isEncodable r) {ps : List Piece}
    (h : ∀ p ∈ ps, p.text.isEncodable = true) : isEncodable (wrapTemplateRuns wrap ps) = true := by
  fun_induction wrapTemplateRuns wrap ps with
  | case1 => rfl
  | case2 t r ps ih =>
    simp only [List.forall_mem_cons, Piece.text] at h
    simp only [isEncodable_append, hw, Bool.and_eq_true]
    exact ⟨⟨isEncodable_of_subset (dropOddBackslash_subset t) h.1, h.2.1⟩, ih h.2.2⟩
  | case3 t ps hps ih =>
    obtain ⟨ht, hps⟩ := List.forall_mem_cons.mp h
    rw [isEncodable_append, Bool.and_eq_true]
    exact ⟨ht, ih hps⟩
  | case4 r ps ih =>
    obtain ⟨hr, hps⟩ := List.forall_mem_cons.mp h
    rw [isEncodable_append, hw, Bool.and_eq_true]
    exact ⟨hr, ih hps⟩

theorem isEncodable_replaceAll {pattern new : Text} (hp : pattern.isEncodable = true)
    (hn : new.isEncodable = true) (t : Text) :
    (replaceAll pattern new t).isEncodable = t.isEncodable := by
  by_cases h : pattern = []
  · have hall : isEncodable (t.flatMap fun c => c :: new) = t.isEncodable := by
      rw [Bool.eq_iff_iff, isEncodable_flatMap, isEncodable_iff]
      simp [hn]
    rw [replaceAll, if_pos (by simp [h]), isEncodable_append, hn, hall, Bool.true_and]
  · obtain ⟨ps, ht, hr⟩ := replaceAll_fill h new t
    rw [hr, Bool.eq_iff_iff, isEncodable_flatMap]
    conv_rhs => rw [ht, isEncodable_flatMap]
    refine forall₂_congr fun p _ => ?_
    cases p with
    | plain c => rfl
    | found a text => simp [Part.fill, hp, hn]

/-- What replacing takes away can be encoded if what it brings in can. -/
private theorem isEncodable_of_replaceAll {pattern new t : Text}
    (hnew : new.isEncodable = true → pattern.isEncodable = true)
    (h : (replaceAll pattern new t).isEncodable = true) : t.isEncodable = true := by
  by_cases hp : pattern = []
  · rw [replaceAll, if_pos (by simp [hp]), isEncodable_append, Bool.and_eq_true,
      isEncodable_flatMap] at h
    rw [isEncodable_iff]
    intro c hc
    have := h.2 c hc
    rw [isEncodable_cons, Bool.and_eq_true] at this
    exact this.1
  · obtain ⟨ps, ht, hr⟩ := replaceAll_fill hp new t
    rw [hr, isEncodable_flatMap] at h
    rw [ht, isEncodable_flatMap]
    intro p hmem
    have hfill := h p hmem
    cases p with
    | plain c => exact hfill
    | found a text => exact hnew hfill

end Text

theorem Literal.isEncodable_quote {q : Text} (hq : q.isEncodable = true) (value : Text) :
    (Literal.quote q value).isEncodable = value.isEncodable := by
  simp only [Literal.quote, Text.isEncodable_append, hq, Bool.true_and, Bool.and_true,
    Text.isEncodable_replaceAll, Text.isEncodable_ofString, Text.isEncodable_cons,
    CodePoint.isScalar_scalar]

theorem Literal.isEncodable_of_quote {q value : Text}
    (h : (Literal.quote q value).isEncodable = true) : value.isEncodable = true := by
  simp only [Literal.quote, Text.isEncodable_append, Bool.and_eq_true] at h
  have hfixed {s new : Text} {c : String}
      (h : (Text.replaceAll c new s).isEncodable = true) : s.isEncodable = true :=
    Text.isEncodable_of_replaceAll (fun _ => Text.isEncodable_ofString c) h
  have hquote : Text.isEncodable (.scalar '\\' :: q) = true → q.isEncodable = true := by
    rw [Text.isEncodable_cons, Bool.and_eq_true]
    exact And.right
  exact hfixed (Text.isEncodable_of_replaceAll hquote (hfixed (hfixed (hfixed (hfixed h.1.2)))))

/-- The names that stand in every call can be encoded. -/
structure Scope.IsEncodable (s : Scope) : Prop where
  ns : s.ns.isEncodable = true
  common : s.common.ns.isEncodable = true
  function : s.function.isEncodable = true

theorem Scope.IsEncodable.keyFor {s : Scope} (h : s.IsEncodable) (text : Text) :
    (s.common.keyFor s.ns text).isEncodable = text.isEncodable := by
  rw [CommonTerms.keyFor, CommonTerms.resolve]
  split <;> simp [h.ns, h.common, Text.isEncodable_ofString]

theorem Scope.IsEncodable.call {s : Scope} (h : s.IsEncodable) {quote : Text}
    (hq : quote.isEncodable = true) (text : Text) :
    (s.call quote text).isEncodable = text.isEncodable := by
  simp [Scope.call, lookupCall, Literal.isEncodable_quote hq, h.keyFor, h.function,
    Text.isEncodable_ofString]

theorem Scope.isEncodable_of_call {s : Scope} {quote text : Text}
    (h : (s.call quote text).isEncodable = true) : text.isEncodable = true := by
  rw [Scope.call, lookupCall, Text.isEncodable_append, Text.isEncodable_append, Bool.and_eq_true,
    Bool.and_eq_true] at h
  have hkey := Literal.isEncodable_of_quote h.1.2
  rw [CommonTerms.keyFor, Text.isEncodable_append, Bool.and_eq_true] at hkey
  exact hkey.2

end LocaleLift
