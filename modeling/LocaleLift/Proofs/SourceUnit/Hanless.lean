import LocaleLift.Proofs.Component.Settle
import LocaleLift.Proofs.Literal.Verbatim
import LocaleLift.Proofs.SourceUnit.Rerun

/-! Sources without Chinese, which are left as they are. -/
namespace LocaleLift

open Literal (IsHanless)

namespace Script

/-- A script without Chinese is localized as soon as it is a sentence of its dialect. -/
theorem isLocalized_of_hanless [Script.Parser] {d : Dialect} {s : Style} {source : Text}
    {root : Node}
    (hsource : source.isEncodable = true) (h : IsHanless source)
    (hroot : parse? d source = some root) : IsLocalized d s source := by
  refine ⟨hsource, root, hroot, fun o _ => ?_⟩
  have hslice (a b : Nat) := h.within (Utf8.slice_isInfix a b source)
  rw [Occurrence.IsSettled]
  split
  · have hbody : o.1.body source <:+: o.1.text source :=
      (List.dropLast_prefix _).isInfix.trans (List.drop_suffix 1 _).isInfix
    obtain ⟨v, hv, hnone⟩ := Literal.exists_cook_hanless ((hslice _ _).within hbody)
    exact ⟨v, hv, fun hhan => by simp [hnone] at hhan⟩
  · exact .inr fun r _ => (hslice r.1 r.2).none
  · exact (hslice _ _).none

end Script

namespace Markup

/-- A template without Chinese is localized, however it is formed. -/
theorem isLocalized_of_hanless [Script.Parser] {scope : Scope} {template : Text}
    (h : template.hasHan = false) : IsLocalized scope template := by
  have hchunk {t : Token} (ht : t ∈ tokens template) : t.chunk ⊆ template := by
    intro c hc
    rw [← flatten_tokens template]
    exact List.mem_flatMap.mpr ⟨t, ht, hc⟩
  have hnone {t : Token} (ht : t ∈ tokens template) : t.chunk.hasHan ≠ true := fun hhan => by
    rw [hasHan_of_subset (hchunk ht) hhan] at h
    cases h
  refine ⟨?_, fun t ht _ c hc => ?_, ?_⟩
  · refine forall_mem_attributes.mpr fun t ht _ _ a ha hhan => absurd ?_ (hnone ht)
    exact hasHan_of_subset (mem_attributes ha) (hasHan_of_subset (value_subset a) hhan)
  · have hmem : c ∈ t.chunk := by
      rw [← Text.flatten_parts matchInterpolation t.chunk]
      exact List.mem_flatMap.mpr ⟨_, hc, List.mem_singleton.mpr rfl⟩
    exact Text.hasHan_eq_false.mp h c (hchunk ht hmem)
  · refine forall_mem_interpolations.mpr fun t ht _ inside hi qs body raw rs hps hreplaced => ?_
    have hmem : .found body raw ∈ Text.parts matchLiteral inside := by simp [hps]
    refine absurd ?_ (hnone ht)
    exact hasHan_of_subset (inside_subset hi) (hasHan_of_subset (body_subset hmem) hreplaced.1)

end Markup

namespace Component

variable {scope : Scope} {text : Text}

private theorem content_isInfix {b : Block} (h : ∃ offset, (offset, b) ∈ blocks text) :
    b.content <:+: text := by
  obtain ⟨offset, h⟩ := h
  obtain ⟨before, after, htext, -⟩ := (blocks_spec text).1 _ h
  exact ⟨before, after, htext.symm⟩

/-- A component without Chinese is localized, unless its set-up script is refused. -/
theorem isLocalized_of_hanless [Script.Parser] (htext : text.isEncodable = true)
    (h : IsHanless text)
    (hparse : ∀ b d, setup? text = some (b, d) → Script.parse? d b.content ≠ none) :
    IsLocalized scope text := by
  refine ⟨fun b d hb => ?_, fun b hb => ?_⟩
  · have hmem := (mem_blocks_of_setup? hb).1
    obtain ⟨root, hroot⟩ := Option.ne_none_iff_exists'.mp (hparse b d hb)
    obtain ⟨offset, hblock⟩ := hmem
    exact Script.isLocalized_of_hanless (isEncodable_content htext hblock)
      (h.within (content_isInfix ⟨offset, hblock⟩)) hroot
  · exact Markup.isLocalized_of_hanless (h.within (content_isInfix (mem_blocks_of_markup? hb).1)).none

/-- A component is refused if its set-up script is. -/
theorem localize_unparsable [Script.Parser] (htext : text.isEncodable = true) {b : Block}
    {d : Dialect}
    (hb : setup? text = some (b, d)) (hparse : Script.parse? d b.content = none) :
    ∃ d, (localize scope text).result = .error (.unparsable d) := by
  obtain ⟨⟨offset, hblock⟩, -⟩ := mem_blocks_of_setup? hb
  have hcontent := isEncodable_content htext hblock
  obtain ⟨d', hrefused⟩ :=
    (Script.localize_unparsable (s := setupStyle d scope) hcontent).mpr hparse
  refine ⟨d', ?_⟩
  rcases localizeSetup_cases scope text with ⟨hnone, -⟩ | ⟨b', d'', hb', hlocalize⟩
  · cases hb.symm.trans hnone
  · cases hb.symm.trans hb'
    have hsetup : (localizeSetup scope (layout text)).result = .error (.unparsable d') := by
      rw [hlocalize]
      exact Extract.bind_eq_error.mpr (.inl hrefused)
    exact Extract.bind_eq_error.mpr (.inr ⟨(), (quiet_extraTemplates _).2,
      Extract.bind_eq_error.mpr (.inl hsetup)⟩)

end Component

namespace SourceUnit

private theorem isLocalized_or_unparsable [Script.Parser] {scope : Scope} {path text : Text}
    (hpath : UnitKind.ofPath? (Path.ofText path) ≠ none) (htext : text.isEncodable = true)
    (h : IsHanless text) :
    IsLocalized scope path text ∨
      ∃ d, (localize scope path text).result = .error (.unparsable d) := by
  rw [IsLocalized, localize]
  rcases hkind : UnitKind.ofPath? (Path.ofText path) with _ | _ | d
  · exact absurd hkind hpath
  · by_cases hparse : ∀ b d, Component.setup? text = some (b, d) → Script.parse? d b.content ≠ none
    · exact .inl (Component.isLocalized_of_hanless htext h hparse)
    · simp only [ne_eq, not_forall, not_not, exists_prop] at hparse
      obtain ⟨b, d, hb, hnone⟩ := hparse
      exact .inr (Component.localize_unparsable htext hb hnone)
  · cases hroot : Script.parse? d text with
    | none => exact .inr ((Script.localize_unparsable htext).mpr hroot)
    | some root => exact .inl (Script.isLocalized_of_hanless htext h hroot)

/-- A source without Chinese that cannot spell any by number is left as it is, code point for code
point, and nothing is filed, unless a script in it is refused as no sentence of its dialect. -/
theorem process_hanless [Script.Parser] {r : Registry} {ns function path text : Text}
    (hpath : UnitKind.ofPath? (Path.ofText path) ≠ none) (htext : text.isEncodable = true)
    (hhan : text.hasHan = false) (hescape : ¬ ("\\u" : Text) <:+: text) :
    (process r ns function path text).registry = r ∧
      ((process r ns function path text).result = .ok text ∨
        ∃ d, (process r ns function path text).result = .error (.unparsable d)) := by
  have hresult := process_result r ns function path text
  rcases isLocalized_or_unparsable hpath htext ⟨hhan, hescape⟩ with h | ⟨d, h⟩
  · obtain ⟨htexts, hok⟩ := (restsAt_localize ⟨ns, r.common, function⟩ path text text).mpr ⟨rfl, h⟩
    refine ⟨?_, .inl (hresult.trans hok)⟩
    rw [process_ok (hresult.trans hok), htexts]
    rfl
  · have herror := hresult.trans h
    exact ⟨process_error herror, .inr ⟨d, herror⟩⟩

/-- Unclosed marks of markup, and escapes of other kinds, are left alone. -/
theorem process_hanless_unclosed :
    let start := Registry.empty (.ofList [] "common")
    let text : Text := "<template><p :a=\x22'\\x41'\x22>\x7b\x7b '\\n</p><!-- </template>"
    UnitKind.ofPath? (Path.ofText "a.vue") ≠ none ∧ text.isEncodable = true ∧
      text.hasHan = false ∧ ¬ ("\\u" : Text) <:+: text ∧
      (process start "test" "$t" "a.vue" text).registry = start ∧
      ((process start "test" "$t" "a.vue" text).result = .ok text ∨
        ∃ d, (process start "test" "$t" "a.vue" text).result = .error (.unparsable d)) := by
  intro start text
  have hpath : UnitKind.ofPath? (Path.ofText "a.vue") ≠ none := by decide
  have htext : text.isEncodable = true := by decide
  have hhan : text.hasHan = false := by decide
  have hletter : CodePoint.scalar 'u' ∉ text := by decide
  have hescape : ¬ ("\\u" : Text) <:+: text := fun h => hletter (h.subset (by decide))
  exact ⟨hpath, htext, hhan, hescape, process_hanless hpath htext hhan hescape⟩

end SourceUnit
end LocaleLift
