import LocaleLift.Proofs.Component.Frame
import LocaleLift.Proofs.Markup.Localized

/-! Components that are localized: to localize them changes nothing and finds nothing. -/
namespace LocaleLift.Component

open Extract (RestsAt)

/-- The set-up script of a component is localized, and so is its template, as far as they are looked
at. -/
structure IsLocalized [Script.Parser] (scope : Scope) (text : Text) : Prop where
  setup : ∀ b d, setup? text = some (b, d) →
    Script.IsLocalized d (setupStyle d scope) b.content
  template : ∀ b, markup? text = some b → Markup.IsLocalized scope b.content

/-- Replacements that put what stands in a text back in its place. -/
private def AreIdle (text : Text) (rs : List Replacement) : Prop :=
  ∀ r ∈ rs, r.start ≤ r.stop ∧ r.text = (text.take r.stop).drop r.start

private theorem areIdle_block {text : Text} {b : Block} (h : ∃ offset, (offset, b) ∈ blocks text)
    (hne : b.content ≠ []) : AreIdle text [.ofBlock b b.content] := by
  obtain ⟨offset, h⟩ := h
  obtain ⟨hlt, -, hcontent⟩ := range_of_mem_blocks h hne
  exact List.forall_mem_singleton.mpr ⟨Nat.le_of_lt hlt, hcontent.symm⟩

section Localize

variable (scope : Scope) (text : Text)

private theorem exists_restsAt_localizeSetup [Script.Parser] : ∃ script, AreIdle text script ∧
    RestsAt script
      (∀ b d, setup? text = some (b, d) → Script.IsLocalized d (setupStyle d scope) b.content)
      (localizeSetup scope (layout text)) := by
  rcases localizeSetup_cases scope text with ⟨hnone, hquiet⟩ | ⟨b, d, hb, hlocalize⟩
  · refine ⟨[], List.forall_mem_nil _, (Extract.Quiet.restsAt hquiet).congr ?_⟩
    rw [hnone]
    exact iff_of_true trivial nofun
  · obtain ⟨hmem, -, hne⟩ := mem_blocks_of_setup? hb
    refine ⟨_, areIdle_block hmem hne, ?_⟩
    rw [hlocalize]
    refine ((Script.restsAt_localize d (setupStyle d scope) b.content).map rfl).congr ?_
    constructor
    · intro h b' d' hb'
      cases hb.symm.trans hb'
      exact h
    · exact fun h => h b d hb

private theorem exists_restsAt_localizeTemplate [Script.Parser] : ∃ template,
    AreIdle text template ∧ RestsAt template
      (∀ b, markup? text = some b → Markup.IsLocalized scope b.content)
      (localizeTemplate scope (layout text)) := by
  rcases localizeTemplate_cases scope text with ⟨hnone, hquiet⟩ | ⟨b, hb, hlocalize⟩
  · refine ⟨[], List.forall_mem_nil _, (Extract.Quiet.restsAt hquiet).congr ?_⟩
    rw [hnone]
    exact iff_of_true trivial nofun
  · obtain ⟨hmem, -, hne⟩ := mem_blocks_of_markup? hb
    refine ⟨_, areIdle_block hmem hne, ?_⟩
    rw [hlocalize]
    refine ((Markup.restsAt_localize scope b.content).map rfl).congr ?_
    constructor
    · intro h b' hb'
      cases hb.symm.trans hb'
      exact h
    · exact fun h => h b hb

/-- Localizing a component leaves it as it is exactly if it is localized. -/
theorem restsAt_localize [Script.Parser] : RestsAt text (IsLocalized scope text)
    (localize scope text) := by
  obtain ⟨script, hscript, hsetup⟩ := exists_restsAt_localizeSetup scope text
  obtain ⟨template, htemplate, hmarkup⟩ := exists_restsAt_localizeTemplate scope text
  have hself : splice text (script ++ template) = text :=
    splice_self (List.forall_mem_append.mpr ⟨hscript, htemplate⟩)
  refine ((quiet_extraTemplates _).restsAt.bind fun _ => hsetup.bind fun _ => hmarkup.map hself).congr ?_
  rw [true_and]
  exact ⟨fun h => ⟨h.1, h.2⟩, fun h => ⟨h.setup, h.template⟩⟩

end Localize

end LocaleLift.Component
