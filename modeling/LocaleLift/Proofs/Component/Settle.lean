import LocaleLift.Proofs.Component.Frame
import LocaleLift.Proofs.Markup.Words

/-! Components that come to a text which can be encoded, or are refused for their set-up script. -/
namespace LocaleLift.Component

open Extract (Settles)

/-- The set-up script of a component is harmless, and so is its template. The template matters only
where the script is a sentence of its dialect. -/
structure IsHarmless [Script.Parser] (scope : Scope) (text : Text) : Prop where
  setup : ∀ b d, setup? text = some (b, d) → Script.IsHarmless d (setupStyle d scope) b.content
  template : (∀ b d, setup? text = some (b, d) → Script.parse? d b.content ≠ none) →
    ∀ b, markup? text = some b → Markup.TemplateIsHarmless scope b.content

section Localize

variable {scope : Scope} {text : Text} (htext : text.isEncodable = true)
  (hscope : scope.IsEncodable)

include htext in
theorem isEncodable_content {offset : Nat} {b : Block} (h : (offset, b) ∈ blocks text) :
    b.content.isEncodable = true := by
  obtain ⟨before, after, hcontent, -⟩ := (blocks_spec text).1 _ h
  refine Text.isEncodable_of_subset (fun c hc => ?_) htext
  rw [hcontent]
  exact List.mem_append_left after (List.mem_append_right before hc)

include htext hscope in
private theorem settles_localizeTemplate [Script.Parser] [Script.Parser.IsSound]
    {script : List Replacement}
    (hscript : script = [] ∨ ∃ b d t, setup? text = some (b, d) ∧ script = [.ofBlock b t])
    (hencodable : ∀ r ∈ script, r.text.isEncodable = true) :
    Settles (fun template => (splice text (script ++ template)).isEncodable = true)
        (localizeTemplate scope (layout text)) ↔
      ∀ b, markup? text = some b → Markup.TemplateIsHarmless scope b.content := by
  rcases localizeTemplate_cases scope text with ⟨hnone, -, hresult⟩ | ⟨b, hb, hlocalize⟩
  · rw [hnone]
    refine iff_of_true (.inl ⟨[], hresult, ?_⟩) nofun
    refine (isEncodable_splice (apart_replacements hscript (.inl rfl)) htext).mpr ?_
    rwa [List.append_nil]
  · obtain ⟨⟨offset, hmem⟩, -⟩ := mem_blocks_of_markup? hb
    have hcontent := isEncodable_content htext hmem
    have hsplice (t : Text) :
        (splice text (script ++ [.ofBlock b t])).isEncodable = true ↔ t.isEncodable = true := by
      rw [isEncodable_splice (apart_replacements hscript (.inr ⟨b, t, hb, rfl⟩)) htext,
        List.forall_mem_append, List.forall_mem_singleton, Replacement.ofBlock]
      exact and_iff_right hencodable
    have hupholds : Extract.Upholds (fun _ => True) (do
        return [Replacement.ofBlock b (← Markup.localize scope b.content)]) :=
      (Markup.upholds_localize hscope hcontent).bind fun _ _ => Extract.upholds_pure trivial
    rw [hlocalize, hupholds.settles_iff, Extract.meets_bind]
    simp only [Extract.meets_pure, hsplice]
    rw [Markup.meets_localize hscope hcontent, hb]
    exact ⟨fun h b' hb' => Option.some.inj hb' ▸ h, fun h => h b rfl⟩

include htext hscope in
/-- A component comes to a text that can be encoded, or is refused for its set-up script, exactly if
it is harmless. -/
theorem settles_localize [Script.Parser] [Script.Parser.IsSound] : Settles
    (fun t => t.isEncodable = true) (localize scope text) ↔
    IsHarmless scope text := by
  rw [localize, Extract.settles_bind, Extract.settles_of_ok (quiet_extraTemplates _).2,
    Extract.settles_bind]
  simp only [Extract.settles_bind, Extract.settles_pure]
  rcases localizeSetup_cases scope text with ⟨hnone, -, hresult⟩ | ⟨b, d, hb, hlocalize⟩
  · rw [Extract.settles_of_ok hresult,
      settles_localizeTemplate htext hscope (.inl rfl) (List.forall_mem_nil _)]
    constructor
    · exact fun h => ⟨by rw [hnone]; exact nofun, fun _ => h⟩
    · exact fun h => h.template (by rw [hnone]; exact nofun)
  · obtain ⟨⟨offset, hmem⟩, -⟩ := mem_blocks_of_setup? hb
    have hcontent := isEncodable_content htext hmem
    have hinner (t : Text)
        (ht : (Script.localize d (setupStyle d scope) b.content).result = .ok t) :
        Settles (fun template => (splice text ([.ofBlock b t] ++ template)).isEncodable = true)
            (localizeTemplate scope (layout text)) ↔
          t.isEncodable = true ∧
            ∀ b, markup? text = some b → Markup.TemplateIsHarmless scope b.content := by
      have hencodable := Script.isEncodable_of_localize hcontent ht
      rw [settles_localizeTemplate htext hscope (.inr ⟨b, d, t, hb, rfl⟩)
        (List.forall_mem_singleton.mpr hencodable)]
      exact (and_iff_right hencodable).symm
    have hsettles := Script.settles_localize (s := setupStyle d scope) (d := d) hcontent hscope rfl
    have hunparsable := Script.localize_unparsable (s := setupStyle d scope) (d := d) hcontent
    rw [hlocalize, Extract.settles_bind]
    simp only [Extract.settles_pure]
    refine (Extract.settles_congr hinner).trans ⟨fun h => ⟨fun b' d' hb' => ?_, fun hparse => ?_⟩,
      fun h => ?_⟩
    · cases hb.symm.trans hb'
      exact hsettles.mp (h.imp (fun h => h.mono fun t ht => ht.1) id)
    · rcases h with ⟨t, -, -, h⟩ | h
      · exact h
      · exact absurd (hunparsable.mp h) (hparse b d hb)
    · by_cases hparse : Script.parse? d b.content = none
      · exact .inr (hunparsable.mpr hparse)
      · have htemplate := h.template fun b' d' hb' => by
          cases hb.symm.trans hb'
          exact hparse
        exact (hsettles.mpr (h.setup b d hb)).imp (fun h => h.mono fun t ht => ⟨ht, htemplate⟩) id

end Localize

end LocaleLift.Component
