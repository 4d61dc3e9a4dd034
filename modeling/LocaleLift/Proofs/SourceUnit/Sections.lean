import LocaleLift.Proofs.Component.Sections
import LocaleLift.Proofs.SourceUnit.Isolation

/-! Localizing a component keeps its sections of other names, as long as no block begins in them. -/
namespace LocaleLift.SourceUnit

open Component (IsCustomName Section render standard)

/-- A component files the same texts with and without its sections of other names, and fails alike
or comes to the same sections, each of which is changed at most in the content of a block. So no
section of another name is changed and nothing in it is filed, if no block begins in it. -/
theorem process_sections [Script.Parser] (r : Registry) (ns function : Text) {path : Text}
    {ss : List Section}
    (hpath : UnitKind.ofPath? (Path.ofText path) = some .component)
    (hss : ∀ s ∈ ss, s.IsWhole) :
    (process r ns function path (render ss)).registry =
        (process r ns function path (render (standard ss))).registry ∧
      ((∃ e, (process r ns function path (render ss)).result = .error e ∧
          (process r ns function path (render (standard ss))).result = .error e) ∨
        ∃ ss', List.Forall₂ Section.Refills ss ss' ∧
          (process r ns function path (render ss)).result = .ok (render ss') ∧
          (process r ns function path (render (standard ss))).result =
            .ok (render (standard ss'))) := by
  have hlocalize (text : Text) : localize ⟨ns, r.common, function⟩ path text =
      Component.localize ⟨ns, r.common, function⟩ text := by
    rw [localize, hpath]
  obtain ⟨htexts, hresult⟩ := Component.localize_sections ⟨ns, r.common, function⟩ hss
  rw [← hlocalize, ← hlocalize] at htexts hresult
  rw [← process_result, ← process_result] at hresult
  refine ⟨?_, hresult⟩
  rcases hresult with ⟨e, he, he'⟩ | ⟨ss', -, hok, hok'⟩
  · rw [process_error he, process_error he']
  · rw [process_ok hok, process_ok hok', htexts]

/-- Messages in front of a template. -/
theorem process_sections_messages :
    let start := Registry.empty (.ofList [] "common")
    let ss : List Section :=
      [.custom "i18n" " lang='json'" "中", .block "<template>" "文" "</template>"]
    let o := process start "test" "$t" "a.vue" (render ss)
    UnitKind.ofPath? (Path.ofText "a.vue") = some .component ∧ (∀ s ∈ ss, s.IsWhole) ∧
      o.registry = (process start "test" "$t" "a.vue" (render (standard ss))).registry ∧
      ∃ ss', List.Forall₂ Section.Refills ss ss' ∧ o.result = .ok (render ss') := by
  intro start ss o
  have hpath : UnitKind.ofPath? (Path.ofText "a.vue") = some .component := by decide
  have hname : IsCustomName "i18n" := by
    refine ⟨by decide, by decide, fun word hword h => ?_⟩
    have hlength : ∀ word ∈ (["template", "script", "style"] : List Text), word.length ≠ 4 := by
      decide
    exact hlength word hword (List.Forall₂.length_eq h)
  have hss : ∀ s ∈ ss, s.IsWhole := by
    refine List.forall_mem_cons.mpr ⟨?_, List.forall_mem_singleton.mpr ?_⟩
    · exact ⟨hname, by decide, .of_not_mem (by decide), .of_not_mem (by decide)⟩
    · exact Section.isWhole_template (by decide)
  have hout : o.result =
      .ok "<i18n lang='json'>中</i18n><template>\x7b\x7b $t('test.文') \x7d\x7d</template>" := by
    rw [process_result]
    refine .trans ?_ (congrArg _ (Text.ofString_ofList _).symm)
    decide +kernel
  obtain ⟨hregistry, ⟨e, he, -⟩ | ⟨ss', hrefills, hok, -⟩⟩ :=
    process_sections start "test" "$t" hpath hss
  · cases hout.symm.trans he
  · exact ⟨hpath, hss, hregistry, ss', hrefills, hok⟩

/-- A template that is written in a documentation is localized. -/
theorem process_localizes_custom :
    let start := Registry.empty (.ofList [] "common")
    let body : Text := "<template>中</template>"
    let body' : Text := "<template>\x7b\x7b $t('test.中') \x7d\x7d</template>"
    let o := process start "test" "$t" "a.vue" (render [.custom "docs" [] body])
    ¬ ("</docs" : Text) <:+: body ∧ body' ≠ body ∧
      o.result = .ok (render [.custom "docs" [] body']) ∧
      o.registry.toList = [(("test" : Text), ("中" : Text))] := by
  intro start body body' o
  refine ⟨by decide +kernel, by decide, ?_, ?_⟩
  · rw [process_result]
    have hbody : body' = _ := Text.ofString_ofList _
    rw [hbody]
    decide +kernel
  · decide +kernel

end LocaleLift.SourceUnit
