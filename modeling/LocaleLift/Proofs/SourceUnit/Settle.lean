import LocaleLift.Proofs.Component.Settle
import LocaleLift.Proofs.SourceUnit.Isolation

/-! Sources that come to a text which can be written, or are refused as no sentence of their
dialect: exactly those without an escape that spoils a literal. -/
namespace LocaleLift.SourceUnit

open Extract (Settles)

/-- A source is harmless if no literal of it holds an escape that spoils it. -/
def IsHarmless [Script.Parser] (scope : Scope) (path text : Text) : Prop :=
  match UnitKind.ofPath? (Path.ofText path) with
  | some .component => Component.IsHarmless scope text
  | some (.script d) =>
    Script.IsHarmless d (Script.Style.ofDialect d scope "\x22" true true) text
  | none => False

private theorem settles_localize [Script.Parser] [Script.Parser.IsSound] {scope : Scope}
    {path text : Text} (hscope : scope.IsEncodable)
    (htext : text.isEncodable = true) :
    Settles (fun t => t.isEncodable = true) (localize scope path text) ↔
      IsHarmless scope path text := by
  rw [localize, IsHarmless]
  rcases UnitKind.ofPath? (Path.ofText path) with _ | _ | d
  · refine iff_of_false ?_ id
    rintro (⟨t, h, -⟩ | ⟨d, h⟩) <;> cases h
  · exact Component.settles_localize htext hscope
  · exact Script.settles_localize (s := Script.Style.ofDialect d scope "\x22" true true)
      htext hscope rfl

/-- Where all names and the source can be encoded, localizing the source comes to a text that can
be encoded too, or the source is refused as no sentence of its dialect, exactly if it is harmless:
no number of an escape in a string, or in a literal to be replaced, is out of all range, and no
literal to be replaced comes to a surrogate. -/
theorem settles_process [Script.Parser] [Script.Parser.IsSound] {r : Registry}
    {ns function path text : Text}
    (hns : ns.isEncodable = true) (hcommon : r.common.ns.isEncodable = true)
    (hfunction : function.isEncodable = true) (htext : text.isEncodable = true) :
    ((∃ t, (process r ns function path text).result = .ok t ∧ t.isEncodable = true) ∨
      ∃ d, (process r ns function path text).result = .error (.unparsable d)) ↔
      IsHarmless ⟨ns, r.common, function⟩ path text := by
  rw [process_result]
  exact settles_localize ⟨hns, hcommon, hfunction⟩ htext

/-- A source that is harmless, as nothing replaces the literal with a surrogate. -/
theorem settles_process_surrogate :
    let start := Registry.empty (.ofList [] "common")
    let text : Text := "x = $t('\\ud800中')"
    text.isEncodable = true ∧
      (((∃ t, (process start "test" "$t" "a.ts" text).result = .ok t ∧ t.isEncodable = true) ∨
        ∃ d, (process start "test" "$t" "a.ts" text).result = .error (.unparsable d)) ↔
        IsHarmless ⟨"test", start.common, "$t"⟩ "a.ts" text) := by
  intro start text
  have htext : text.isEncodable = true := Text.isEncodable_ofString _
  exact ⟨htext, settles_process (by decide) (by decide) (by decide) htext⟩

/-- A literal with an escape out of all range stops the source with a failure of its own. -/
theorem not_settles_process_overflow :
    let start := Registry.empty (.ofList [] "common")
    let text : Text := "<template>\x7b\x7b '\\u\x7b80000000\x7d中' \x7d\x7d</template>"
    text.isEncodable = true ∧
      ¬ ((∃ t, (process start "test" "$t" "a.vue" text).result = .ok t ∧ t.isEncodable = true) ∨
        ∃ d, (process start "test" "$t" "a.vue" text).result = .error (.unparsable d)) := by
  intro start text
  have htext : text = _ := Text.ofString_ofList _
  have hresult : (process start "test" "$t" "a.vue" text).result = .error .escapeTooLarge := by
    rw [process_result, htext]
    decide +kernel
  refine ⟨Text.isEncodable_ofString _, ?_⟩
  rw [hresult]
  rintro (⟨t, h, -⟩ | ⟨d, h⟩) <;> cases h

end LocaleLift.SourceUnit
