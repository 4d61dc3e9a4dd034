import LocaleLift.Proofs.Component.Frame
import LocaleLift.Proofs.Markup.Entries
import LocaleLift.Proofs.SourceUnit.Isolation

/-! What a source files: Chinese without white space around it, under the namespace of the source or
the one of the common terms. -/
namespace LocaleLift

open Extract (FindsOnly)
open Text (IsEntry)

namespace Component

private theorem findsOnly_localizeSetup [Script.Parser] (scope : Scope) (text : Text) :
    FindsOnly IsEntry (localizeSetup scope (layout text)) := by
  rcases localizeSetup_cases scope text with ⟨-, htexts, -⟩ | ⟨b, d, -, hlocalize⟩
  · rw [FindsOnly, htexts]
    exact List.forall_mem_nil _
  · rw [hlocalize]
    exact FindsOnly.map (Script.findsOnly_localize d (setupStyle d scope) b.content) _

private theorem findsOnly_localizeTemplate [Script.Parser] (scope : Scope) (text : Text) :
    FindsOnly IsEntry (localizeTemplate scope (layout text)) := by
  rcases localizeTemplate_cases scope text with ⟨-, htexts, -⟩ | ⟨b, -, hlocalize⟩
  · rw [FindsOnly, htexts]
    exact List.forall_mem_nil _
  · rw [hlocalize]
    exact FindsOnly.map (Markup.findsOnly_localize scope b.content) _

theorem findsOnly_localize [Script.Parser] (scope : Scope) (text : Text) :
    FindsOnly IsEntry (localize scope text) := by
  rw [localize]
  refine .bind ?_ fun _ _ => (findsOnly_localizeSetup scope text).bind fun _ _ =>
    (findsOnly_localizeTemplate scope text).map _
  rw [FindsOnly, (quiet_extraTemplates _).1]
  exact List.forall_mem_nil _

end Component

namespace SourceUnit

theorem findsOnly_localize [Script.Parser] (scope : Scope) (path text : Text) :
    FindsOnly IsEntry (localize scope path text) := by
  rw [localize]
  split
  · exact Component.findsOnly_localize scope text
  · exact Script.findsOnly_localize _ _ text
  · exact Extract.findsOnly_fail (.notScript path)

/-- Whatever a source adds to a registry holds Chinese and has no white space around it. Common
terms are filed in their own namespace, all else in that of the source. -/
theorem process_entries [Script.Parser] {r : Registry} {ns function path text : Text}
    {p : Text × Text}
    (hfiled : p ∈ (process r ns function path text).registry.toList) (hnew : p ∉ r.toList) :
    Text.hasHan p.2 = true ∧ Text.trim p.2 = p.2 ∧
      p.1 = if p.2 ∈ r.common.terms then r.common.ns else ns := by
  cases h : (process r ns function path text).result with
  | error e =>
    rw [process_error h] at hfiled
    exact absurd hfiled hnew
  | ok out =>
    rw [process_ok h] at hfiled
    have hrecorded := (Registry.mem_toList_merge.mp hfiled).resolve_left hnew
    obtain ⟨hfound, hns⟩ :=
      (Registry.mem_toList_recordAll.mp hrecorded).resolve_left Registry.mem_toList_empty.mp
    obtain ⟨hhan, htrim⟩ := findsOnly_localize _ path text _ hfound
    refine ⟨hhan, htrim, ?_⟩
    rw [hns, CommonTerms.resolve, CommonTerms.isCommon, htrim, List.contains_eq_mem]
    exact if_congr decide_eq_true_iff rfl rfl

/-- A common term and another text, each filed without the space around it. -/
theorem process_entries_common :
    let start := Registry.empty (.ofList ["确定 "] "common")
    let text : Text := "<template>\x7b\x7b ' 确定\\n' \x7d\x7d<p title=' 中'></template>"
    let registry := (process start "test" "$t" "a.vue" text).registry
    let p : Text × Text := ("common", "确定")
    let q : Text × Text := ("test", "中")
    registry.toList = [q, p] ∧ p ∈ registry.toList ∧ p ∉ start.toList ∧
      Text.hasHan p.2 = true ∧ Text.trim p.2 = p.2 ∧
        p.1 = if p.2 ∈ start.common.terms then start.common.ns else "test" := by
  intro start text registry p q
  have htext : text = _ := Text.ofString_ofList _
  have hall : registry.toList = [q, p] := by
    unfold registry
    rw [htext]
    decide +kernel
  have hfiled : p ∈ registry.toList := by
    rw [hall]
    exact List.mem_cons_of_mem _ (List.mem_cons_self ..)
  have hnew : p ∉ start.toList := Registry.mem_toList_empty.mp
  exact ⟨hall, hfiled, hnew, process_entries hfiled hnew⟩

end SourceUnit
end LocaleLift
