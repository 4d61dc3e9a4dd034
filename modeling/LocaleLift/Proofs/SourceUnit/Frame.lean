import LocaleLift.Proofs.Component.Kept
import LocaleLift.Proofs.SourceUnit.Isolation

/-! Localizing a component touches its template and its set-up script only, and keeps its blocks as
long as the texts found hold nothing that could be read as a tag. -/
namespace LocaleLift.SourceUnit

open Component (KeepsLayout Target layout targets)

/-- Whatever has been filed before, a component comes to a text exactly if each block of it that is
localized does on its own. The text is then the component with the contents of these blocks swapped,
each at its place, for what they come to; every other code point is kept, in its order. -/
theorem process_frame [Script.Parser] {r : Registry} {ns function path text out : Text}
    (hpath : UnitKind.ofPath? (Path.ofText path) = some .component) :
    (process r ns function path text).result = .ok out ↔
      ∃ draft : Draft, draft.old = text ∧ draft.new = out ∧ ∃ ss, ss.Perm draft.swaps ∧
        List.Forall₂ (Target.SwappedBy ⟨ns, r.common, function⟩) (targets text) ss := by
  rw [process_result, localize, hpath]
  exact Component.localize_eq_ok

/-- The template is swapped, and what stands before it is kept. -/
theorem process_frame_template :
    UnitKind.ofPath? (Path.ofText "a.vue") = some .component ∧
      ∃ draft : Draft, draft.old = "中<template>文</template>" ∧
        draft.new = "中<template>\x7b\x7b $t('test.文') \x7d\x7d</template>" ∧
        ∃ ss, ss.Perm draft.swaps ∧
          List.Forall₂ (Target.SwappedBy ⟨"test", .ofList [] "common", "$t"⟩)
            (targets "中<template>文</template>") ss := by
  have hpath : UnitKind.ofPath? (Path.ofText "a.vue") = some .component := by decide
  have hresult : (process (.empty (.ofList [] "common")) "test" "$t" "a.vue"
      "中<template>文</template>").result =
      .ok "中<template>\x7b\x7b $t('test.文') \x7d\x7d</template>" := by
    rw [process_result]
    refine .trans ?_ (congrArg _ (Text.ofString_ofList _).symm)
    decide +kernel
  exact ⟨hpath, (process_frame hpath).mp hresult⟩

/-- A component keeps its blocks when it is localized, if the texts found in it and the names in
calls hold no quote and no angle bracket. -/
theorem process_keeps_blocks [Script.Parser] [Script.Parser.IsSound] {r : Registry}
    {ns function path text out : Text}
    (hpath : UnitKind.ofPath? (Path.ofText path) = some .component)
    (hscope : Scope.IsPlain ⟨ns, r.common, function⟩)
    (hout : (process r ns function path text).result = .ok out)
    (hts : ∀ t ∈ (localize ⟨ns, r.common, function⟩ path text).texts, t.IsPlain) :
    KeepsLayout ⟨ns, r.common, function⟩ text (layout text) (layout out) := by
  rw [process_result, localize, hpath] at hout
  rw [localize, hpath] at hts
  exact Component.keepsLayout_localize hscope hout hts

/-- Only the template is localized, and the script in front of it is kept. -/
theorem process_keeps_blocks_script :
    let start := Registry.empty (.ofList [] "common")
    let scope : Scope := ⟨"test", start.common, "$t"⟩
    let text : Text := "<script>'中'</script><template>文</template>"
    let out : Text :=
      "<script>'中'</script><template>\x7b\x7b $t('test.文') \x7d\x7d</template>"
    UnitKind.ofPath? (Path.ofText "a.vue") = some .component ∧ scope.IsPlain ∧
      (process start "test" "$t" "a.vue" text).result = .ok out ∧
      (∀ t ∈ (localize scope "a.vue" text).texts, t.IsPlain) ∧
      KeepsLayout scope text (layout text) (layout out) := by
  intro start scope text out
  have hpath : UnitKind.ofPath? (Path.ofText "a.vue") = some .component := by decide
  have hscope : scope.IsPlain := ⟨by decide, by decide, by decide, _, _, rfl, by decide⟩
  have htext : text = _ := Text.ofString_ofList _
  have hnew : out = _ := Text.ofString_ofList _
  have hout : (process start "test" "$t" "a.vue" text).result = .ok out := by
    rw [process_result, htext, hnew]
    decide +kernel
  have hts : ∀ t ∈ (localize scope "a.vue" text).texts, t.IsPlain := by
    rw [htext]
    decide +kernel
  exact ⟨hpath, hscope, hout, hts, process_keeps_blocks hpath hscope hout hts⟩

/-- What a script is swapped for may itself look like the tag that closes it. -/
theorem process_ends_script :
    let start := Registry.empty (.ofList [] "common")
    let text : Text := "<script setup>'\\x3c/script>中'</script>"
    let out : Text := "<script setup>$t(\x22test.</script>中\x22)</script>"
    (process start "test" "$t" "a.vue" text).result = .ok out ∧
      (layout text).scripts.map (·.content) = [("'\\x3c/script>中'" : Text)] ∧
      (layout out).scripts.map (·.content) = [("$t(\x22test." : Text)] := by
  intro start text out
  have htext : text = _ := Text.ofString_ofList _
  have hout : out = _ := Text.ofString_ofList _
  refine ⟨?_, ?_, ?_⟩
  · rw [process_result, htext, hout]
    decide +kernel
  · rw [htext]
    decide +kernel
  · rw [hout]
    decide +kernel

/-- A quote in a text may end a value, and so hide the end of a tag, without any bracket. -/
theorem process_ends_template :
    let start := Registry.empty (.ofList [] "common")
    let tag : Text := "<template :a='f(\x22\\x27中\x22)'>"
    let tag' : Text := "<template :a='f($t(\x22test.'中\x22))'>"
    let text : Text := "<template>" ++ tag ++ "x</template>y</template>"
    let out : Text := "<template>" ++ tag' ++ "x</template>y</template>"
    (process start "test" "$t" "a.vue" text).result = .ok out ∧
      (layout text).template.map (·.content) = some (tag ++ "x</template>y") ∧
      (layout out).template.map (·.content) = some (tag' ++ "x") := by
  intro start tag tag' text out
  have htag : tag = _ := Text.ofString_ofList _
  have htag' : tag' = _ := Text.ofString_ofList _
  unfold text out
  rw [process_result, htag, htag']
  refine ⟨?_, ?_, ?_⟩
  · decide +kernel
  · decide +kernel
  · decide +kernel

end LocaleLift.SourceUnit
