import LocaleLift.Proofs.Component.Orderly
import LocaleLift.Proofs.SourceUnit.Isolation

/-! Localizing a source once more: what a first run came to stays as it is exactly if it is
localized, so that nothing is left to find in it. -/
namespace LocaleLift.SourceUnit

open Extract (RestsAt)

/-- A source is localized if nothing in it is left to do. -/
def IsLocalized [Script.Parser] (scope : Scope) (path text : Text) : Prop :=
  match UnitKind.ofPath? (Path.ofText path) with
  | some .component => Component.IsLocalized scope text
  | some (.script d) =>
    Script.IsLocalized d (Script.Style.ofDialect d scope "\x22" true true) text
  | none => False

theorem restsAt_localize [Script.Parser] (scope : Scope) (path text : Text) :
    RestsAt text (IsLocalized scope path text) (localize scope path text) := by
  rw [localize, IsLocalized]
  rcases UnitKind.ofPath? (Path.ofText path) with _ | _ | d
  · exact Extract.restsAt_fail id (.notScript path)
  · exact Component.restsAt_localize scope text
  · exact Script.restsAt_localize d _ text

/-- A registry stays empty exactly if nothing was found. -/
private theorem process_empty [Script.Parser] {c : CommonTerms} {ns function path text out : Text}
    (h : (process (.empty c) ns function path text).result = .ok out) :
    (process (.empty c) ns function path text).registry = .empty c ↔
      (localize ⟨ns, c, function⟩ path text).texts = [] := by
  rw [process_ok h]
  change (Registry.empty c).merge ((Registry.empty c).recordAll ns
    (localize ⟨ns, c, function⟩ path text).texts) = _ ↔ _
  cases (localize ⟨ns, c, function⟩ path text).texts with
  | nil => exact iff_of_true rfl rfl
  | cons t ts =>
    refine iff_of_false (fun hempty => ?_) nofun
    have hfiled : (c.resolve ns t, t) ∈ ((Registry.empty c).merge
        ((Registry.empty c).recordAll ns (t :: ts))).toList :=
      Registry.mem_toList_merge.mpr (.inr (Registry.mem_toList_recordAll.mpr
        (.inr ⟨List.mem_cons_self .., rfl⟩)))
    rw [hempty] at hfiled
    exact Registry.mem_toList_empty.mp hfiled

/-- A source stays as it is, and nothing is filed, exactly if it is localized. -/
private theorem process_stays [Script.Parser] {c : CommonTerms} {ns function path text : Text} :
    (process (.empty c) ns function path text).result = .ok text ∧
      (process (.empty c) ns function path text).registry = .empty c ↔
    IsLocalized ⟨ns, c, function⟩ path text := by
  have hrests := restsAt_localize ⟨ns, c, function⟩ path text text
  rw [and_iff_right rfl] at hrests
  have hsame : (process (.empty c) ns function path text).result =
      (localize ⟨ns, c, function⟩ path text).result :=
    process_result (.empty c) ns function path text
  rw [← hrests, Extract.Quiet, ← hsame]
  constructor
  · rintro ⟨hresult, hregistry⟩
    exact ⟨(process_empty hresult).mp hregistry, hresult⟩
  · rintro ⟨htexts, hresult⟩
    exact ⟨hresult, (process_empty hresult).mpr htexts⟩

/-- To localize a source once more changes nothing and files nothing exactly if what it came to is
localized: a script is then a sentence of its dialect in which every string can be cooked, and what
Chinese is left stands in strings that are fixed and in tagged templates; in a template Chinese is
left only in expressions that hold a call or nothing to replace, and in interpolations, where every
literal with Chinese stands in a call. -/
theorem process_again [Script.Parser] (r : Registry) (ns function path text : Text) :
    (∀ out, (process r ns function path text).result = .ok out →
      (process (.empty r.common) ns function path out).result = .ok out ∧
        (process (.empty r.common) ns function path out).registry = .empty r.common) ↔
    ∀ out, (process r ns function path text).result = .ok out →
      IsLocalized ⟨ns, r.common, function⟩ path out :=
  forall₂_congr fun _ _ => process_stays

/-- An escaped bracket comes out as itself, and ends the template when it is read once more. -/
theorem process_again_changes :
    let start := Registry.empty (.ofList [] "common")
    let text : Text := "<template>\x7b\x7b '中\\x3c/template>' \x7d\x7d</template>"
    let out : Text := "<template>\x7b\x7b $t('test.中</template>') \x7d\x7d</template>"
    let again : Text :=
      "<template>\x7b\x7b $t('test.\x7b\x7b $t('test.中') \x7d\x7d</template>') \x7d\x7d</template>"
    (process start "test" "$t" "a.vue" text).result = .ok out ∧
      (process (.empty start.common) "test" "$t" "a.vue" out).result = .ok again ∧
      again ≠ out := by
  intro start text out again
  have htext : text = _ := Text.ofString_ofList _
  have hout : out = _ := Text.ofString_ofList _
  have hagain : again = _ := Text.ofString_ofList _
  refine ⟨?_, ?_, ?_⟩
  · rw [process_result, htext, hout]
    decide +kernel
  · rw [process_result, hout, hagain]
    decide +kernel
  · rw [hout, hagain]
    decide +kernel

/-- What makes sure that a component is localized once and for all: a set-up script that is localized
already, a template that is written as it should be, and names and texts found that look neither like
the end of a string nor like that of a tag. -/
structure IsOrderly [Script.Parser] (scope : Scope) (path text : Text) : Prop where
  component : UnitKind.ofPath? (Path.ofText path) = some .component
  plain : scope.IsPlain
  canBind : scope.CanBind
  tame : scope.IsTame
  source : Component.IsOrderly scope text
  texts : ∀ t ∈ (localize scope path text).texts, t.IsPlain

theorem process_settles (r : Registry) {ns function path text : Text}
    (h : IsOrderly ⟨ns, r.common, function⟩ path text) :
    ∃ out, (process r ns function path text).result = .ok out ∧
      (process (.empty r.common) ns function path out).result = .ok out ∧
      (process (.empty r.common) ns function path out).registry = .empty r.common := by
  have htexts := h.texts
  rw [localize, h.component] at htexts
  obtain ⟨out, hout, hlocalized⟩ :=
    Component.localize_orderly h.plain h.canBind h.tame h.source htexts
  refine ⟨out, ?_, process_stays.mpr ?_⟩
  · rwa [process_result, localize, h.component]
  · rwa [IsLocalized, h.component]

/-- An attribute, words and a literal of a template. -/
theorem process_settles_template :
    let start := Registry.empty (.ofList [] "common")
    let scope : Scope := ⟨"test", start.common, "$t"⟩
    let template : Text := "<p title='中'>文\x7b\x7b a + '字' \x7d\x7d</p>"
    let text : Text := "<template>" ++ template ++ "</template>"
    let out : Text := "<template><p :title='$t(\x22test.中\x22)'>" ++
      "\x7b\x7b $t('test.文') \x7d\x7d\x7b\x7b a + $t('test.字') \x7d\x7d</p></template>"
    IsOrderly scope "a.vue" text ∧
      (process start "test" "$t" "a.vue" text).result = .ok out ∧
      (process start "test" "$t" "a.vue" out).result = .ok out ∧
      (process start "test" "$t" "a.vue" out).registry = start := by
  intro start scope template text out
  have hpath : UnitKind.ofPath? (Path.ofText "a.vue") = some .component := by decide
  have hplain : scope.IsPlain := ⟨by decide, by decide, by decide, _, _, rfl, by decide⟩
  have hbind : scope.CanBind :=
    ⟨by decide, by decide, ⟨.scalar '$', "t", rfl, by decide, by decide⟩, by decide⟩
  have htame : scope.IsTame := ⟨by decide, by decide, by decide⟩
  have hspelt : template = _ := Text.ofString_ofList _
  have htext : text = "<template>" ++ _ ++ "</template>" :=
    congrArg (fun t => ("<template>" : Text) ++ t ++ "</template>") hspelt
  have h : Component.IsOrderly scope text := by
    have hsetup : Component.setup? text = none := by
      rw [htext]
      decide +kernel
    have hmarkup : (Component.markup? text).map (·.content) = some template := by
      rw [htext, hspelt]
      decide +kernel
    refine ⟨by rw [hsetup]; exact nofun, fun b hb => ?_⟩
    have hcontent : b.content = template := by
      rw [hb] at hmarkup
      exact Option.some.inj hmarkup
    rw [hcontent]
    exact Markup.templateIsOrderly_mixed
  have hts : ∀ t ∈ (localize scope "a.vue" text).texts, t.IsPlain := by
    rw [htext]
    decide +kernel
  have hout : (process start "test" "$t" "a.vue" text).result = .ok out := by
    rw [process_result, htext]
    decide +kernel
  have hall : IsOrderly scope "a.vue" text := ⟨hpath, hplain, hbind, htame, h, hts⟩
  obtain ⟨out', hout', hagain⟩ := process_settles start hall
  obtain rfl := Except.ok.inj (hout'.symm.trans hout)
  exact ⟨hall, hout, hagain⟩

end LocaleLift.SourceUnit
