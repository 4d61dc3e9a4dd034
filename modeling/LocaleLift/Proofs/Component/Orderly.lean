import LocaleLift.Proofs.Component.Kept
import LocaleLift.Proofs.Component.Localized
import LocaleLift.Proofs.Markup.Orderly

/-! Components that are localized once and for all: in what they come to, nothing is left to do. -/
namespace LocaleLift.Component

/-- The set-up script of a component is localized already, and the template is orderly, as far as
they are looked at. -/
structure IsOrderly [Script.Parser] (scope : Scope) (text : Text) : Prop where
  setup : ∀ b d, setup? text = some (b, d) →
    Script.IsLocalized d (setupStyle d scope) b.content
  template : ∀ b, markup? text = some b → Markup.TemplateIsOrderly scope b.content

section Keeps

variable {scope : Scope} {text : Text} {b b' : Block}

private theorem isBlank_of_targets {t : Target} (h : t ∈ targets text) :
    Text.isBlank t.block.content = false := by
  rcases List.mem_append.mp h with h | h
  · obtain ⟨⟨b, d⟩, hb, rfl⟩ := Option.map_eq_some_iff.mp (Option.mem_toList.mp h)
    exact (setup?_eq_some.mp hb).2.2
  · obtain ⟨b, hb, rfl⟩ := Option.map_eq_some_iff.mp (Option.mem_toList.mp h)
    exact (markup?_eq_some.mp hb).2.2

/-- A blank block is not localized. -/
private theorem Keeps.isBlank [Script.Parser] (h : Keeps scope text b b')
    (hblank : Text.isBlank b'.content = false) : Text.isBlank b.content = false := by
  refine Bool.eq_false_iff.mpr fun hb => ?_
  rw [h.other fun t ht htb => ?_, hb] at hblank
  · cases hblank
  · have := isBlank_of_targets ht
    rw [htb, hb] at this
    cases this

private theorem Keeps.lang_eq [Script.Parser] (h : Keeps scope text b b') : b'.lang = b.lang := by
  rw [Block.lang, Block.lang, h.attributes]

private theorem Keeps.isSetup_eq [Script.Parser] (h : Keeps scope text b b') :
    b'.isSetup = b.isSetup := by
  rw [Block.isSetup, Block.isSetup, h.attributes]

end Keeps

variable {scope : Scope} {text : Text}

private theorem exists_localize (hbind : scope.CanBind) (htame : scope.IsTame) (h : IsOrderly scope text) :
    ∃ out, (localize scope text).result = .ok out := by
  have hreplace (t : Target) (ht : t ∈ targets text) :
      Extract.Meets (fun rs => ∀ r ∈ rs, True) (t.replace scope) := by
    obtain ⟨new, hnew⟩ : ∃ new, (t.localize scope).result = .ok new := by
      rcases List.mem_append.mp ht with ht | ht
      · obtain ⟨⟨b, d⟩, hb, rfl⟩ := Option.map_eq_some_iff.mp (Option.mem_toList.mp ht)
        exact ⟨b.content, ((Script.restsAt_localize d _ b.content b.content).mpr
          ⟨rfl, h.setup b d hb⟩).2⟩
      · obtain ⟨b, hb, rfl⟩ := Option.map_eq_some_iff.mp (Option.mem_toList.mp ht)
        obtain ⟨new, hnew, -⟩ := Markup.localize_orderly hbind htame (h.template b hb)
        exact ⟨new, hnew⟩
    exact Extract.meets_bind.mpr ⟨new, hnew, Extract.meets_pure.mpr fun _ _ => trivial⟩
  obtain ⟨rs, hrs, -⟩ := Extract.meets_gather.mpr hreplace
  exact ⟨_, (finds_localize.mpr ⟨rs, ⟨rfl, hrs⟩, rfl⟩).2⟩

/-- If the texts found in an orderly component hold no quote and no angle bracket, it comes to one
in which nothing is left to do. -/
theorem localize_orderly (hplain : scope.IsPlain) (hbind : scope.CanBind) (htame : scope.IsTame)
    (h : IsOrderly scope text) (hts : ∀ t ∈ (localize scope text).texts, t.IsPlain) :
    ∃ out, (localize scope text).result = .ok out ∧ IsLocalized scope out := by
  obtain ⟨out, hout⟩ := exists_localize hbind htame h
  obtain ⟨htemplate, hscripts, -⟩ := keepsLayout_localize hplain hout hts
  have hsetup := rel_find? (p := Block.isSetup) (fun _ _ hb => hb.isSetup_eq) hscripts
  have hkept {x : Option Block} {b' : Block}
      (hrel : Option.Rel (Keeps scope text) x (some b')) : ∃ b, x = some b ∧ Keeps scope text b b' := by
    cases hrel with
    | some hkeeps => exact ⟨_, rfl, hkeeps⟩
  refine ⟨out, hout, fun b' d hb' => ?_, fun b' hb' => ?_⟩
  · obtain ⟨hfind, hd, hblank⟩ := setup?_eq_some.mp hb'
    rw [Layout.scriptSetup] at hfind
    rw [hfind] at hsetup
    obtain ⟨b, hb, hkeeps⟩ := hkept hsetup
    have hsome : setup? text = some (b, d) :=
      setup?_eq_some.mpr ⟨hb, hkeeps.lang_eq ▸ hd, hkeeps.isBlank hblank⟩
    have hlocalized := h.setup b d hsome
    have hnew := hkeeps.target (.script b d)
      (List.mem_append_left _ (Option.mem_toList.mpr (by rw [hsome]; rfl))) rfl
    have hquiet := (Script.restsAt_localize d (setupStyle d scope) b.content b.content).mpr
      ⟨rfl, hlocalized⟩
    rwa [Except.ok.inj (hnew.symm.trans hquiet.2)]
  · obtain ⟨hfind, hmarkup, hblank⟩ := markup?_eq_some.mp hb'
    rw [hfind] at htemplate
    obtain ⟨b, hb, hkeeps⟩ := hkept htemplate
    have hsome : markup? text = some b := by
      refine markup?_eq_some.mpr ⟨hb, ?_, hkeeps.isBlank hblank⟩
      rwa [isMarkup, ← hkeeps.lang_eq, ← isMarkup]
    have hnew := hkeeps.target (.template b)
      (List.mem_append_right _ (Option.mem_toList.mpr (by rw [hsome]; rfl))) rfl
    obtain ⟨new, hresult, hlocalized⟩ :=
      Markup.localize_orderly hbind htame (h.template b hsome)
    rwa [Except.ok.inj (hnew.symm.trans hresult)]

end LocaleLift.Component
