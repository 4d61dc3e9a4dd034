import LocaleLift.Proofs.Markup.Words
import LocaleLift.Proofs.Script.Localized
import LocaleLift.Proofs.Text.Entry

/-! Templates that are localized: to localize them changes nothing and finds nothing. -/
namespace LocaleLift.Markup

open Extract (Finds RestsAt)

private theorem restsAt_localizeTokens (kind : TokenKind) (ts : List Token)
    {localize : Text → Extract Text} {p : Text → Prop} (h : ∀ t, RestsAt t (p t) (localize t)) :
    RestsAt (ts.flatMap Token.chunk) (∀ t ∈ ts, t.kind = kind → p t.chunk)
      (localizeTokens kind localize ts) := by
  induction ts with
  | nil => exact (Extract.restsAt_pure []).congr (iff_of_true trivial (List.forall_mem_nil _))
  | cons t ts ih =>
    rw [localizeTokens, List.flatMap_cons]
    split
    · rename_i hk
      refine ((h t.chunk).join ih).congr ?_
      rw [List.forall_mem_cons]
      exact and_congr_left fun _ => ⟨fun h _ => h, fun h => h hk⟩
    · rename_i hk
      refine ((Extract.restsAt_pure t.chunk).join ih).congr ?_
      rw [List.forall_mem_cons]
      exact and_congr_left fun _ => iff_of_true trivial fun h => absurd h hk

private theorem restsAt_localizeParts {α : Type} (ps : List (Part α))
    {localize : α → Extract Text} {c : α → Prop}
    (h : ∀ a raw, .found a raw ∈ ps → RestsAt raw (c a) (localize a)) :
    RestsAt (ps.flatMap Part.text) (∀ a ∈ ps.filterMap Part.found?, c a)
      (localizeParts localize ps) := by
  induction ps with
  | nil => exact (Extract.restsAt_pure []).congr (iff_of_true trivial (List.forall_mem_nil _))
  | cons p ps ih =>
    have hrest := ih fun a raw hp => h a raw (List.mem_cons_of_mem p hp)
    cases p with
    | plain d => exact hrest.map rfl
    | found a raw =>
      have hfound : (Part.found a raw :: ps).filterMap Part.found? =
          a :: ps.filterMap Part.found? := rfl
      rw [localizeParts, hfound, List.forall_mem_cons]
      exact (h a raw (List.mem_cons_self ..)).join hrest

/-- If the value of an attribute holds Chinese, it is an expression, and localized as such. -/
def Attribute.IsSettled [Script.Parser] (scope : Scope) (a : Attribute) : Prop :=
  Text.hasHan a.value = true →
    isDynamic a.name = true ∧ Script.Binding.IsLocalized scope a.innerQuote a.value

section Attributes

variable {scope : Scope}

private theorem restsAt_localizeAttribute [Script.Parser] (a : Attribute) :
    RestsAt a.text (a.IsSettled scope) (a.localize scope) := by
  rw [Attribute.localize]
  split
  · rename_i hhan
    refine (Extract.restsAt_pure a.text).congr (iff_of_true trivial fun h => ?_)
    exact absurd h (by simpa using hhan)
  · rename_i hhan
    have hhan : Text.hasHan a.value = true := by simpa using hhan
    split
    · rename_i hdynamic
      have hsettled : Script.Binding.IsLocalized scope a.innerQuote a.value ↔ a.IsSettled scope :=
        ⟨fun h _ => ⟨hdynamic, h⟩, fun h => (h hhan).2⟩
      refine RestsAt.congr ?_ hsettled
      cases hvalue : a.value.isEncodable with
      | false =>
        rw [Script.Binding.hasCall, if_neg (by simp [hvalue])]
        refine Extract.restsAt_fail (fun h => ?_) .notEncodable
        rw [h.encodable] at hvalue
        cases hvalue
      | true =>
        rw [hasCall_eq hvalue, pure_bind]
        split
        · rename_i hcall
          refine (Extract.restsAt_pure a.text).congr (iff_of_true trivial ⟨hvalue, ?_⟩)
          intro value hparse
          rw [hparse] at hcall
          exact .inl hcall
        · exact (Script.Binding.restsAt_localize scope a.innerQuote a.value).map rfl
    · rename_i hdynamic
      exact fun t => iff_of_false (fun h => by cases h.1) fun h => hdynamic (h.2 hhan).1

theorem restsAt_localizeTag [Script.Parser] (scope : Scope) (tag : Text) :
    RestsAt tag (opensElement tag = true →
      ∀ a ∈ Text.findAll Attribute.matchAttribute tag, a.IsSettled scope)
      (localizeTag scope tag) := by
  rw [localizeTag]
  split
  · rename_i hskip
    refine (Extract.restsAt_pure tag).congr (iff_of_true trivial fun hopens a ha hhan => ?_)
    have := hasHan_of_subset (mem_attributes ha) (hasHan_of_subset (value_subset a) hhan)
    simp_all [opensElement]
  · rename_i hskip
    have hopens : opensElement tag = true := by simp_all [opensElement]
    have hparts := restsAt_localizeParts (Text.parts Attribute.matchAttribute tag)
      (c := fun a => a.IsSettled scope) fun a raw hp => by
        obtain ⟨before, c, after, n, -, hm, rfl⟩ := Text.of_mem_parts hp
        rw [← (Attribute.text_of_matchAttribute hm).1]
        exact restsAt_localizeAttribute a
    rw [Text.flatten_parts] at hparts
    exact hparts.congr ⟨fun h _ => h, fun h => h hopens⟩

private theorem restsAt_attributePass [Script.Parser] (markup : Text) :
    RestsAt markup (∀ a ∈ attributes markup, a.IsSettled scope) (attributePass scope markup) := by
  have h := restsAt_localizeTokens .tag (tokens markup) (restsAt_localizeTag scope)
  rw [flatten_tokens] at h
  exact h.congr forall_mem_attributes.symm

end Attributes

/-- Chinese stands in the text of markup only inside interpolations. -/
def IsWordless (markup : Text) : Prop :=
  ∀ t ∈ tokens markup, t.kind = .text →
    ∀ c, .plain c ∈ Text.parts matchInterpolation t.chunk → c.isHan = false

section Words

variable {scope : Scope}

private theorem restsAt_wrapWords (words : Text) :
    RestsAt words (Text.hasHan words = false) (wrapWords scope words) := by
  refine ((Extract.restsAt_found _).bind fun h => ?_).congr
    ((and_iff_left trivial).trans Text.runs_eq_nil)
  dsimp only
  rw [Text.wrapRuns_pieces (Text.runs_eq_nil.mp h)]
  exact Extract.restsAt_pure words

private theorem restsAt_localizeBetween (scope : Scope) (words : Text) (ps : List (Part Text)) :
    RestsAt (words ++ ps.flatMap Part.text)
      (Text.hasHan words = false ∧ ∀ c, .plain c ∈ ps → c.isHan = false)
      (localizeBetween scope words ps) := by
  induction ps generalizing words with
  | nil =>
    rw [List.flatMap_nil, List.append_nil]
    exact (restsAt_wrapWords words).congr (and_iff_left nofun).symm
  | cons p ps ih =>
    cases p with
    | plain c =>
      have h := ih (words ++ [c])
      rw [List.append_assoc] at h
      refine h.congr ?_
      simp [Text.hasHan, and_assoc]
    | found a raw =>
      refine ((restsAt_wrapWords words).bind fun _ => (ih []).map ?_).congr ?_
      · rw [List.flatMap_cons, Part.text, List.nil_append, List.append_assoc]
      · simp [Text.hasHan]

private theorem restsAt_localizeWords (scope : Scope) (chunk : Text) :
    RestsAt chunk (∀ c, .plain c ∈ Text.parts matchInterpolation chunk → c.isHan = false)
      (localizeWords scope chunk) := by
  rw [localizeWords]
  split
  · rename_i hskip
    refine (Extract.restsAt_pure chunk).congr (iff_of_true trivial fun c hc => ?_)
    have hmem : c ∈ chunk := by
      rw [← Text.flatten_parts matchInterpolation chunk]
      exact List.mem_flatMap.mpr ⟨_, hc, List.mem_singleton.mpr rfl⟩
    rcases Bool.or_eq_true_iff.mp hskip with hblank | hhan
    · exact CodePoint.isHan_of_isSpace (List.all_eq_true.mp hblank c hmem)
    · have hnone : Text.hasHan chunk = false := by simpa using hhan
      simpa using List.any_eq_false.mp hnone c hmem
  · have h := restsAt_localizeBetween scope [] (Text.parts matchInterpolation chunk)
    rw [List.nil_append, Text.flatten_parts] at h
    exact h.congr (and_iff_right rfl)

theorem restsAt_textPass (markup : Text) :
    RestsAt markup (IsWordless markup) (textPass scope markup) := by
  have h := restsAt_localizeTokens .text (tokens markup) (restsAt_localizeWords scope)
  rwa [flatten_tokens] at h

private theorem restsAt_settle (n : Nat) (markup : Text) :
    RestsAt markup (IsWordless markup) (settle scope (n + 1) markup) := by
  refine ((restsAt_textPass markup).bind fun _ => ?_).congr (and_iff_left trivial)
  rw [if_pos rfl]
  exact Extract.restsAt_pure markup

end Words

/-- No literal of an interpolation is to be replaced. -/
def IsSettled (function inside : Text) : Prop :=
  EachLiteral (fun before body => ¬ IsReplaced function before body) []
    (Text.parts matchLiteral inside)

section Interpolations

variable {scope : Scope}

theorem restsAt_localizeLiterals (scope : Scope) (before : Text) (ps : List (Part Text)) :
    RestsAt (ps.flatMap Part.text)
      (EachLiteral (fun before body => ¬ IsReplaced scope.function before body) before ps)
      (localizeLiterals scope before ps) := by
  induction ps generalizing before with
  | nil => exact (Extract.restsAt_pure []).congr (iff_of_true trivial eachLiteral_nil)
  | cons p ps ih =>
    cases p with
    | plain c => exact ((ih (before ++ [c])).map rfl).congr eachLiteral_plain.symm
    | found body raw =>
      rw [localizeLiterals, List.flatMap_cons, Part.text]
      split
      · rename_i hreplaced
        have hcall : IsReplaced scope.function before body := by
          simpa [IsReplaced] using hreplaced
        refine fun t => iff_of_false (fun h => ?_) fun h => (eachLiteral_found.mp h.2).1 hcall
        obtain ⟨v, -, h⟩ := Extract.quiet_bind.mp h
        obtain ⟨_, h, -⟩ := Extract.quiet_bind.mp h
        cases h.1
      · rename_i hreplaced
        have hkeep : ¬ IsReplaced scope.function before body := by
          simpa [IsReplaced] using hreplaced
        refine ((Extract.restsAt_pure raw).join (ih (before ++ raw))).congr ?_
        rw [eachLiteral_found]
        exact and_congr_left fun _ => iff_of_true trivial hkeep

private theorem restsAt_interpolations (scope : Scope) (chunk : Text) :
    RestsAt chunk
      (∀ inside ∈ Text.findAll matchInterpolation chunk, IsSettled scope.function inside)
      (localizeParts (localizeInterpolation scope) (Text.parts matchInterpolation chunk)) := by
  have hinside (inside raw : Text)
      (hp : .found inside raw ∈ Text.parts matchInterpolation chunk) :
      RestsAt raw (IsSettled scope.function inside) (localizeInterpolation scope inside) := by
    obtain ⟨before, c, after, n, -, hm, rfl⟩ := Text.of_mem_parts hp
    have hliterals := restsAt_localizeLiterals scope [] (Text.parts matchLiteral inside)
    rw [Text.flatten_parts] at hliterals
    exact hliterals.map (raw_of_matchInterpolation hm).symm
  have h := restsAt_localizeParts (Text.parts matchInterpolation chunk) hinside
  rwa [Text.flatten_parts] at h

private theorem restsAt_localizeInterpolations (scope : Scope) (chunk : Text) :
    RestsAt chunk
      (∀ inside ∈ Text.findAll matchInterpolation chunk, IsSettled scope.function inside)
      (localizeInterpolations scope chunk) := by
  rw [localizeInterpolations]
  split
  · rename_i hhan
    exact (Extract.restsAt_pure chunk).congr (iff_of_true trivial fun inside hi =>
      not_isReplaced_of_not_hasHan (by simpa using hhan) hi)
  · exact restsAt_interpolations scope chunk

/-- The interpolations of a text without Chinese could be localized just as well. -/
theorem finds_localizeInterpolations {ts : List Text} {chunk out : Text}
    (h : Finds ts out
      (localizeParts (localizeInterpolation scope) (Text.parts matchInterpolation chunk))) :
    Finds ts out (localizeInterpolations scope chunk) := by
  rw [localizeInterpolations]
  split
  · rename_i hhan
    have hquiet := (restsAt_interpolations scope chunk chunk).mpr
      ⟨rfl, fun inside hi => not_isReplaced_of_not_hasHan (by simpa using hhan) hi⟩
    obtain ⟨rfl, hout⟩ := h
    obtain rfl := Except.ok.inj (hquiet.2.symm.trans hout)
    exact ⟨hquiet.1.symm, rfl⟩
  · exact h

private theorem restsAt_interpolationPass (markup : Text) :
    RestsAt markup (∀ inside ∈ interpolations markup, IsSettled scope.function inside)
      (interpolationPass scope markup) := by
  have h := restsAt_localizeTokens .text (tokens markup) (restsAt_localizeInterpolations scope)
  rw [flatten_tokens] at h
  exact h.congr forall_mem_interpolations.symm

/-- Nothing is left to do for the attributes of a template, its words and its interpolations. -/
structure IsLocalized [Script.Parser] (scope : Scope) (template : Text) : Prop where
  attributes : ∀ a ∈ attributes template, a.IsSettled scope
  wordless : IsWordless template
  interpolations : ∀ inside ∈ interpolations template, IsSettled scope.function inside

/-- Localizing a template leaves it as it is exactly if it is localized. -/
theorem restsAt_localize [Script.Parser] (scope : Scope) (template : Text) :
    RestsAt template (IsLocalized scope template) (localize scope template) := by
  refine ((restsAt_attributePass template).bind fun _ => (restsAt_textPass template).bind fun _ =>
    (restsAt_interpolationPass template).bind fun _ => restsAt_settle 4 template).congr ?_
  constructor
  · rintro ⟨hattributes, hwordless, hinterpolations, -⟩
    exact ⟨hattributes, hwordless, hinterpolations⟩
  · rintro ⟨hattributes, hwordless, hinterpolations⟩
    exact ⟨hattributes, hwordless, hinterpolations, hwordless⟩

end Interpolations

end LocaleLift.Markup
