import LocaleLift.Markup.Words
import LocaleLift.Proofs.Script.Settle

/-! When the attributes of a template come to a text that can be encoded: exactly if their bindings
hold no harmful escape. -/
namespace LocaleLift.Markup

open Extract (Meets Upholds)

theorem meets_join {x y : Extract Text} :
    Meets (fun t => t.isEncodable = true) (do return (← x) ++ (← y)) ↔
      Meets (fun t => t.isEncodable = true) x ∧ Meets (fun t => t.isEncodable = true) y := by
  simp only [Extract.meets_bind, Extract.meets_pure, Text.isEncodable_append, Bool.and_eq_true]
  constructor
  · rintro ⟨s, hs, t, ht, he, hf⟩
    exact ⟨⟨s, hs, he⟩, ⟨t, ht, hf⟩⟩
  · rintro ⟨⟨s, hs, he⟩, ⟨t, ht, hf⟩⟩
    exact ⟨s, hs, t, ht, he, hf⟩

theorem meets_localizeTokens {kind : TokenKind} {localize : Text → Extract Text}
    {ts : List Token} (hts : ∀ t ∈ ts, t.chunk.isEncodable = true) :
    Meets (fun t => t.isEncodable = true) (localizeTokens kind localize ts) ↔
      ∀ t ∈ ts, t.kind = kind → Meets (fun t => t.isEncodable = true) (localize t.chunk) := by
  induction ts with
  | nil => exact iff_of_true ⟨[], rfl, rfl⟩ (List.forall_mem_nil _)
  | cons t ts ih =>
    obtain ⟨ht, hts⟩ := List.forall_mem_cons.mp hts
    rw [List.forall_mem_cons, ← ih hts, localizeTokens]
    split
    · rename_i hk
      exact meets_join.trans (and_congr_left fun _ => ⟨fun h _ => h, fun h => h hk⟩)
    · rename_i hk
      exact meets_join.trans (and_congr_left fun _ =>
        iff_of_true (Extract.meets_pure.mpr ht) fun h => absurd h hk)

theorem meets_localizeParts {α : Type} {localize : α → Extract Text} {ps : List (Part α)}
    (hps : ∀ p ∈ ps, p.text.isEncodable = true) :
    Meets (fun t => t.isEncodable = true) (localizeParts localize ps) ↔
      ∀ a ∈ ps.filterMap Part.found?, Meets (fun t => t.isEncodable = true) (localize a) := by
  induction ps with
  | nil => exact iff_of_true ⟨[], rfl, rfl⟩ (List.forall_mem_nil _)
  | cons p ps ih =>
    obtain ⟨hp, hrest⟩ := List.forall_mem_cons.mp hps
    cases p with
    | plain c =>
      have hjoin := meets_join (x := pure [c]) (y := localizeParts localize ps)
      rw [pure_bind] at hjoin
      rw [localizeParts]
      exact hjoin.trans ((and_iff_right ⟨[c], rfl, hp⟩).trans (ih hrest))
    | found a text =>
      have hfound : (Part.found a text :: ps).filterMap Part.found? =
          a :: ps.filterMap Part.found? := rfl
      rw [localizeParts, hfound, List.forall_mem_cons, ← ih hrest]
      exact meets_join

section Upholds

variable {p : Text → Prop} (hnil : p []) (happend : ∀ s t, p s → p t → p (s ++ t))

include happend in
theorem upholds_join {x y : Extract Text} (hx : Upholds p x) (hy : Upholds p y) :
    Upholds p (do return (← x) ++ (← y)) :=
  hx.bind fun s hs => hy.bind fun t ht => Extract.upholds_pure (happend s t hs ht)

include hnil happend in
theorem upholds_localizeTokens {kind : TokenKind} {localize : Text → Extract Text}
    {ts : List Token} (hts : ∀ t ∈ ts, p t.chunk)
    (h : ∀ t ∈ ts, Upholds p (localize t.chunk)) : Upholds p (localizeTokens kind localize ts) := by
  induction ts with
  | nil => exact Extract.upholds_pure hnil
  | cons t ts ih =>
    obtain ⟨ht, hts⟩ := List.forall_mem_cons.mp hts
    obtain ⟨hl, hls⟩ := List.forall_mem_cons.mp h
    rw [localizeTokens]
    split
    · exact upholds_join happend hl (ih hts hls)
    · exact upholds_join happend (Extract.upholds_pure ht) (ih hts hls)

include hnil happend in
theorem upholds_localizeParts {α : Type} {localize : α → Extract Text} {ps : List (Part α)}
    (hps : ∀ q ∈ ps, p q.text) (h : ∀ a ∈ ps.filterMap Part.found?, Upholds p (localize a)) :
    Upholds p (localizeParts localize ps) := by
  induction ps with
  | nil => exact Extract.upholds_pure hnil
  | cons q ps ih =>
    obtain ⟨hq, hrest⟩ := List.forall_mem_cons.mp hps
    cases q with
    | plain c =>
      exact upholds_join happend (x := pure [c]) (Extract.upholds_pure hq) (ih hrest h)
    | found a text =>
      obtain ⟨ha, has⟩ := List.forall_mem_cons.mp h
      exact upholds_join happend ha (ih hrest has)

end Upholds

theorem isEncodable_join (s t : Text) (hs : s.isEncodable = true) (ht : t.isEncodable = true) :
    (s ++ t).isEncodable = true := by
  rw [Text.isEncodable_append, hs, ht]
  rfl

theorem isEncodable_chunk {markup : Text} (h : markup.isEncodable = true) :
    ∀ t ∈ tokens markup, t.chunk.isEncodable = true := by
  rwa [← Text.isEncodable_flatMap, flatten_tokens]

theorem isEncodable_part {α : Type} {m : Matcher α} {t : Text}
    (h : t.isEncodable = true) : ∀ p ∈ Text.parts m t, p.text.isEncodable = true := by
  rwa [← Text.isEncodable_flatMap, Text.flatten_parts]

/-- Whether the attributes of a tag are looked at: it is no closing tag and no declaration. -/
def opensElement (tag : Text) : Bool :=
  !Text.startsWith "</" tag && !Text.startsWith "<!" tag

def attributes (markup : Text) : List Attribute :=
  (tokens markup).flatMap fun t =>
    if t.kind = .tag ∧ opensElement t.chunk = true then
      Text.findAll Attribute.matchAttribute t.chunk
    else []

theorem forall_mem_attributes {p : Attribute → Prop} {markup : Text} :
    (∀ a ∈ attributes markup, p a) ↔ ∀ t ∈ tokens markup, t.kind = .tag →
      opensElement t.chunk = true → ∀ a ∈ Text.findAll Attribute.matchAttribute t.chunk, p a := by
  rw [attributes, List.forall_mem_flatMap]
  refine forall₂_congr fun t _ => ?_
  split
  · rename_i hk
    exact ⟨fun h _ _ => h, fun h => h hk.1 hk.2⟩
  · rename_i hk
    exact iff_of_true (List.forall_mem_nil _) fun htag hopens => absurd ⟨htag, hopens⟩ hk

/-- If the value of an attribute holds Chinese and is an expression, it is harmless as such. -/
def Attribute.IsHarmless [Script.Parser] (scope : Scope) (a : Attribute) : Prop :=
  Text.hasHan a.value = true → isDynamic a.name = true →
    Script.Binding.IsHarmless scope a.innerQuote a.value

theorem Attribute.isEncodable_text (a : Attribute) : a.text.isEncodable =
    (a.space.isScalar && a.name.isEncodable && a.equals.isEncodable && a.quote.isScalar &&
      a.value.isEncodable) := by
  simp only [text, Text.isEncodable_append, Text.isEncodable_cons, Text.isEncodable_nil]
  grind

private theorem isEncodable_innerQuote (a : Attribute) : a.innerQuote.isEncodable = true := by
  rw [Attribute.innerQuote]
  split <;> rfl

section Attributes

variable {scope : Scope} (hscope : scope.IsEncodable)

theorem value_subset (a : Attribute) : a.value ⊆ a.text := by
  intro c hc
  simp [Attribute.text, hc]

theorem hasCall_eq [Script.Parser] {function value : Text} (h : value.isEncodable = true) :
    Extract.lift (Script.Binding.hasCall function value) =
      pure ((Script.Binding.parse? value).any
        (Script.hasLookupCall (Script.Binding.enclose value) function)) := by
  rw [Script.Binding.hasCall, if_pos h]
  rfl

private theorem isEncodable_withValue {a : Attribute} (ha : a.text.isEncodable = true)
    (value : Text) :
    (Attribute.text { a with value }).isEncodable = value.isEncodable := by
  rw [Attribute.isEncodable_text] at *
  simp only [Bool.and_eq_true] at ha
  simp [ha]

include hscope in
private theorem isEncodable_withCall {a : Attribute} (ha : a.text.isEncodable = true) :
    (Attribute.text
      { a with name := .scalar ':' :: a.name, equals := "=",
               value := scope.call a.innerQuote (Text.trim a.value) }).isEncodable = true := by
  rw [Attribute.isEncodable_text] at *
  simp only [Bool.and_eq_true] at ha
  simp [ha, hscope.call (isEncodable_innerQuote a), Text.isEncodable_ofString]

include hscope in
/-- An attribute comes to a text that can be encoded exactly if it is harmless. -/
theorem Attribute.meets_localize [Script.Parser] [Script.Parser.IsSound] {a : Attribute}
    (ha : a.text.isEncodable = true) :
    Meets (fun t => t.isEncodable = true) (a.localize scope) ↔ a.IsHarmless scope := by
  have hvalue := Text.isEncodable_of_subset (value_subset a) ha
  have hinner := isEncodable_innerQuote a
  rw [localize, IsHarmless]
  split
  · rename_i hhan
    exact iff_of_true ⟨a.text, rfl, ha⟩ fun h => absurd h (by simpa using hhan)
  · rename_i hhan
    have hhan : Text.hasHan a.value = true := by simpa using hhan
    split
    · rename_i hdynamic
      rw [hasCall_eq hvalue, pure_bind]
      split
      · rename_i hcall
        refine iff_of_true ⟨a.text, rfl, ha⟩ fun _ _ value hparse hno => ?_
        rw [hparse, Option.any_some, hno] at hcall
        cases hcall
      · have hvalue := Script.Binding.meets_localize hvalue hscope hinner
        simp only [Extract.meets_bind, Extract.meets_pure, isEncodable_withValue ha]
        exact hvalue.trans ⟨fun h _ _ => h, fun h => h hhan hdynamic⟩
    · rename_i hdynamic
      exact iff_of_true ⟨_, rfl, isEncodable_withCall hscope ha⟩ fun _ h => absurd h hdynamic

include hscope in
private theorem upholds_localizeAttribute [Script.Parser] [Script.Parser.IsSound] {a : Attribute}
    (ha : a.text.isEncodable = true) :
    Upholds (fun t => t.isEncodable = true) (a.localize scope) := by
  have hvalue := Text.isEncodable_of_subset (value_subset a) ha
  rw [Attribute.localize]
  split
  · exact Extract.upholds_pure ha
  · split
    · rw [hasCall_eq hvalue, pure_bind]
      split
      · exact Extract.upholds_pure ha
      · have hlocalize : Upholds (fun t => t.isEncodable = true)
            (Script.Binding.localize scope a.innerQuote a.value) :=
          ⟨fun t => Script.Binding.isEncodable_of_localize hvalue,
            fun d => Script.Binding.localize_error hvalue hscope (isEncodable_innerQuote a)⟩
        refine hlocalize.bind fun t ht => Extract.upholds_pure ?_
        rwa [isEncodable_withValue ha]
    · exact Meets.upholds ⟨_, rfl, isEncodable_withCall hscope ha⟩

theorem mem_attributes {tag : Text} {a : Attribute}
    (h : a ∈ Text.findAll Attribute.matchAttribute tag) : a.text ⊆ tag := by
  obtain ⟨before, c, after, n, rfl, hm⟩ := Text.of_mem_findAll h
  rw [(Attribute.text_of_matchAttribute hm).1]
  intro d hd
  exact List.mem_append_right before (((List.take_sublist n after).cons_cons c).subset hd)

theorem hasHan_of_subset {s t : Text} (h : s ⊆ t) (hs : Text.hasHan s = true) :
    Text.hasHan t = true := by
  rw [Text.hasHan, List.any_eq_true] at *
  obtain ⟨c, hc, hhan⟩ := hs
  exact ⟨c, h hc, hhan⟩

include hscope in
private theorem meets_localizeTag [Script.Parser] [Script.Parser.IsSound] {tag : Text}
    (htag : tag.isEncodable = true) :
    Meets (fun t => t.isEncodable = true) (localizeTag scope tag) ↔
      (opensElement tag = true → ∀ a ∈ Text.findAll Attribute.matchAttribute tag,
        a.IsHarmless scope) := by
  rw [localizeTag]
  split
  · rename_i hskip
    refine iff_of_true ⟨tag, rfl, htag⟩ fun hopens a ha hhan => ?_
    have := hasHan_of_subset (mem_attributes ha) (hasHan_of_subset (value_subset a) hhan)
    simp_all [opensElement]
  · rename_i hskip
    have hopens : opensElement tag = true := by simp_all [opensElement]
    rw [meets_localizeParts (isEncodable_part htag)]
    have heach {a : Attribute} (ha : a ∈ Text.findAll Attribute.matchAttribute tag) :=
      Attribute.meets_localize hscope (Text.isEncodable_of_subset (mem_attributes ha) htag)
    exact ⟨fun h _ a ha => (heach ha).mp (h a ha), fun h a ha => (heach ha).mpr (h hopens a ha)⟩

include hscope in
/-- The pass over attributes comes to a text that can be encoded exactly if all are harmless. -/
theorem meets_attributePass [Script.Parser] [Script.Parser.IsSound] {markup : Text}
    (hmarkup : markup.isEncodable = true) :
    Meets (fun t => t.isEncodable = true) (attributePass scope markup) ↔
      ∀ a ∈ attributes markup, a.IsHarmless scope := by
  have hchunk := isEncodable_chunk hmarkup
  rw [attributePass, meets_localizeTokens hchunk, forall_mem_attributes]
  exact forall₃_congr fun t ht _ => meets_localizeTag hscope (hchunk t ht)

include hscope in
private theorem upholds_localizeTag [Script.Parser] [Script.Parser.IsSound] {tag : Text}
    (htag : tag.isEncodable = true) :
    Upholds (fun t => t.isEncodable = true) (localizeTag scope tag) := by
  rw [localizeTag]
  split
  · exact Extract.upholds_pure htag
  · exact upholds_localizeParts Text.isEncodable_nil isEncodable_join (isEncodable_part htag) fun a ha =>
      upholds_localizeAttribute hscope (Text.isEncodable_of_subset (mem_attributes ha) htag)

include hscope in
theorem upholds_attributePass [Script.Parser] [Script.Parser.IsSound] {markup : Text}
    (hmarkup : markup.isEncodable = true) :
    Upholds (fun t => t.isEncodable = true) (attributePass scope markup) := by
  have hchunk := isEncodable_chunk hmarkup
  exact upholds_localizeTokens Text.isEncodable_nil isEncodable_join hchunk fun t ht =>
    upholds_localizeTag hscope (hchunk t ht)

end Attributes

end LocaleLift.Markup
