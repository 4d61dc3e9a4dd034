import LocaleLift.Proofs.Markup.Literals
import LocaleLift.Proofs.Markup.OpeningTag

/-! Templates that are localized once and for all: in what they come to, nothing is left to do. -/
namespace LocaleLift.Markup

open Extract (Finds Quiet)

/-- In a tag nothing is left to do, or it opens an element and its attributes with Chinese are
static. -/
def TagIsOrderly [Script.Parser] (scope : Scope) (tag : Text) : Prop :=
  (opensElement tag = true →
    ∀ a ∈ Text.findAll Attribute.matchAttribute tag, a.IsSettled scope) ∨
  ∃ t : OpeningTag, tag = t.text ∧ t.IsWritten ∧ t.IsStatic

/-- In an interpolation nothing is left to do, or it is written as code and literals, and no value
of a literal with Chinese would close it. -/
def IsOrderly (function inside : Text) : Prop :=
  IsSettled function inside ∨
  ∃ ss : List Snippet, inside = ss.flatMap Snippet.text ∧ (∀ s ∈ ss, s.IsWritten) ∧
    ∀ quote body value, .literal quote body ∈ ss → Text.hasHan body = true →
      Literal.cook body = .ok value → Unclosed value

/-- Every interpolation of a template is closed, and orderly, and so is every tag. -/
structure TemplateIsOrderly [Script.Parser] (scope : Scope) (template : Text) : Prop where
  closed : Closes template
  tags : ∀ t ∈ tokens template, t.kind = .tag → TagIsOrderly scope t.chunk
  interpolations : ∀ inside ∈ interpolations template, IsOrderly scope.function inside

section Tokens

variable {kind : TokenKind} {localize : Text → Extract Text} {p : Text → Prop} {ts : List Token}

private theorem exists_localizeTokens (h : ∀ t ∈ ts, t.kind = kind →
      ∃ us new, Finds us new (localize t.chunk) ∧ ∀ u ∈ us, p u) :
    ∃ us out, Finds us out (localizeTokens kind localize ts) ∧ ∀ u ∈ us, p u := by
  induction ts with
  | nil => exact ⟨[], [], ⟨rfl, rfl⟩, nofun⟩
  | cons t ts ih =>
    obtain ⟨ht, hts⟩ := List.forall_mem_cons.mp h
    obtain ⟨vs, rest, hrest, hvs⟩ := ih hts
    have hjoin (us : List Text) (head : Text) {x : Extract Text} (hx : Finds us head x) :
        Finds (us ++ vs) (head ++ rest) (do return (← x) ++ (← localizeTokens kind localize ts)) :=
      Extract.finds_bind.mpr ⟨us, head, vs, hx, Extract.finds_map.mpr ⟨rest, hrest, rfl⟩, rfl⟩
    rw [localizeTokens]
    split
    · rename_i hk
      obtain ⟨us, head, hhead, hus⟩ := ht hk
      exact ⟨_, _, hjoin us head hhead, List.forall_mem_append.mpr ⟨hus, hvs⟩⟩
    · exact ⟨_, _, hjoin [] t.chunk ⟨rfl, rfl⟩, hvs⟩

end Tokens

section Passes

variable {scope : Scope}

private theorem exists_localizeTag (h : scope.CanBind) {tag : Text} (htag : TagIsOrderly scope tag) :
    ∃ us new, Finds us new (localizeTag scope tag) ∧ Quiet new (localizeTag scope new) ∧
      ∀ c r t, tag = c :: r → matchMark c (r ++ t) = some (.tag, r.length) →
        ∃ s, new = c :: s ∧
          ∀ u, (t = [] → u = []) → matchMark c (s ++ u) = some (.tag, s.length) := by
  rcases htag with hsettled | ⟨tag, rfl, htag, hstatic⟩
  · have hquiet := (restsAt_localizeTag scope tag tag).mpr ⟨rfl, hsettled⟩
    exact ⟨[], tag, hquiet, hquiet, fun c r t h hm => ⟨r, h, fun u => matchMark_append hm⟩⟩
  · refine ⟨_, _, OpeningTag.localizeTag_static htag hstatic,
      OpeningTag.localizeTag_bound h htag hstatic, fun c r t htext hm => ?_⟩
    obtain ⟨s, hnew, hmark⟩ := OpeningTag.matchMark_text (htag.bind h)
    obtain ⟨r', htext', -⟩ := OpeningTag.matchMark_text htag
    obtain ⟨rfl, -⟩ := List.cons.inj (htext.symm.trans htext')
    exact ⟨s, hnew, fun u _ => hmark u⟩

private theorem exists_attributePass (h : scope.CanBind) {template : Text}
    (htemplate : TemplateIsOrderly scope template) :
    ∃ new, (attributePass scope template).result = .ok new ∧ Laid (tokens new) ∧
      ∀ u ∈ tokens new, (u.kind = .tag → Quiet u.chunk (localizeTag scope u.chunk)) ∧
        (u.kind ≠ .tag → u ∈ tokens template) := by
  have htags {t : Token} (ht : t ∈ tokens template) (hk : t.kind = .tag) :=
    exists_localizeTag h (htemplate.tags t ht hk)
  obtain ⟨us, out, hout, -⟩ := exists_localizeTokens (p := fun _ => True) fun t ht hk => by
    obtain ⟨us, new, hnew, -⟩ := htags ht hk
    exact ⟨us, new, hnew, fun _ _ => trivial⟩
  obtain ⟨vs, rfl, hvs⟩ := exists_becomes hout
  have hlaid := (laid_tokens htemplate.closed).of_becomes hvs (by decide) nofun
    fun _ c r t new hmem hm hnew => by
      obtain ⟨us, new', hnew', -, hmark⟩ := htags hmem rfl
      obtain rfl := Except.ok.inj (hnew.symm.trans hnew'.2)
      exact hmark c r t rfl hm
  refine ⟨_, hout.2, by rwa [hlaid.tokens_eq], fun u hu => ?_⟩
  rw [hlaid.tokens_eq] at hu
  obtain ⟨t, ht, hbecomes⟩ := (Extract.mem_of_forall₂ hvs).2 u hu
  refine ⟨fun hk => ?_, fun hk => hbecomes.eq hk ▸ ht⟩
  obtain ⟨us, new, hnew, hquiet, -⟩ := htags ht (hbecomes.kind_eq ▸ hk)
  rwa [hbecomes.chunk_eq hk hnew]

private theorem LooksUp.exists_inside (h : scope.IsTame) {w : Text} (hw : LooksUp scope w) :
    ∃ inside, w = "\x7b\x7b" ++ inside ++ "\x7d\x7d" ∧ Unclosed (inside ++ "\x7d") ∧
      IsOrderly scope.function inside ∧ IsOrderly scope.function (.scalar '\x7b' :: inside) := by
  obtain ⟨inside, hinside, hclosed⟩ := hw.isInterpolation (isUnclosed_of_isTame h)
  obtain ⟨r, -, rfl⟩ := hw
  have hfunction : ∀ c ∈ scope.function, ¬ c.IsQuote := fun c hc => (h.function c hc).1
  have hsame : inside = " " ++ (scope.call "\x27" r ++ " ") := by
    refine List.append_cancel_left (List.append_cancel_right (hinside.symm.trans ?_))
    simp [asInterpolation, Text.ofString]
  refine ⟨inside, hinside, hclosed, .inl ?_, .inl ?_⟩
  · rw [hsame]
    exact isSettled_call hfunction (by decide) (by decide) r
  · rw [hsame, ← List.cons_append]
    exact isSettled_call hfunction (by decide) (by decide) r

private theorem exists_orderly_textPass (h : scope.IsTame) {markup : Text}
    (hlaid : Laid (tokens markup))
    (hinside : ∀ inside ∈ interpolations markup, IsOrderly scope.function inside) :
    ∃ new, (textPass scope markup).result = .ok new ∧ Laid (tokens new) ∧
      ∀ u ∈ tokens new, (u.kind = .text → Filled (IsOrderly scope.function) u.chunk) ∧
        (u.kind ≠ .text → u ∈ tokens markup) := by
  have hmeets {t : Token} (ht : t ∈ tokens markup) (hk : t.kind = .text) :=
    (hlaid.inline ht hk).meets_localizeWords scope
  obtain ⟨us, out, hout, -⟩ := exists_localizeTokens (p := fun _ => True) fun t ht hk => by
    obtain ⟨new, hnew, -⟩ := hmeets ht hk
    exact ⟨_, new, ⟨rfl, hnew⟩, fun _ _ => trivial⟩
  obtain ⟨hlaid', found, hvs⟩ := laid_textPass h hlaid hout.2
  refine ⟨out, hout.2, hlaid', fun u hu => ?_⟩
  obtain ⟨t, ht, hbecomes⟩ := (Extract.mem_of_forall₂ hvs).2 u hu
  refine ⟨fun hk => ?_, fun hk => hbecomes.eq hk ▸ ht⟩
  have htext : t.kind = .text := hbecomes.kind_eq ▸ hk
  obtain ⟨new, hnew, hwoven⟩ := hmeets ht htext
  rw [hbecomes.chunk_eq hk ⟨rfl, hnew⟩]
  exact (hlaid.inline ht htext).filled hwoven (fun w hw => hw.exists_inside h)
    (forall_mem_interpolations.mp hinside t ht htext)

private theorem IsOrderly.exists_settled (h : scope.IsTame) {inside : Text}
    (hinside : IsOrderly scope.function inside) (hclosed : Unclosed (inside ++ "\x7d")) :
    ∃ (us : List Text) (new : Text),
      Finds us ("\x7b\x7b" ++ new ++ "\x7d\x7d") (localizeInterpolation scope inside) ∧
      (∀ u ∈ us, Unclosed u) ∧ Unclosed (new ++ "\x7d") ∧ IsSettled scope.function new := by
  rcases hinside with hsettled | ⟨ss, rfl, hss, hvalues⟩
  · have hliterals := restsAt_localizeLiterals scope [] (Text.parts matchLiteral inside)
    rw [Text.flatten_parts] at hliterals
    exact ⟨[], inside, (hliterals.map rfl _).mpr ⟨rfl, hsettled⟩, nofun, hclosed, hsettled⟩
  · have hfunction : ∀ c ∈ scope.function, ¬ c.IsQuote := fun c hc => (h.function c hc).1
    obtain ⟨new, us, hconverts, hfinds, hsettled⟩ := Markup.exists_settled hfunction hss
    have hus : ∀ u ∈ us, Unclosed u := fun u hu => by
      obtain ⟨quote, body, value, hmem, hhan, hcook, rfl⟩ := hconverts.exists_literal hu
      exact (hvalues quote body value hmem hhan hcook).within (Text.isInfix_trim value)
    obtain ⟨new', hnew', hunclosed⟩ := isInterpolation_localize h hclosed hfinds hus
    obtain rfl := List.append_cancel_left (List.append_cancel_right hnew')
    exact ⟨us, new, hfinds, hus, hunclosed, hsettled⟩

/-- Localizing the interpolations of a text leaves nothing to do in them. -/
private theorem exists_filled (h : scope.IsTame) {s : Text} (hs : Inline s)
    (hfilled : Filled (IsOrderly scope.function) s) :
    ∃ us new, Finds us new
        (localizeParts (localizeInterpolation scope) (Text.parts matchInterpolation s)) ∧
      (∀ u ∈ us, Unclosed u) ∧ Filled (IsSettled scope.function) new := by
  induction hs with
  | nil => exact ⟨[], [], ⟨rfl, rfl⟩, nofun, filled_nil⟩
  | @plain c s hm hopen rest ih =>
    have hnone := matchInterpolation_of_not_braces hopen
    obtain ⟨hc, hfilled⟩ := (filled_plain hnone).mp hfilled
    obtain ⟨us, new, hfinds, hus, hnew⟩ := ih hfilled
    have hhead := (inline_localizeParts h rest hfinds hus).2
    rw [← hhead] at hopen
    rw [Text.parts_plain hnone]
    exact ⟨us, c :: new, Extract.finds_map.mpr ⟨new, hfinds, rfl⟩, hus,
      (filled_plain (matchInterpolation_of_not_braces hopen)).mpr ⟨hc, hnew⟩⟩
  | @interpolation w s hw rest ih =>
    obtain ⟨inside, rfl, hclosed⟩ := hw
    obtain ⟨hinside, hfilled⟩ := (filled_interpolation hclosed).mp hfilled
    obtain ⟨us, head, hhead, hus, hunclosed, hsettled⟩ := hinside.exists_settled h hclosed
    obtain ⟨vs, new, hfinds, hvs, hnew⟩ := ih hfilled
    rw [parts_interpolation hclosed]
    exact ⟨us ++ vs, _, Extract.finds_bind.mpr ⟨us, _, vs, hhead,
        Extract.finds_map.mpr ⟨new, hfinds, rfl⟩, rfl⟩, List.forall_mem_append.mpr ⟨hus, hvs⟩,
      (filled_interpolation hunclosed).mpr ⟨hsettled, hnew⟩⟩

private theorem exists_interpolationPass (h : scope.IsTame) {markup : Text}
    (hlaid : Laid (tokens markup))
    (hfilled : ∀ t ∈ tokens markup, t.kind = .text → Filled (IsOrderly scope.function) t.chunk) :
    ∃ new, (interpolationPass scope markup).result = .ok new ∧
      ∀ u ∈ tokens new, (u.kind = .text → Filled (IsSettled scope.function) u.chunk) ∧
        (u.kind ≠ .text → u ∈ tokens markup) := by
  have hexists {t : Token} (ht : t ∈ tokens markup) (hk : t.kind = .text) :=
    exists_filled h (hlaid.inline ht hk) (hfilled t ht hk)
  obtain ⟨us, out, hout, hus⟩ := exists_localizeTokens (p := Unclosed) fun t ht hk => by
    obtain ⟨us, new, hnew, hus, -⟩ := hexists ht hk
    exact ⟨us, new, finds_localizeInterpolations hnew, hus⟩
  obtain ⟨-, found, hvs⟩ := laid_interpolationPass h hlaid (hout.1 ▸ hus) hout.2
  refine ⟨out, hout.2, fun u hu => ?_⟩
  obtain ⟨t, ht, hbecomes⟩ := (Extract.mem_of_forall₂ hvs).2 u hu
  refine ⟨fun hk => ?_, fun hk => hbecomes.eq hk ▸ ht⟩
  obtain ⟨us, new, hnew, -, hsettled⟩ := hexists ht (hbecomes.kind_eq ▸ hk)
  rwa [hbecomes.chunk_eq hk (finds_localizeInterpolations hnew)]

/-- Localizing an orderly template comes to one in which nothing is left to do. -/
theorem localize_orderly (hbind : scope.CanBind) (htame : scope.IsTame) {template : Text}
    (h : TemplateIsOrderly scope template) :
    ∃ out, (localize scope template).result = .ok out ∧ IsLocalized scope out := by
  obtain ⟨first, hfirst, hlaid, htags⟩ := exists_attributePass hbind h
  have hinside : ∀ inside ∈ interpolations first, IsOrderly scope.function inside :=
    forall_mem_interpolations.mpr fun t ht hk => forall_mem_interpolations.mp h.interpolations t
      ((htags t ht).2 (by rw [hk]; decide)) hk
  obtain ⟨second, hsecond, hlaid, hwords⟩ := exists_orderly_textPass htame hlaid hinside
  obtain ⟨third, hthird, hfilled⟩ := exists_interpolationPass htame hlaid fun t ht => (hwords t ht).1
  have hlocalized : IsLocalized scope third := by
    refine ⟨forall_mem_attributes.mpr fun t ht hk => ?_, fun t ht hk c hc => ?_,
      forall_mem_interpolations.mpr fun t ht hk inside => ((hfilled t ht).1 hk).inside⟩
    · have hne : t.kind ≠ .text := by rw [hk]; decide
      have hquiet := (htags t ((hwords t ((hfilled t ht).2 hne)).2 hne)).1 hk
      exact ((restsAt_localizeTag scope t.chunk t.chunk).mp hquiet).2
    · exact (hfilled t ht).1 hk _ hc
  have hrests : RestsWithin scope 1 third third :=
    .rest ((restsAt_textPass third third).mpr ⟨rfl, hlocalized.wordless⟩).2
  refine ⟨third, ?_, hlocalized⟩
  exact Extract.bind_eq_ok.mpr ⟨first, hfirst, Extract.bind_eq_ok.mpr ⟨second, hsecond,
    Extract.bind_eq_ok.mpr ⟨third, hthird, hrests.settle (by decide)⟩⟩⟩

end Passes

private def titled : OpeningTag :=
  ⟨"p", [.valued [] ⟨.scalar ' ', "title", "=", .scalar '\x27', "中"⟩], [], false⟩

private theorem isWritten_titled : titled.IsWritten := by
  refine ⟨⟨.scalar 'p', [], rfl, by decide, nofun⟩, List.forall_mem_singleton.mpr ⟨rfl, ?_⟩, rfl⟩
  exact ⟨rfl, by decide, by decide, ⟨[], [], rfl, rfl, rfl⟩, .inr rfl, by decide⟩

private def sum : List Snippet :=
  [.code " a + ", .literal (.scalar '\x27') "字", .code " "]

private theorem isWritten_sum : ∀ s ∈ sum, s.IsWritten := by
  have hcode {t : Text} (h : ∀ c ∈ t, ¬ c.IsQuote) : (Snippet.code t).IsWritten := h
  have hliteral : (Snippet.literal (.scalar '\x27') "字").IsWritten :=
    ⟨.inr rfl, .plain (by decide) (by decide) .nil, by decide, "字", by decide⟩
  exact List.forall_mem_cons.mpr ⟨hcode (by decide), List.forall_mem_cons.mpr ⟨hliteral,
    List.forall_mem_singleton.mpr (hcode (by decide))⟩⟩

private theorem isOrderly_sum : IsOrderly "$t" " a + '字' " := by
  refine .inr ⟨sum, rfl, isWritten_sum, fun quote body value hmem _ hcook => ?_⟩
  simp only [sum, List.mem_cons, Snippet.literal.injEq, reduceCtorEq, List.not_mem_nil, false_or,
    or_false] at hmem
  obtain ⟨rfl, rfl⟩ := hmem
  have hvalue : Literal.cook "字" = .ok "字" := by decide
  obtain rfl := Except.ok.inj (hcook.symm.trans hvalue)
  decide

/-- A template with an attribute, words and a literal. -/
theorem templateIsOrderly_mixed :
    TemplateIsOrderly ⟨"test", .ofList [] "common", "$t"⟩
      "<p title='中'>文\x7b\x7b a + '字' \x7d\x7d</p>" := by
  have htokens : tokens "<p title='中'>文\x7b\x7b a + '字' \x7d\x7d</p>" =
      [⟨.tag, "<p title='中'>"⟩, ⟨.text, "文\x7b\x7b a + '字' \x7d\x7d"⟩, ⟨.tag, "</p>"⟩] := by
    rw [Text.ofString_ofList]
    decide +kernel
  have hinside : interpolations "<p title='中'>文\x7b\x7b a + '字' \x7d\x7d</p>" =
      [" a + '字' "] := by
    rw [Text.ofString_ofList]
    decide +kernel
  refine ⟨by rw [Text.ofString_ofList]; decide +kernel, ?_, ?_⟩
  · rw [htokens]
    refine List.forall_mem_cons.mpr ⟨fun _ => .inr ⟨titled, rfl, isWritten_titled, by decide⟩,
      List.forall_mem_cons.mpr ⟨nofun, List.forall_mem_singleton.mpr fun _ => .inl ?_⟩⟩
    exact fun hopens => absurd hopens (by decide)
  · rw [hinside]
    exact List.forall_mem_singleton.mpr isOrderly_sum

end LocaleLift.Markup
