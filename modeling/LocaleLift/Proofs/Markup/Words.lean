import LocaleLift.Proofs.Markup.Attribute

/-! When the text of a template comes to a text that can be encoded: words never stand in the way,
and interpolations exactly if their literals hold no harmful escape. -/
namespace LocaleLift.Markup

open Extract (Meets Upholds)

/-- A step comes to a text that can be encoded exactly if a given one can. -/
def Keeps (t : Text) (x : Extract Text) : Prop :=
  Meets (fun u => u.isEncodable = t.isEncodable) x

private theorem keeps_pure {t : Text} : Keeps t (pure t) :=
  ⟨t, rfl, rfl⟩

private theorem keeps_join {s t : Text} {x y : Extract Text} (hx : Keeps s x) (hy : Keeps t y) :
    Keeps (s ++ t) (do return (← x) ++ (← y)) := by
  obtain ⟨u, hu, hs⟩ := hx
  obtain ⟨v, hv, ht⟩ := hy
  refine ⟨u ++ v, Extract.bind_eq_ok.mpr ⟨u, hu, Extract.bind_eq_ok.mpr ⟨v, hv, rfl⟩⟩, ?_⟩
  dsimp only
  rw [Text.isEncodable_append, Text.isEncodable_append, hs, ht]

private theorem keeps_localizeTokens (kind : TokenKind) {localize : Text → Extract Text}
    (h : ∀ t, Keeps t (localize t)) (ts : List Token) :
    Keeps (ts.flatMap Token.chunk) (localizeTokens kind localize ts) := by
  induction ts with
  | nil => exact keeps_pure
  | cons t ts ih =>
    rw [localizeTokens, List.flatMap_cons]
    split
    · exact keeps_join (h t.chunk) ih
    · exact keeps_join keeps_pure ih

section Words

variable {scope : Scope} (hscope : scope.IsEncodable)

include hscope in
private theorem keeps_wrapWords (words : Text) : Keeps words (wrapWords scope words) := by
  refine ⟨_, rfl, ?_⟩
  dsimp only
  rw [Bool.eq_iff_iff, Text.isEncodable_wrapRuns, Text.isEncodable_pieces]
  intro r
  have hcall : (scope.call "\x27" r).isEncodable = Text.isEncodable r := hscope.call rfl r
  simp [asInterpolation, hcall, Text.isEncodable_ofString]

include hscope in
private theorem keeps_localizeBetween (words : Text) (ps : List (Part Text)) :
    Keeps (words ++ ps.flatMap Part.text) (localizeBetween scope words ps) := by
  induction ps generalizing words with
  | nil =>
    rw [List.flatMap_nil, List.append_nil]
    exact keeps_wrapWords hscope words
  | cons p ps ih =>
    cases p with
    | plain c =>
      have := ih (words ++ [c])
      rwa [List.append_assoc] at this
    | found a raw =>
      obtain ⟨head, hhead, he⟩ := keeps_wrapWords hscope words
      obtain ⟨rest, hrest, hf⟩ := ih []
      refine ⟨head ++ raw ++ rest, Extract.bind_eq_ok.mpr ⟨head, hhead,
        Extract.bind_eq_ok.mpr ⟨rest, hrest, rfl⟩⟩, ?_⟩
      simp [Part.text, he, hf]

include hscope in
private theorem keeps_localizeWords (chunk : Text) : Keeps chunk (localizeWords scope chunk) := by
  rw [localizeWords]
  split
  · exact keeps_pure
  · have := keeps_localizeBetween hscope [] (Text.parts matchInterpolation chunk)
    rwa [List.nil_append, Text.flatten_parts] at this

include hscope in
/-- The pass over words keeps all that could stand in the way of encoding, and adds nothing. -/
theorem keeps_textPass (markup : Text) : Keeps markup (textPass scope markup) := by
  have := keeps_localizeTokens .text (keeps_localizeWords hscope) (tokens markup)
  rwa [flatten_tokens] at this

include hscope in
theorem keeps_settle (n : Nat) (markup : Text) : Keeps markup (settle scope n markup) := by
  induction n generalizing markup with
  | zero => exact keeps_pure
  | succ n ih =>
    obtain ⟨new, hnew, he⟩ := keeps_textPass hscope markup
    obtain ⟨last, hlast, hf⟩ := ih new
    by_cases hsame : new = markup
    · exact ⟨markup, Extract.bind_eq_ok.mpr ⟨new, hnew, by rw [if_pos hsame]; rfl⟩, rfl⟩
    · exact ⟨last, Extract.bind_eq_ok.mpr ⟨new, hnew, by rw [if_neg hsame]; exact hlast⟩,
        hf.trans he⟩

end Words

/-- What stands between the braces of the interpolations of markup. -/
def interpolations (markup : Text) : List Text :=
  (tokens markup).flatMap fun t =>
    if t.kind = .text then Text.findAll matchInterpolation t.chunk else []

theorem forall_mem_interpolations {p : Text → Prop} {markup : Text} :
    (∀ inside ∈ interpolations markup, p inside) ↔ ∀ t ∈ tokens markup, t.kind = .text →
      ∀ inside ∈ Text.findAll matchInterpolation t.chunk, p inside := by
  rw [interpolations, List.forall_mem_flatMap]
  refine forall₂_congr fun t _ => ?_
  split
  · rename_i hk
    exact ⟨fun h _ => h, fun h => h hk⟩
  · rename_i hk
    exact iff_of_true (List.forall_mem_nil _) fun htext => absurd htext hk

/-- Every literal among some parts has a property, which may depend on all that stands before. -/
def EachLiteral (p : Text → Text → Prop) (before : Text) (ps : List (Part Text)) : Prop :=
  ∀ qs body raw rs, ps = qs ++ .found body raw :: rs → p (before ++ qs.flatMap Part.text) body

section EachLiteral

variable {p : Text → Text → Prop} {before : Text} {ps : List (Part Text)}

theorem eachLiteral_nil : EachLiteral p before [] :=
  fun qs _ _ _ h => by cases qs <;> cases h

theorem eachLiteral_plain {c : CodePoint} :
    EachLiteral p before (.plain c :: ps) ↔ EachLiteral p (before ++ [c]) ps := by
  constructor
  · rintro h qs body raw rs rfl
    have := h (.plain c :: qs) body raw rs rfl
    rwa [List.flatMap_cons, ← List.append_assoc] at this
  · intro h qs body raw rs hps
    cases qs with
    | nil => cases hps
    | cons q qs =>
      obtain ⟨rfl, rfl⟩ := List.cons.inj hps
      have := h qs body raw rs rfl
      rwa [List.append_assoc] at this

theorem eachLiteral_found {body raw : Text} :
    EachLiteral p before (.found body raw :: ps) ↔
      p before body ∧ EachLiteral p (before ++ raw) ps := by
  constructor
  · intro h
    refine ⟨?_, ?_⟩
    · have := h [] body raw ps rfl
      rwa [List.flatMap_nil, List.append_nil] at this
    · rintro qs body' raw' rs rfl
      have := h (.found body raw :: qs) body' raw' rs rfl
      rwa [List.flatMap_cons, ← List.append_assoc] at this
  · rintro ⟨hbody, h⟩ qs body' raw' rs hps
    cases qs with
    | nil =>
      obtain ⟨hq, -⟩ := List.cons.inj hps
      cases hq
      rwa [List.flatMap_nil, List.append_nil]
    | cons q qs =>
      obtain ⟨rfl, rfl⟩ := List.cons.inj hps
      have := h qs body' raw' rs rfl
      rwa [List.append_assoc] at this

end EachLiteral

/-- A literal is to be replaced: it holds Chinese, and no call opens before it. -/
def IsReplaced (function before body : Text) : Prop :=
  Text.hasHan body = true ∧ opensCall function before = false

/-- The literals to be replaced in an interpolation are harmless. -/
def IsHarmless (function inside : Text) : Prop :=
  EachLiteral (fun before body => IsReplaced function before body → Literal.Harmless body True) []
    (Text.parts matchLiteral inside)

theorem body_subset {inside body raw : Text}
    (h : .found body raw ∈ Text.parts matchLiteral inside) : body ⊆ inside := by
  obtain ⟨before, c, after, n, rfl, hm, -⟩ := Text.of_mem_parts h
  rw [matchLiteral] at hm
  split at hm
  · obtain ⟨m, -, hm⟩ := Option.map_eq_some_iff.mp hm
    cases hm
    intro d hd
    exact List.mem_append_right before (List.mem_cons_of_mem c (List.mem_of_mem_take hd))
  · cases hm

theorem inside_subset {chunk inside : Text}
    (h : inside ∈ Text.findAll matchInterpolation chunk) : inside ⊆ chunk := by
  obtain ⟨before, c, after, n, rfl, hm⟩ := Text.of_mem_findAll h
  rw [matchInterpolation] at hm
  split at hm
  · obtain ⟨⟨found, rest⟩, hsplit, hm⟩ := Option.map_eq_some_iff.mp hm
    cases hm
    intro d hd
    have hmem : d ∈ after.drop 1 := by
      rw [Text.splitAt?_eq_some hsplit]
      simp [hd]
    exact List.mem_append_right before (List.mem_cons_of_mem c (List.mem_of_mem_drop hmem))
  · cases hm

section Interpolations

variable {scope : Scope} (hscope : scope.IsEncodable)

/-- The step that replaces a literal by a call. -/
def replacement (scope : Scope) (body : Text) : Extract Text := do
  let text := Text.trim (← Extract.lift (Literal.cook body))
  Extract.text text
  return scope.call "\x27" text

include hscope in
private theorem meets_replacement {body : Text} (h : Text.isEncodable body = true) :
    Meets (fun t => t.isEncodable = true) (replacement scope body) ↔
      Literal.Harmless body True := by
  have hcall (v : Text) : (scope.call "\x27" (Text.trim v)).isEncodable = v.isEncodable := by
    rw [hscope.call rfl, Text.isEncodable_trim]
  rw [Literal.harmless_iff h, replacement, Extract.meets_bind]
  constructor
  · rintro ⟨v, hv, ⟨t, ht, he⟩⟩
    obtain rfl := Except.ok.inj ht
    exact ⟨v, hv, fun _ => (hcall v).symm.trans he⟩
  · rintro ⟨v, hv, he⟩
    exact ⟨v, hv, _, rfl, (hcall v).trans (he trivial)⟩

include hscope in
private theorem meets_localizeLiterals (before : Text) {ps : List (Part Text)}
    (hps : ∀ p ∈ ps, p.text.isEncodable = true)
    (hbody : ∀ body raw, .found body raw ∈ ps → Text.isEncodable body = true) :
    Meets (fun t => t.isEncodable = true) (localizeLiterals scope before ps) ↔
      EachLiteral (fun before body => IsReplaced scope.function before body →
        Literal.Harmless body True) before ps := by
  induction ps generalizing before with
  | nil => exact iff_of_true ⟨[], rfl, rfl⟩ eachLiteral_nil
  | cons p ps ih =>
    obtain ⟨hp, hrest⟩ := List.forall_mem_cons.mp hps
    have hbodies body raw (h : .found body raw ∈ ps) : Text.isEncodable body = true :=
      hbody body raw (List.mem_cons_of_mem p h)
    cases p with
    | plain c =>
      have hjoin := meets_join (x := pure [c]) (y := localizeLiterals scope (before ++ [c]) ps)
      rw [pure_bind] at hjoin
      rw [localizeLiterals, eachLiteral_plain, ← ih _ hrest hbodies]
      exact hjoin.trans (and_iff_right ⟨[c], rfl, hp⟩)
    | found body raw =>
      have he := hbody body raw (List.mem_cons_self ..)
      rw [localizeLiterals, eachLiteral_found, ← ih _ hrest hbodies]
      split
      · rename_i hreplaced
        have hcall : IsReplaced scope.function before body := by
          simpa [IsReplaced] using hreplaced
        have hjoin := meets_join (x := replacement scope body)
          (y := localizeLiterals scope (before ++ raw) ps)
        simp only [replacement, bind_assoc] at hjoin
        refine hjoin.trans (and_congr_left fun _ => ?_)
        exact (meets_replacement hscope he).trans ⟨fun h _ => h, fun h => h hcall⟩
      · rename_i hreplaced
        refine meets_join.trans (and_congr_left fun _ => iff_of_true ⟨raw, rfl, hp⟩ fun h => ?_)
        exact absurd h (by simpa [IsReplaced] using hreplaced)

private theorem upholds_localizeLiterals (before : Text) (ps : List (Part Text)) :
    Upholds (fun _ => True) (localizeLiterals scope before ps) := by
  induction ps generalizing before with
  | nil => exact Extract.upholds_pure trivial
  | cons p ps ih =>
    have happend (s t : Text) (_ : True) (_ : True) : True := trivial
    cases p with
    | plain c => exact upholds_join happend (x := pure [c]) (Extract.upholds_pure trivial) (ih _)
    | found body raw =>
      rw [localizeLiterals]
      split
      · have hreplacement : Upholds (fun _ => True) (replacement scope body) := by
          refine ⟨fun _ _ => trivial, fun d h => ?_⟩
          rcases Extract.bind_eq_error.mp h with h | ⟨v, -, h⟩
          · exact absurd (Literal.cook_eq_error h) nofun
          · cases h
        have hjoin := upholds_join happend hreplacement (ih (before ++ raw))
        simp only [replacement, bind_assoc] at hjoin
        exact hjoin
      · exact upholds_join happend (Extract.upholds_pure trivial) (ih _)

include hscope in
private theorem meets_localizeInterpolation {inside : Text} (h : inside.isEncodable = true) :
    Meets (fun t => t.isEncodable = true) (localizeInterpolation scope inside) ↔
      IsHarmless scope.function inside := by
  have hliterals := meets_localizeLiterals hscope [] (isEncodable_part h)
    fun body raw hp => Text.isEncodable_of_subset (body_subset hp) h
  rw [IsHarmless, ← hliterals, localizeInterpolation, Extract.meets_bind]
  refine exists_congr fun t => and_congr_right fun _ => ?_
  simp [Text.isEncodable_ofString]

/-- Without Chinese, nothing is to be replaced. -/
theorem not_isReplaced_of_not_hasHan {function chunk inside : Text}
    (h : Text.hasHan chunk = false) (hi : inside ∈ Text.findAll matchInterpolation chunk) :
    EachLiteral (fun before body => ¬ IsReplaced function before body) []
      (Text.parts matchLiteral inside) := by
  rintro qs body raw rs hps ⟨hhan, -⟩
  have hmem : .found body raw ∈ Text.parts matchLiteral inside := by
    rw [hps]
    simp
  have := hasHan_of_subset (inside_subset hi) (hasHan_of_subset (body_subset hmem) hhan)
  rw [h] at this
  cases this

include hscope in
private theorem meets_localizeInterpolations {chunk : Text} (h : chunk.isEncodable = true) :
    Meets (fun t => t.isEncodable = true) (localizeInterpolations scope chunk) ↔
      ∀ inside ∈ Text.findAll matchInterpolation chunk, IsHarmless scope.function inside := by
  rw [localizeInterpolations]
  split
  · rename_i hhan
    refine iff_of_true ⟨chunk, rfl, h⟩ fun inside hi qs body raw rs hps hreplaced => ?_
    have hnone : chunk.hasHan = false := by simpa using hhan
    exact absurd hreplaced (not_isReplaced_of_not_hasHan hnone hi qs body raw rs hps)
  · rw [meets_localizeParts (isEncodable_part h)]
    exact forall₂_congr fun inside hi =>
      meets_localizeInterpolation hscope (Text.isEncodable_of_subset (inside_subset hi) h)

include hscope in
/-- The pass over interpolations comes to a text that can be encoded exactly if all are harmless. -/
theorem meets_interpolationPass {markup : Text} (h : markup.isEncodable = true) :
    Meets (fun t => t.isEncodable = true) (interpolationPass scope markup) ↔
      ∀ inside ∈ interpolations markup, IsHarmless scope.function inside := by
  have hchunk := isEncodable_chunk h
  rw [interpolationPass, meets_localizeTokens hchunk, forall_mem_interpolations]
  exact forall₃_congr fun t ht _ => meets_localizeInterpolations hscope (hchunk t ht)

theorem upholds_interpolationPass {markup : Text} :
    Upholds (fun _ => True) (interpolationPass scope markup) := by
  refine upholds_localizeTokens trivial (fun _ _ _ _ => trivial) (fun _ _ => trivial) fun t _ => ?_
  rw [localizeInterpolations]
  split
  · exact Extract.upholds_pure trivial
  · refine upholds_localizeParts trivial (fun _ _ _ _ => trivial) (fun _ _ => trivial)
      fun inside _ => ?_
    exact (upholds_localizeLiterals [] _).bind fun _ _ => Extract.upholds_pure trivial

/-- The attributes of a template are harmless, and so are the interpolations after the first two
passes. -/
structure TemplateIsHarmless [Script.Parser] (scope : Scope) (template : Text) : Prop where
  attributes : ∀ a ∈ attributes template, a.IsHarmless scope
  interpolations : ∀ markup, (attributePass scope template >>= textPass scope).result = .ok markup →
    ∀ inside ∈ interpolations markup, IsHarmless scope.function inside

include hscope in
/-- A template comes to a text that can be encoded exactly if it is harmless. -/
theorem meets_localize [Script.Parser] [Script.Parser.IsSound] {template : Text}
    (h : template.isEncodable = true) :
    Meets (fun t => t.isEncodable = true) (localize scope template) ↔
      TemplateIsHarmless scope template := by
  have halways := (upholds_attributePass hscope h).ok
  have hsecond {first second : Text} (hfirst : (attributePass scope template).result = .ok first)
      (hsecond : (textPass scope first).result = .ok second) : second.isEncodable = true := by
    obtain ⟨t, ht, he⟩ := keeps_textPass hscope first
    obtain rfl := Except.ok.inj (ht.symm.trans hsecond)
    exact he.trans (halways first hfirst)
  constructor
  · rintro ⟨out, hout, he⟩
    obtain ⟨first, ha, hout⟩ := Extract.bind_eq_ok.mp hout
    obtain ⟨second, hb, hout⟩ := Extract.bind_eq_ok.mp hout
    obtain ⟨third, hc, hout⟩ := Extract.bind_eq_ok.mp hout
    obtain ⟨t, ht, hkeeps⟩ := keeps_settle hscope 5 third
    obtain rfl := Except.ok.inj (ht.symm.trans hout)
    refine ⟨(meets_attributePass hscope h).mp ⟨first, ha, halways first ha⟩, fun markup hm => ?_⟩
    obtain ⟨first', ha', hm⟩ := Extract.bind_eq_ok.mp hm
    obtain rfl := Except.ok.inj (ha.symm.trans ha')
    obtain rfl := Except.ok.inj (hb.symm.trans hm)
    exact (meets_interpolationPass hscope (hsecond ha hb)).mp ⟨third, hc, hkeeps.symm.trans he⟩
  · rintro ⟨hattributes, hinterpolations⟩
    obtain ⟨first, ha, -⟩ := (meets_attributePass hscope h).mpr hattributes
    obtain ⟨second, hb, -⟩ := keeps_textPass hscope first
    obtain ⟨third, hc, hthird⟩ := (meets_interpolationPass hscope (hsecond ha hb)).mpr
      (hinterpolations second (Extract.bind_eq_ok.mpr ⟨first, ha, hb⟩))
    obtain ⟨out, hout, hkeeps⟩ := keeps_settle hscope 5 third
    exact ⟨out, Extract.bind_eq_ok.mpr ⟨first, ha, Extract.bind_eq_ok.mpr
      ⟨second, hb, Extract.bind_eq_ok.mpr ⟨third, hc, hout⟩⟩⟩, hkeeps.trans hthird⟩

include hscope in
theorem upholds_localize [Script.Parser] [Script.Parser.IsSound] {template : Text}
    (h : template.isEncodable = true) :
    Upholds (fun _ => True) (localize scope template) :=
  (upholds_attributePass hscope h).bind fun first _ =>
    (keeps_textPass hscope first).upholds.bind fun _ _ =>
      upholds_interpolationPass.bind fun third _ =>
        ⟨fun _ _ => trivial, (keeps_settle hscope 5 third).upholds.accepts⟩

end Interpolations

end LocaleLift.Markup
