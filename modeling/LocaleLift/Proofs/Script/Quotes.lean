import LocaleLift.Proofs.Script.Draft

/-! A localized binding holds a quote other than the one around its keys only where it held it
before, or where a text found in it holds it. -/
namespace LocaleLift

open Extract (Finds)

/-- A code point that ends neither a quoted value nor an interpolation. -/
def CodePoint.IsTame (c : CodePoint) : Prop :=
  ¬ c.IsQuote ∧ c ≠ .scalar '\x7d'

instance : DecidablePred CodePoint.IsTame := fun _ => inferInstanceAs (Decidable (_ ∧ _))

/-- The names that stand in every call end neither a quoted value nor an interpolation. -/
structure Scope.IsTame (s : Scope) : Prop where
  ns : ∀ c ∈ s.ns, c.IsTame
  common : ∀ c ∈ s.common.ns, c.IsTame
  function : ∀ c ∈ s.function, c.IsTame

namespace Text

variable {q c : CodePoint} {t : Text}

theorem isInfix_trim (t : Text) : trim t <:+: t := by
  obtain ⟨s, hs, -⟩ := exists_trimEnd (trimStart t)
  have hend : trim t <+: trimStart t := ⟨s, hs.symm⟩
  exact hend.isInfix.trans (List.dropWhile_suffix _).isInfix

theorem trim_subset (t : Text) : trim t ⊆ t :=
  (isInfix_trim t).subset

theorem not_mem_replaceAll {pattern new : Text} (hpattern : pattern ≠ []) (hnew : q ∉ new)
    (h : q ∉ t) : q ∉ replaceAll pattern new t := by
  obtain ⟨ps, rfl, hreplaced⟩ := replaceAll_fill hpattern new t
  rw [hreplaced]
  intro hq
  obtain ⟨p, hp, hq⟩ := List.mem_flatMap.mp hq
  cases p with
  | plain c => exact h (List.mem_flatMap.mpr ⟨.plain c, hp, hq⟩)
  | found a text => exact hnew hq

theorem mem_wrapRuns {wrap : Text → Text} {ps : List Piece} (h : c ∈ wrapRuns wrap ps) :
    (∃ t, .plain t ∈ ps ∧ c ∈ t) ∨ ∃ r, .run r ∈ ps ∧ c ∈ wrap r := by
  induction ps with
  | nil => cases h
  | cons p ps ih =>
    cases p with
    | plain t =>
      rcases List.mem_append.mp h with hc | h
      · exact .inl ⟨t, List.mem_cons_self .., hc⟩
      · exact (ih h).imp (fun ⟨u, hu, hc⟩ => ⟨u, List.mem_cons_of_mem _ hu, hc⟩)
          fun ⟨r, hr, hc⟩ => ⟨r, List.mem_cons_of_mem _ hr, hc⟩
    | run r =>
      rcases List.mem_append.mp h with hc | h
      · exact .inr ⟨r, List.mem_cons_self .., hc⟩
      · exact (ih h).imp (fun ⟨u, hu, hc⟩ => ⟨u, List.mem_cons_of_mem _ hu, hc⟩)
          fun ⟨r, hr, hc⟩ => ⟨r, List.mem_cons_of_mem _ hr, hc⟩

private theorem plain_of_mem_unescapeRuns {ps : List Piece}
    (h : .plain t ∈ Script.unescapeRuns ps) : ∃ u, .plain u ∈ ps ∧ t ⊆ u := by
  induction ps using Script.unescapeRuns.induct with
  | case1 => cases h
  | case2 u r ps ih =>
    rw [Script.unescapeRuns] at h
    rcases List.mem_cons.mp h with h | h
    · cases h
      refine ⟨u, List.mem_cons_self .., ?_⟩
      rcases dropOddBackslash_eq u with hu | hu
      · rw [hu]
        exact List.Subset.refl u
      · conv_rhs => rw [hu]
        exact List.subset_append_left _ _
    · rcases List.mem_cons.mp h with h | h
      · cases h
      · obtain ⟨v, hv, hsub⟩ := ih h
        exact ⟨v, List.mem_cons_of_mem _ (List.mem_cons_of_mem _ hv), hsub⟩
  | case3 p ps hp ih =>
    rw [Script.unescapeRuns] at h
    · rcases List.mem_cons.mp h with rfl | h
      · exact ⟨t, List.mem_cons_self .., List.Subset.refl t⟩
      · obtain ⟨v, hv, hsub⟩ := ih h
        exact ⟨v, List.mem_cons_of_mem _ hv, hsub⟩
    · exact hp

/-- Wrapping the runs of a template brings in what the runs are wrapped with. -/
theorem not_mem_wrapTemplateRuns {wrap : Text → Text} {style : RunStyle} (h : q ∉ t)
    (hwrap : ∀ r ∈ (pieces style t).filterMap Piece.run?, q ∉ wrap r) :
    q ∉ wrapTemplateRuns wrap (pieces style t) := by
  rw [Script.wrapTemplateRuns_eq]
  intro hq
  rcases mem_wrapRuns hq with ⟨u, hu, hq⟩ | ⟨r, hr, hq⟩
  · obtain ⟨v, hv, hsub⟩ := plain_of_mem_unescapeRuns hu
    refine h ?_
    rw [← flatten_pieces style t]
    exact List.mem_flatMap.mpr ⟨.plain v, hv, hsub hq⟩
  · refine hwrap r ?_ hq
    rw [← Script.runs_unescapeRuns]
    exact List.mem_filterMap.mpr ⟨.run r, hr, rfl⟩

end Text

section Calls

variable {scope : Scope} {q inner : CodePoint} {t : Text} (h : scope.IsTame) (hq : q.IsQuote)
  (hne : q ≠ inner)

include hq hne in
private theorem not_mem_quote (ht : q ∉ t) : q ∉ Literal.quote [inner] t := by
  have hother : q ∉ [inner] := fun hmem => hne (List.mem_singleton.mp hmem)
  have hescape {s : Text} (hs : q ∉ s) : q ∉ .scalar '\\' :: s := by
    refine List.not_mem_cons_of_ne_of_not_mem ?_ hs
    rcases hq with rfl | rfl <;> decide
  have hbody : q ∉ (Text.replaceAll "\\" "\\\\" t
      |> Text.replaceAll [inner] (.scalar '\\' :: [inner])
      |> Text.replaceAll "\n" "\\n"
      |> Text.replaceAll "\r" "\\r"
      |> Text.replaceAll "\u2028" "\\u2028"
      |> Text.replaceAll "\u2029" "\\u2029") := by
    have hplain (s : Text) (hs : ∀ c ∈ s, ¬ c.IsQuote) : q ∉ s := fun hmem => hs q hmem hq
    refine Text.not_mem_replaceAll (by decide) (hplain _ (by decide)) ?_
    refine Text.not_mem_replaceAll (by decide) (hplain _ (by decide)) ?_
    refine Text.not_mem_replaceAll (by decide) (hplain _ (by decide)) ?_
    refine Text.not_mem_replaceAll (by decide) (hplain _ (by decide)) ?_
    refine Text.not_mem_replaceAll (List.cons_ne_nil inner []) (hescape hother) ?_
    exact Text.not_mem_replaceAll (by decide) (hplain _ (by decide)) ht
  rw [Literal.quote, List.mem_append, List.mem_append, not_or, not_or]
  exact ⟨⟨hother, hbody⟩, hother⟩

include hq hne in
/-- A call holds no quote but the ones around its key, unless its text or a name in it does. -/
theorem Scope.not_mem_call (hns : q ∉ scope.ns) (hcommon : q ∉ scope.common.ns)
    (hfunction : q ∉ scope.function) (ht : q ∉ t) : q ∉ scope.call [inner] t := by
  have hmark {s : Text} (hs : ∀ c ∈ s, ¬ c.IsQuote) : q ∉ s := fun hmem => hs q hmem hq
  have hkey : q ∉ scope.common.keyFor scope.ns t := by
    have hresolved : q ∉ scope.common.resolve scope.ns t := by
      rw [CommonTerms.resolve]
      split
      · exact hcommon
      · exact hns
    simp only [CommonTerms.keyFor, List.mem_append, not_or]
    exact ⟨⟨hresolved, hmark (by decide)⟩, ht⟩
  simp only [Scope.call, lookupCall, List.mem_append, not_or]
  exact ⟨⟨⟨hfunction, hmark (by decide)⟩, not_mem_quote hq hne hkey⟩, hmark (by decide)⟩

include h hq hne in
theorem Scope.IsTame.not_mem_call (ht : q ∉ t) : q ∉ scope.call [inner] t := by
  have hname {s : Text} (hs : ∀ c ∈ s, c.IsTame) : q ∉ s := fun hmem => (hs q hmem).1 hq
  exact Scope.not_mem_call hq hne (hname h.ns) (hname h.common) (hname h.function) ht

end Calls

namespace Script

/-- Nothing is swapped for a text that holds a given code point. -/
private def Withholds (q : CodePoint) : Stretch → Prop
  | .kept _ => True
  | .swapped _ new => q ∉ new

private theorem not_mem_new {q : CodePoint} {draft : Draft} (h : ∀ s ∈ draft, Withholds q s)
    (hold : q ∉ draft.old) : q ∉ draft.new := by
  intro hq
  obtain ⟨s, hs, hq⟩ := List.mem_flatMap.mp hq
  cases s with
  | kept c => exact hold (List.mem_flatMap.mpr ⟨.kept c, hs, hq⟩)
  | swapped old new => exact h _ hs hq

variable {q inner : CodePoint} {scope : Scope} {source : Text}

private def BringsNo (q : CodePoint) (es : List Edit) : Prop :=
  ∀ e ∈ es, q ∉ e.text

section Edits

variable (h : scope.IsTame) (hq : q.IsQuote) (hne : q ≠ inner)

include h hq hne in
private theorem bringsNo_edits {n : Node} (hn : n.All (Node.Parsed source)) {ts : List Text}
    {es : List Edit} (hfinds : Finds ts es (edits (Binding.style scope [inner]) source [] n))
    (hts : ∀ t ∈ ts, q ∉ t) : BringsNo q es := by
  obtain ⟨-, rfl, rfl⟩ := (yields_literals (hn.imp fun _ => Node.Parsed.wellFormed) ts es).mp hfinds
  intro e he
  obtain ⟨d, hd, rfl⟩ := List.mem_map.mp he
  have htexts (t : Text) (ht : t ∈ d.texts) : q ∉ t :=
    hts t (List.mem_flatMap.mpr ⟨d, hd, ht⟩)
  obtain ⟨o, -, hd⟩ := List.mem_flatMap.mp hd
  have hmark {s : Text} (hs : ∀ c ∈ s, ¬ c.IsQuote) : q ∉ s := fun hmem => hs q hmem hq
  obtain ⟨-, value, -, hd⟩ := Occurrence.string_of_mem_dues rfl rfl hd
  rw [Occurrence.stringDues] at hd
  split at hd
  · obtain rfl := List.mem_singleton.mp hd
    have hcall := h.not_mem_call hq hne (htexts _ (List.mem_singleton.mpr rfl))
    simp only [Due.edit, Edit.ofRange, Text.wrapRuns, List.append_nil, List.mem_append, not_or]
    refine ⟨⟨?_, hcall⟩, ?_⟩
    · split
      · exact hmark (by decide)
      · exact List.not_mem_nil
    · split
      · exact hmark (by decide)
      · exact List.not_mem_nil
  · cases hd

include h hq hne in
private theorem bringsNo_phraseEdits (hsource : q ∉ source) {above : List Node} {n : Node}
    {ts : List Text} {es : List Edit}
    (hfinds : Finds ts es (Binding.phraseEdits scope [inner] source above n))
    (hts : ∀ t ∈ ts, q ∉ t) : BringsNo q es := by
  intro e he
  obtain ⟨o, ho, r, hr, rfl⟩ := Binding.exists_of_mem_phraseEdits hfinds.2 he
  have hruns (t : Text) (ht : t ∈ Text.runs .phrase (Utf8.slice r.1 r.2 source)) :
      q ∉ Text.trim t := by
    refine hts _ ?_
    rw [← hfinds.1, (Binding.finds_phraseEdits ..).1]
    exact List.mem_flatMap.mpr ⟨o, ho, List.mem_flatMap.mpr ⟨r, hr, List.mem_map_of_mem ht⟩⟩
  refine Text.not_mem_wrapTemplateRuns
    (fun hmem => hsource ((Utf8.slice_isInfix r.1 r.2 source).subset hmem)) fun t ht => ?_
  have hmark {s : Text} (hs : ∀ c ∈ s, ¬ c.IsQuote) : q ∉ s := fun hmem => hs q hmem hq
  simp only [asSubstitution, List.mem_append, not_or]
  exact ⟨⟨hmark (by decide), h.not_mem_call hq hne (hruns t ht)⟩, hmark (by decide)⟩

include h hq hne in
private theorem bringsNo_allEdits (hsource : q ∉ source) {value : Node}
    (hvalue : value.All (Node.Parsed source)) {ts : List Text} {es : List Edit}
    (hfinds : Finds ts es (Binding.allEdits scope [inner] source value))
    (hts : ∀ t ∈ ts, q ∉ t) : BringsNo q es := by
  obtain ⟨us, fs, vs, hedits, hrest, rfl⟩ := Extract.finds_bind.mp hfinds
  obtain ⟨hus, hvs⟩ := List.forall_mem_append.mp hts
  split at hrest
  · exact bringsNo_phraseEdits h hq hne hsource hrest hvs
  · obtain ⟨-, rfl⟩ := Extract.finds_pure.mp hrest
    exact bringsNo_edits h hq hne hvalue hedits hus

end Edits

/-- A localized binding holds a quote only where it did before, or where a text found in it does. -/
theorem Binding.not_mem_localize [Parser] [Parser.IsSound] (h : scope.IsTame) (hq : q.IsQuote)
    (hne : q ≠ inner)
    {expression : Text} (hexpression : q ∉ expression) {ts : List Text} {out : Text}
    (hfinds : Finds ts out (localize scope [inner] expression))
    (hts : ∀ t ∈ ts, q ∉ t) : q ∉ out := by
  have hsource : q ∉ enclose expression := by
    have hmark {s : Text} (hs : ∀ c ∈ s, ¬ c.IsQuote) : q ∉ s := fun hmem => hs q hmem hq
    simp only [enclose, List.mem_append, not_or]
    exact ⟨⟨hmark (by decide), hexpression⟩, hmark (by decide)⟩
  cases hencodable : expression.isEncodable with
  | false =>
    rw [localize, hencodable] at hfinds
    cases hfinds.2
  | true =>
    rw [localize_eq hencodable] at hfinds
    split at hfinds
    · obtain rfl := Except.ok.inj hfinds.2
      exact hexpression
    · rename_i value hvalue
      split at hfinds
      · obtain rfl := Except.ok.inj hfinds.2
        exact hexpression
      · obtain ⟨us, es, vs, hedits, hfinish, rfl⟩ := Extract.finds_bind.mp hfinds
        rw [finish] at hfinish
        split at hfinish
        · obtain rfl := Except.ok.inj hfinish.2
          exact hexpression
        · obtain ⟨new, hnew, rfl⟩ := Extract.finds_map.mp hfinish
          have hbrings := bringsNo_allEdits h hq hne hsource (parse?_parsed hvalue) hedits
            (List.forall_mem_append.mp hts).1
          have hdrafts : ∀ e ∈ es, e.HasDraft (Withholds q) (enclose expression) :=
            fun e he x y _ _ => ⟨[.swapped (Utf8.slice x y (enclose expression)) e.text],
              List.forall_mem_singleton.mpr (hbrings e he), List.append_nil _, List.append_nil _⟩
          have hkeep : ∀ c, Withholds q (.kept c) := fun _ => trivial
          obtain ⟨draft, hdraft, hold, rfl⟩ := (allEdits_spread hvalue hedits.2).exists_draft hkeep
            (isEncodable_enclose hencodable) hdrafts hnew.2
          have hnone := not_mem_new hdraft (hold ▸ hsource)
          intro hmem
          exact hnone (((List.dropLast_sublist _).trans (List.drop_sublist ..)).subset hmem)

end Script
end LocaleLift
