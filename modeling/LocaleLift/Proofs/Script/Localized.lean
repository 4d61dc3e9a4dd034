import LocaleLift.Proofs.Script.Settle

/-! Scripts and bindings that are localized: to localize them changes nothing and finds nothing. -/
namespace LocaleLift.Script

open Extract (RestsAt)

/-- No Chinese stands in the static text of a template. -/
def Node.IsWordless (source : Text) (n : Node) : Prop :=
  ∀ r ∈ n.staticRanges, Text.hasHan (Utf8.slice r.1 r.2 source) = false

/-- Nothing is left to do for a literal: a string can be cooked and holds no Chinese, or is fixed;
a template holds no Chinese outside substitutions, or is tagged; an element holds no Chinese. -/
def Occurrence.IsSettled (function source : Text) (o : Occurrence) : Prop :=
  match o.1.kind with
  | .string => ∃ v, Literal.cook (o.1.body source) = .ok v ∧
      (Text.hasHan v = true → isFixed source function o.1 o.2 = true)
  | .template => isTagged o.1 o.2 = true ∨ o.1.IsWordless source
  | _ => Text.hasHan (o.1.text source) = false

section Edits

variable {s : Style} {source : Text}

private theorem restsAt_stringEdit (n : Node) (above : List Node) :
    RestsAt [] (∃ v, Literal.cook (n.body source) = .ok v ∧
      (Text.hasHan v = true → isFixed source s.scope.function n above = true))
      (stringEdit s source n above) := by
  rw [stringEdit]
  dsimp only
  split
  · rename_i hlength
    exact (Extract.restsAt_pure []).congr
      (iff_of_true trivial ⟨[], n.cook_body hlength, fun h => by cases h⟩)
  · change RestsAt [] (∃ v, Literal.cook (n.body source) = _ ∧ _)
      (Extract.lift (Literal.cook (n.body source)) >>= _)
    cases hcook : Literal.cook (n.body source) with
    | error e =>
      refine Extract.restsAt_fail ?_ e
      rintro ⟨_, h, -⟩
      cases h
    | ok v =>
      have hone : (∃ w, Except.ok v = (.ok w : Except Failure Text) ∧
          (Text.hasHan w = true → isFixed source s.scope.function n above = true)) ↔
          (Text.hasHan v = true → isFixed source s.scope.function n above = true) := by
        constructor
        · rintro ⟨w, hw, h⟩
          cases hw
          exact h
        · exact fun h => ⟨v, rfl, h⟩
      refine RestsAt.congr ?_ hone.symm
      change RestsAt [] _ (pure v >>= _)
      rw [pure_bind]
      split
      · rename_i hkeep
        refine (Extract.restsAt_pure []).congr (iff_of_true trivial fun hhan => ?_)
        simpa [hhan] using hkeep
      · rename_i hreplaced
        simp only [Bool.or_eq_true, Bool.not_eq_true', not_or, Bool.not_eq_false,
          Bool.not_eq_true] at hreplaced
        refine fun es => iff_of_false (fun h => by cases h.1) fun h => ?_
        have := h.2 hreplaced.1
        rw [hreplaced.2] at this
        cases this

/-- Ranges of a source with their texts in pieces, as far as Chinese stands in them. -/
private abbrev chinese (style : RunStyle) (source : Text) (rs : List (Nat × Nat)) :
    List (Nat × Nat × List Piece) :=
  (rs.map fun (a, b) => (a, b, Text.pieces style (Utf8.slice a b source))).filter
    fun (_, _, ps) => ps.any fun p => p.run?.isSome

private theorem chinese_eq_nil (style : RunStyle) {rs : List (Nat × Nat)} :
    chinese style source rs = [] ↔
      ∀ r ∈ rs, Text.hasHan (Utf8.slice r.1 r.2 source) = false := by
  rw [chinese, List.filter_eq_nil_iff, List.forall_mem_map]
  refine forall₂_congr fun r _ => ?_
  dsimp only
  rw [Text.any_run_pieces, Bool.not_eq_true]

private theorem runs_chinese_eq_nil (style : RunStyle) {rs : List (Nat × Nat)} :
    ((chinese style source rs).flatMap fun (_, _, ps) => ps.filterMap Piece.run?) = [] ↔
      ∀ r ∈ rs, Text.hasHan (Utf8.slice r.1 r.2 source) = false := by
  rw [← chinese_eq_nil style, List.flatMap_eq_nil_iff, List.eq_nil_iff_forall_not_mem]
  refine forall₂_congr fun c hc => iff_of_false (fun hnil => ?_) id
  obtain ⟨p, hp, hrun⟩ := List.any_eq_true.mp (List.mem_filter.mp hc).2
  have := List.filterMap_eq_nil_iff.mp hnil p hp
  rw [this] at hrun
  cases hrun

private theorem restsAt_templateEdits (n : Node) (above : List Node) :
    RestsAt [] (isTagged n above = true ∨ n.IsWordless source)
      (templateEdits s source n above) := by
  rw [templateEdits]
  split
  · rename_i htagged
    exact (Extract.restsAt_pure []).congr (iff_of_true trivial (.inl htagged))
  · rename_i htagged
    refine RestsAt.congr ?_ (or_iff_right htagged).symm
    refine ((Extract.restsAt_found _).bind fun h => ?_).congr
      ((and_iff_left trivial).trans (runs_chinese_eq_nil .ideographs))
    rw [show List.filter _ _ = [] from
      (chinese_eq_nil .ideographs).mpr ((runs_chinese_eq_nil .ideographs).mp h)]
    exact Extract.restsAt_pure []

private theorem restsAt_elementEdits (n : Node) :
    RestsAt [] (Text.hasHan (n.text source) = false) (elementEdits s source n) := by
  rw [elementEdits]
  dsimp only
  split
  · rename_i hhan
    exact (Extract.restsAt_pure []).congr (iff_of_true trivial (by simpa using hhan))
  · rename_i hhan
    refine fun es => iff_of_false (fun h => hhan ?_) fun h => hhan (by simp [h.2])
    have hruns : Text.runs .ideographs (n.text source) = [] := (List.append_eq_nil_iff.mp h.1).1
    simp [Text.runs_eq_nil.mp hruns]

private theorem restsAt_literalEdits (o : Occurrence) :
    RestsAt [] (o.IsSettled s.scope.function source) (literalEdits s source o) := by
  obtain ⟨n, above⟩ := o
  by_cases hstring : n.kind = .string
  · have hedits : literalEdits s source (n, above) = stringEdit s source n above := by
      simp only [literalEdits, hstring]
    have hsettled : Occurrence.IsSettled s.scope.function source (n, above) ↔
        ∃ v, Literal.cook (n.body source) = .ok v ∧
          (Text.hasHan v = true → isFixed source s.scope.function n above = true) := by
      simp only [Occurrence.IsSettled, hstring]
    rw [hedits, hsettled]
    exact restsAt_stringEdit n above
  by_cases htemplate : n.kind = .template
  · have hedits : literalEdits s source (n, above) = templateEdits s source n above := by
      simp only [literalEdits, htemplate]
    have hsettled : Occurrence.IsSettled s.scope.function source (n, above) ↔
        isTagged n above = true ∨ n.IsWordless source := by
      simp only [Occurrence.IsSettled, htemplate]
    rw [hedits, hsettled]
    exact restsAt_templateEdits n above
  · have hedits : literalEdits s source (n, above) = elementEdits s source n := by
      rw [literalEdits]
      split
      · exact absurd ‹_› hstring
      · exact absurd ‹_› htemplate
      · rfl
    have hsettled : Occurrence.IsSettled s.scope.function source (n, above) ↔
        Text.hasHan (n.text source) = false := by
      rw [Occurrence.IsSettled]
      split
      · exact absurd ‹_› hstring
      · exact absurd ‹_› htemplate
      · rfl
    rw [hedits, hsettled]
    exact restsAt_elementEdits n

/-- A tree gives rise to no edit exactly if nothing is left to do for its literals. -/
private theorem restsAt_edits (s : Style) (source : Text) (above : List Node) (n : Node) :
    RestsAt [] (∀ o ∈ literals s above n, o.IsSettled s.scope.function source)
      (edits s source above n) := by
  rw [edits_eq_gather]
  exact Extract.restsAt_gather fun o _ => restsAt_literalEdits o

end Edits

/-- A script is localized if it can be encoded, is a sentence of its dialect, and nothing is left to
do for its literals. -/
structure IsLocalized [Parser] (d : Dialect) (s : Style) (source : Text) : Prop where
  encodable : source.isEncodable = true
  settled : ∃ root, parse? d source = some root ∧
    ∀ o ∈ literals s [] root, o.IsSettled s.scope.function source

/-- Localizing a script leaves it as it is exactly if it is localized. -/
theorem restsAt_localize [Parser] (d : Dialect) (s : Style) (source : Text) :
    RestsAt source (IsLocalized d s source) (localize d s source) := by
  rw [localize]
  cases hsource : source.isEncodable with
  | false =>
    refine Extract.restsAt_fail (fun h => ?_) .notEncodable
    rw [h.encodable] at hsource
    cases hsource
  | true =>
    cases hroot : parse? d source with
    | none =>
      refine Extract.restsAt_fail (fun h => ?_) (.unparsable d)
      obtain ⟨root, hroot', -⟩ := h.settled
      rw [hroot] at hroot'
      cases hroot'
    | some root =>
      refine ((restsAt_edits s source [] root).bind fun _ => Extract.restsAt_pure source).congr ?_
      rw [and_true]
      constructor
      · exact fun h => ⟨hsource, root, hroot, h⟩
      · rintro ⟨-, root', hroot', h⟩
        obtain rfl := Option.some.inj (hroot.symm.trans hroot')
        exact h

namespace Binding

/-- No template among some nodes has Chinese outside its substitutions, unless it is tagged. -/
def AreWordless (source : Text) (os : List Occurrence) : Prop :=
  ∀ o ∈ os, o.1.kind = .template → isTagged o.1 o.2 = true ∨ o.1.IsWordless source

/-- An expression is localized if it can be encoded, and, as far as it is one expression, holds a
call or nothing is left to do for its strings and templates. -/
structure IsLocalized [Parser] (scope : Scope) (quote expression : Text) : Prop where
  encodable : expression.isEncodable = true
  settled : ∀ value, parse? expression = some value →
    hasLookupCall (enclose expression) scope.function value = true ∨
      (∀ o ∈ literals (style scope quote) [] value,
        o.IsSettled scope.function (enclose expression)) ∧
      AreWordless (enclose expression) (occurrences [] value)

section Bindings

variable {scope : Scope} {quote : Text}

private theorem phraseRanges_eq_nil {source : Text} {o : Occurrence} :
    phraseRanges source o = [] ↔
      (o.1.kind = .template → isTagged o.1 o.2 = true ∨ o.1.IsWordless source) := by
  rw [List.eq_nil_iff_forall_not_mem]
  simp only [mem_phraseRanges, not_and, and_imp, Bool.not_eq_true]
  refine ⟨fun h hk => ?_, fun h r hk huntagged hr => ?_⟩
  · cases htagged : isTagged o.1 o.2 with
    | true => exact .inl rfl
    | false => exact .inr fun r hr => h r hk htagged hr
  · rcases h hk with htagged | hwordless
    · rw [htagged] at huntagged
      cases huntagged
    · exact hwordless r hr

private theorem restsAt_phraseEdits (source : Text) (above : List Node) (n : Node) :
    RestsAt [] (AreWordless source (occurrences above n))
      (phraseEdits scope quote source above n) := by
  have hfinds := finds_phraseEdits scope quote source above n
  have htexts : (phraseEdits scope quote source above n).texts = [] ↔
      AreWordless source (occurrences above n) := by
    rw [hfinds.1, List.flatMap_eq_nil_iff]
    refine forall₂_congr fun o _ => ?_
    rw [← phraseRanges_eq_nil, List.flatMap_eq_nil_iff, List.eq_nil_iff_forall_not_mem]
    exact forall₂_congr fun r hr => iff_of_false (phraseTexts_ne_nil hr) id
  intro es
  rw [Extract.Quiet, htexts, and_comm]
  refine and_congr_left fun hwordless => ?_
  rw [hfinds.2, List.flatMap_eq_nil_iff.mpr fun o ho => ?_]
  · exact ⟨fun h => (Except.ok.inj h).symm, fun h => congrArg Except.ok h.symm⟩
  · rw [phraseRanges_eq_nil.mpr (hwordless o ho), List.map_nil]

/-- Localizing an expression leaves it as it is exactly if it is localized. -/
theorem restsAt_localize [Parser] (scope : Scope) (quote expression : Text) :
    RestsAt expression (IsLocalized scope quote expression) (localize scope quote expression) := by
  rw [localize]
  cases hencodable : expression.isEncodable with
  | false =>
    refine Extract.restsAt_fail (fun h => ?_) .notEncodable
    rw [h.encodable] at hencodable
    cases hencodable
  | true =>
    cases hvalue : parse? expression with
    | none =>
      refine (Extract.restsAt_pure expression).congr (iff_of_true trivial ⟨hencodable, ?_⟩)
      rw [hvalue]
      intro value h
      cases h
    | some value =>
      have hlocalized : (hasLookupCall (enclose expression) scope.function value = true ∨
          (∀ o ∈ literals (style scope quote) [] value,
            o.IsSettled scope.function (enclose expression)) ∧
          AreWordless (enclose expression) (occurrences [] value)) ↔
          IsLocalized scope quote expression := by
        constructor
        · intro h
          refine ⟨hencodable, fun v hv => ?_⟩
          obtain rfl := Option.some.inj (hvalue.symm.trans hv)
          exact h
        · exact fun h => h.settled value hvalue
      refine RestsAt.congr ?_ hlocalized
      change RestsAt expression _ (if hasLookupCall (enclose expression) scope.function value then
        pure expression else _)
      split
      · rename_i hcall
        exact (Extract.restsAt_pure expression).congr (iff_of_true trivial (.inl hcall))
      · rename_i hcall
        refine RestsAt.congr ?_ (or_iff_right hcall).symm
        have hedits := restsAt_edits (style scope quote) (enclose expression) [] value
        refine (hedits.bind fun _ => ?_).congr Iff.rfl
        refine ((restsAt_phraseEdits (enclose expression) [] value).bind fun _ =>
          Extract.restsAt_pure expression).congr (and_iff_left trivial)

end Bindings

end Binding

end LocaleLift.Script
