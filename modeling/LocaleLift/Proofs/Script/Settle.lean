import LocaleLift.Proofs.Literal.Escape
import LocaleLift.Proofs.Script.Grammar
import LocaleLift.Proofs.Script.Literals
import LocaleLift.Proofs.Script.Spread
import LocaleLift.Proofs.Text.Encodable

/-! Scripts and bindings that come to a text which can be encoded: exactly those whose string
literals hold no harmful escape. -/
namespace LocaleLift.Script

open Extract (Meets)

/-- What stands between the quotes of a string literal. -/
def Node.body (source : Text) (n : Node) : Text :=
  ((n.text source).drop 1).dropLast

/-- A string without room for two quotes has nothing between them. -/
theorem Node.cook_body {source : Text} (n : Node) (h : (n.text source).length < 2) :
    Literal.cook (n.body source) = .ok [] := by
  have hbody : n.body source = [] := by
    apply List.eq_nil_of_length_eq_zero
    rw [Node.body, List.length_dropLast, List.length_drop]
    omega
  rw [hbody]
  rfl

/-- A string literal is replaced if its value holds Chinese and nothing fixes it. -/
def Occurrence.IsReplaced (s : Style) (source : Text) (o : Occurrence) : Prop :=
  (∃ v, Literal.cook (o.1.body source) = .ok v ∧ Text.hasHan v = true) ∧
    isFixed source s.scope.function o.1 o.2 = false

instance (s : Style) (source : Text) (o : Occurrence) : Decidable (o.IsReplaced s source) :=
  match h : Literal.cook (o.1.body source) with
  | .error _ => isFalse fun ⟨⟨_, hv, _⟩, _⟩ => by rw [h] at hv; cases hv
  | .ok v => decidable_of_iff
      (Text.hasHan v = true ∧ isFixed source s.scope.function o.1 o.2 = false)
      ⟨fun hv => ⟨⟨v, h, hv.1⟩, hv.2⟩, fun ⟨⟨_, hw, hhan⟩, hfixed⟩ =>
        ⟨Except.ok.inj (h.symm.trans hw) ▸ hhan, hfixed⟩⟩

def AreHarmless (s : Style) (source : Text) (os : List Occurrence) : Prop :=
  ∀ o ∈ os, o.1.kind = .string → Literal.Harmless (o.1.body source) (o.IsReplaced s source)

section Edits

variable {s : Style} {source : Text} (hsource : source.isEncodable = true)
  (hscope : s.scope.IsEncodable) (hquote : s.quote.isEncodable = true)

def AreEncodable (es : List Edit) : Prop :=
  ∀ e ∈ es, e.text.isEncodable = true

include hsource in
theorem Node.isEncodable_body (n : Node) : (n.body source).isEncodable = true :=
  Text.isEncodable_of_subset
    (((List.dropLast_sublist _).trans (List.drop_sublist ..)).subset)
    (Utf8.isEncodable_slice hsource)

include hsource hscope hquote in
private theorem meets_stringEdit (n : Node) (above : List Node) :
    Meets AreEncodable (stringEdit s source n above) ↔
      Literal.Harmless (n.body source) (Occurrence.IsReplaced s source (n, above)) := by
  rw [Literal.harmless_iff (n.isEncodable_body hsource), stringEdit]
  dsimp only
  split
  · rename_i hlength
    exact iff_of_true (Extract.meets_pure.mpr (List.forall_mem_nil _))
      ⟨[], n.cook_body hlength, fun _ => rfl⟩
  · have hcall (v : Text) : Meets AreEncodable (do
        let call ← s.call (Text.trim v)
        let inAttribute := above.head?.any fun p => p.kind == .attribute
        return [Edit.ofRange n.start n.stop
          (if inAttribute then "\x7b" ++ call ++ "\x7d" else call)]) ↔ v.isEncodable = true := by
      rw [← Text.isEncodable_trim v, ← hscope.call hquote]
      change Meets AreEncodable (pure _) ↔ _
      rw [Extract.meets_pure, AreEncodable, List.forall_mem_singleton, Edit.ofRange]
      dsimp only
      split
      · simp [Text.isEncodable_ofString]
      · rfl
    rw [Extract.meets_bind]
    constructor
    · rintro ⟨v, hv, h⟩
      refine ⟨v, hv, ?_⟩
      rintro ⟨⟨w, hw, hhan⟩, hfixed⟩
      obtain rfl := Except.ok.inj (hw.symm.trans hv)
      rw [if_neg (by simp [hhan, hfixed])] at h
      exact (hcall w).mp h
    · rintro ⟨v, hv, h⟩
      refine ⟨v, hv, ?_⟩
      dsimp only
      split
      · exact Extract.meets_pure.mpr (List.forall_mem_nil _)
      · rename_i hreplaced
        simp only [Bool.or_eq_true, Bool.not_eq_true', not_or, Bool.not_eq_false,
          Bool.not_eq_true] at hreplaced
        exact (hcall v).mpr (h ⟨⟨v, hv, hreplaced.1⟩, hreplaced.2⟩)

private theorem isEncodable_asSubstitution (call : Text) :
    (asSubstitution call).isEncodable = call.isEncodable := by
  simp [asSubstitution, Text.isEncodable_ofString]

include hsource in
private theorem isEncodable_pieces_slice {style : RunStyle} {a b : Nat} {p : Piece}
    (hp : p ∈ Text.pieces style (Utf8.slice a b source)) : p.text.isEncodable = true :=
  Text.isEncodable_pieces.mpr (Utf8.isEncodable_slice hsource) p hp

include hsource hscope hquote in
private theorem meets_templateEdits (n : Node) (above : List Node) :
    Meets AreEncodable (templateEdits s source n above) := by
  refine ⟨_, templateEdits_result s source n above, fun e he => ?_⟩
  obtain ⟨r, -, rfl⟩ := List.mem_map.mp he
  refine Text.isEncodable_wrapTemplateRuns (fun t => ?_)
    fun p hp => isEncodable_pieces_slice hsource hp
  rw [isEncodable_asSubstitution, hscope.call hquote]

include hsource hscope hquote in
private theorem meets_elementEdits (n : Node) : Meets AreEncodable (elementEdits s source n) := by
  rw [elementEdits]
  dsimp only
  split
  · exact Extract.meets_pure.mpr (List.forall_mem_nil _)
  · refine ⟨_, rfl, List.forall_mem_singleton.mpr ?_⟩
    refine (Text.isEncodable_wrapRuns (fun t => ?_) _).mpr
      fun p hp => isEncodable_pieces_slice hsource hp
    simp [hscope.call hquote, Text.isEncodable_ofString]

include hsource hscope hquote in
/-- Only strings can spoil the edits of a tree. -/
theorem meets_edits (above : List Node) (n : Node) :
    Meets AreEncodable (edits s source above n) ↔ AreHarmless s source (literals s above n) := by
  rw [edits_eq_gather]
  refine Extract.meets_gather.trans (forall₂_congr fun o _ => ?_)
  obtain ⟨n, above⟩ := o
  change Meets AreEncodable _ ↔ _
  rw [literalEdits]
  split
  · rename_i hk
    exact (meets_stringEdit hsource hscope hquote n above).trans ⟨fun h _ => h, fun h => h hk⟩
  · rename_i hk
    exact iff_of_true (meets_templateEdits hsource hscope hquote n above) fun h => by simp_all
  · rename_i hk _
    exact iff_of_true (meets_elementEdits hsource hscope hquote n) fun h => absurd h hk

theorem edits_error {above : List Node} {n : Node} {d : Dialect} :
    (edits s source above n).result ≠ .error (.unparsable d) := by
  intro h
  rw [edits_eq_gather] at h
  obtain ⟨⟨n, above⟩, -, h⟩ := Extract.gather_eq_error h
  rw [literalEdits] at h
  split at h
  · rw [stringEdit] at h
    dsimp only at h
    split at h
    · cases h
    · rcases Extract.bind_eq_error.mp h with h | ⟨v, -, h⟩
      · cases Literal.cook_eq_error h
      · split at h <;> cases h
  · rw [templateEdits_result] at h
    cases h
  · rw [elementEdits] at h
    dsimp only at h
    split at h <;> cases h

end Edits

/-- The step that carries out edits of a source, if there are any. -/
def finish (source unchanged : Text) (disclose : Text → Text) (es : List Edit) :
    Extract Text :=
  if es.isEmpty then return unchanged
  else return disclose (← Extract.lift (applyEdits source es))

theorem texts_finish (source unchanged : Text) (disclose : Text → Text) (es : List Edit) :
    (finish source unchanged disclose es).texts = [] := by
  rw [finish]
  split
  · rfl
  · cases h : applyEdits source es with
    | error e => rfl
    | ok t => rfl

theorem areEncodable_of_finish {source unchanged t : Text} {disclose : Text → Text}
    {es : List Edit} (h : (finish source unchanged disclose es).result = .ok t) :
    AreEncodable es := by
  rw [finish] at h
  split at h
  · rename_i hempty
    rw [List.isEmpty_iff.mp hempty]
    exact List.forall_mem_nil _
  · obtain ⟨out, h, -⟩ := Extract.bind_eq_ok.mp h
    exact Edit.isEncodable_of_applyEdits h

private theorem meets_finish {source unchanged : Text} {disclose : Text → Text} {a b : Nat}
    {es : List Edit} (hsource : source.isEncodable = true)
    (hunchanged : unchanged.isEncodable = true) (hdisclose : ∀ t, disclose t ⊆ t)
    (hes : Edit.Spread (Utf8.Boundary source) a b es) :
    Meets (fun t => t.isEncodable = true) (finish source unchanged disclose es) ↔
      AreEncodable es := by
  refine ⟨fun ⟨t, h, _⟩ => areEncodable_of_finish h, fun h => ?_⟩
  rw [finish]
  split
  · exact Extract.meets_pure.mpr hunchanged
  · obtain ⟨t, ht, he⟩ := hes.applyEdits hsource h
    exact ⟨disclose t, Extract.bind_eq_ok.mpr ⟨t, ht, rfl⟩,
      Text.isEncodable_of_subset (hdisclose t) he⟩

private theorem isEncodable_of_finish {source unchanged t : Text} {disclose : Text → Text}
    {a b : Nat} {es : List Edit} (hsource : source.isEncodable = true)
    (hunchanged : unchanged.isEncodable = true) (hdisclose : ∀ t, disclose t ⊆ t)
    (hes : Edit.Spread (Utf8.Boundary source) a b es)
    (h : (finish source unchanged disclose es).result = .ok t) : t.isEncodable = true := by
  obtain ⟨u, hu, he⟩ :=
    (meets_finish hsource hunchanged hdisclose hes).mpr (areEncodable_of_finish h)
  obtain rfl := Except.ok.inj (h.symm.trans hu)
  exact he

private theorem finish_error {source unchanged : Text} {disclose : Text → Text} {es : List Edit}
    {d : Dialect} : (finish source unchanged disclose es).result ≠ .error (.unparsable d) := by
  intro h
  rw [finish] at h
  split at h
  · cases h
  · rcases Extract.bind_eq_error.mp h with h | ⟨t, -, h⟩
    · exact Edit.applyEdits_error h
    · cases h

section Script

variable {d : Dialect} {s : Style} {source : Text} (hsource : source.isEncodable = true)
  (hscope : s.scope.IsEncodable) (hquote : s.quote.isEncodable = true)

include hsource in
theorem localize_eq [Parser] : localize d s source =
    match parse? d source with
    | none => Extract.fail (.unparsable d)
    | some root => edits s source [] root >>= finish source source id := by
  rw [localize, hsource]
  cases parse? d source with
  | none => rfl
  | some root =>
    refine congrArg (edits s source [] root >>= ·) (funext fun es => ?_)
    rw [finish]
    split
    · rfl
    · exact (bind_pure _).symm

include hsource hscope hquote in
/-- A script comes to a text that can be encoded exactly if its strings are harmless. -/
theorem meets_localize [Parser] [Parser.IsSound] {root : Node} (h : parse? d source = some root) :
    Meets (fun t => t.isEncodable = true) (localize d s source) ↔
      AreHarmless s source (literals s [] root) := by
  rw [localize_eq hsource, h, ← meets_edits hsource hscope hquote]
  rw [Extract.meets_bind]
  constructor
  · rintro ⟨es, hes, hfinish⟩
    exact ⟨es, hes, (meets_finish hsource hsource (fun t => List.Subset.refl t)
      (edits_spread (parse?_spaced h) [] es hes)).mp hfinish⟩
  · rintro ⟨es, hes, hall⟩
    exact ⟨es, hes, (meets_finish hsource hsource (fun t => List.Subset.refl t)
      (edits_spread (parse?_spaced h) [] es hes)).mpr hall⟩

include hsource in
theorem isEncodable_of_localize [Parser] [Parser.IsSound] {t : Text}
    (h : (localize d s source).result = .ok t) :
    t.isEncodable = true := by
  rw [localize_eq hsource] at h
  split at h
  · cases h
  · rename_i root hroot
    obtain ⟨es, hes, h⟩ := Extract.bind_eq_ok.mp h
    exact isEncodable_of_finish hsource hsource (fun t => List.Subset.refl t)
      (edits_spread (parse?_spaced hroot) [] es hes) h

include hsource in
/-- A script is refused exactly if it is no sentence of its dialect. -/
theorem localize_unparsable [Parser] :
    (∃ d', (localize d s source).result = .error (.unparsable d')) ↔ parse? d source = none := by
  rw [localize_eq hsource]
  cases parse? d source with
  | none => exact iff_of_true ⟨d, rfl⟩ rfl
  | some root =>
    refine iff_of_false ?_ nofun
    rintro ⟨d', h⟩
    rcases Extract.bind_eq_error.mp h with h | ⟨es, -, h⟩
    · exact edits_error h
    · exact finish_error h

/-- If a script is a sentence of its dialect, its strings are harmless. -/
def IsHarmless [Parser] (d : Dialect) (s : Style) (source : Text) : Prop :=
  ∀ root, parse? d source = some root → AreHarmless s source (literals s [] root)

include hsource hscope hquote in
/-- A script comes to a text that can be encoded, or is refused as no sentence of its dialect,
exactly if it is harmless. -/
theorem settles_localize [Parser] [Parser.IsSound] : Extract.Settles (fun t => t.isEncodable = true)
    (localize d s source) ↔
    IsHarmless d s source := by
  rw [Extract.Settles, localize_unparsable hsource, IsHarmless]
  cases hroot : parse? d source with
  | none => exact iff_of_true (.inr rfl) fun _ h => by cases h
  | some root =>
    rw [meets_localize hsource hscope hquote hroot, or_iff_left (Option.some_ne_none root)]
    constructor
    · intro h root' hroot'
      cases hroot'
      exact h
    · exact fun h => h root rfl

end Script

namespace Binding

variable {scope : Scope} {quote expression : Text} (hexpression : expression.isEncodable = true)
  (hscope : scope.IsEncodable) (hquote : quote.isEncodable = true)

include hexpression in
theorem isEncodable_enclose : (enclose expression).isEncodable = true := by
  simp [enclose, opening, closing, hexpression, Text.isEncodable_ofString]

private theorem meets_phraseEdits {source : Text} (hsource : source.isEncodable = true)
    (hscope : scope.IsEncodable) (hquote : quote.isEncodable = true) (above : List Node)
    (n : Node) : Meets AreEncodable (phraseEdits scope quote source above n) := by
  have hok := (finds_phraseEdits scope quote source above n).2
  refine ⟨_, hok, fun e he => ?_⟩
  obtain ⟨_, -, r, -, rfl⟩ := exists_of_mem_phraseEdits hok he
  refine Text.isEncodable_wrapTemplateRuns (fun t => ?_)
    fun p hp => isEncodable_pieces_slice hsource hp
  rw [isEncodable_asSubstitution, hscope.call hquote, Text.isEncodable_trim]

/-- A code point that does not stand in front of an expression is in it, or behind it. -/
theorem size_opening_le {before after : Text} {c : CodePoint}
    (h : enclose expression = before ++ c :: after) (hc : c ∉ opening) :
    Utf8.size opening ≤ Utf8.size before := by
  rw [enclose, List.append_assoc] at h
  rcases List.append_eq_append_iff.mp h with ⟨u, rfl, -⟩ | ⟨u, hopening, hrest⟩
  · rw [Utf8.size_append]
    exact Nat.le_add_right ..
  · cases u with
    | nil => rw [hopening, List.append_nil]
    | cons d u =>
      obtain ⟨rfl, -⟩ := List.cons.inj hrest
      exact absurd (by simp [hopening]) hc

/-- So it is in the expression, or in front of it, if it does not stand behind. -/
theorem size_le_of_not_mem_closing {before after : Text} {c : CodePoint}
    (h : enclose expression = before ++ [c] ++ after) (hc : c ∉ closing) :
    Utf8.size (before ++ [c]) ≤ Utf8.size (opening ++ expression) := by
  rcases List.eq_nil_or_concat after with rfl | ⟨more, d, rfl⟩
  · rw [List.append_nil] at h
    obtain ⟨-, hlast⟩ := List.append_inj' h rfl
    exact absurd (hlast ▸ List.mem_singleton.mpr rfl) hc
  · rw [List.concat_eq_append, ← List.append_assoc] at h
    rw [(List.append_inj' h rfl).1, Utf8.size_append _ more]
    exact Nat.le_add_right ..

def style (scope : Scope) (quote : Text) : Style :=
  ⟨scope, quote, false, false⟩

/-- If an expression is to be localized, its strings are harmless. -/
def IsHarmless [Parser] (scope : Scope) (quote expression : Text) : Prop :=
  ∀ value, parse? expression = some value →
    hasLookupCall (enclose expression) scope.function value = false →
    AreHarmless (style scope quote) (enclose expression) (literals (style scope quote) [] value)

/-- The edits for an expression: those for its strings, or else those for its templates. -/
def allEdits (scope : Scope) (quote source : Text) (value : Node) :
    Extract (List Edit) := do
  let es ← edits (style scope quote) source [] value
  if es.isEmpty then phraseEdits scope quote source [] value else return es

include hexpression in
theorem localize_eq [Parser] : localize scope quote expression =
    match parse? expression with
    | none => do
      Extract.warn (.unparsedBinding expression)
      return expression
    | some value =>
      if hasLookupCall (enclose expression) scope.function value then return expression
      else allEdits scope quote (enclose expression) value >>=
        finish (enclose expression) expression disclose := by
  rw [localize, hexpression]
  cases parse? expression with
  | none => rfl
  | some value =>
    rw [if_neg (by decide)]
    refine ite_congr rfl (fun _ => rfl) fun _ => ?_
    rw [allEdits, bind_assoc]
    refine congrArg (edits (style scope quote) _ [] value >>= ·) (funext fun es => ?_)
    split <;> rfl

include hexpression hscope hquote in
private theorem meets_allEdits (value : Node) :
    Meets AreEncodable (allEdits scope quote (enclose expression) value) ↔
      AreHarmless (style scope quote) (enclose expression)
        (literals (style scope quote) [] value) := by
  have hsource := isEncodable_enclose hexpression
  rw [← meets_edits (s := style scope quote) hsource hscope hquote, allEdits, Extract.meets_bind]
  refine exists_congr fun es => and_congr_right fun _ => ?_
  dsimp only
  split
  · rename_i hempty
    rw [List.isEmpty_iff.mp hempty]
    exact iff_of_true (meets_phraseEdits hsource hscope hquote [] value) (List.forall_mem_nil _)
  · exact Extract.meets_pure

theorem allEdits_spread [Parser] [Parser.IsSound] {value : Node} {es : List Edit}
    (h : parse? expression = some value)
    (hes : (allEdits scope quote (enclose expression) value).result = .ok es) :
    Edit.Spread (Utf8.Boundary (enclose expression)) value.start value.stop es := by
  obtain ⟨fs, hfs, hes⟩ := Extract.bind_eq_ok.mp hes
  split at hes
  · exact phraseEdits_spread (parse?_spaced h)
      ((parse?_parsed h).imp fun _ hn => hn.toProper.isFlat) [] es hes
  · obtain rfl := Except.ok.inj hes
    exact edits_spread (parse?_spaced h) [] fs hfs

private theorem disclose_subset (t : Text) : disclose t ⊆ t :=
  ((List.dropLast_sublist _).trans (List.drop_sublist ..)).subset

include hexpression hscope hquote in
/-- An expression comes to a text that can be encoded exactly if its strings are harmless, as far
as it is to be localized at all. -/
theorem meets_localize [Parser] [Parser.IsSound] : Meets (fun t => t.isEncodable = true)
    (localize scope quote expression) ↔
    IsHarmless scope quote expression := by
  have hsource := isEncodable_enclose hexpression
  rw [localize_eq hexpression, IsHarmless]
  split
  · rename_i hnone
    refine iff_of_true ⟨expression, rfl, hexpression⟩ fun value h => ?_
    rw [hnone] at h
    cases h
  · rename_i value hvalue
    split
    · rename_i hcall
      refine iff_of_true (Extract.meets_pure.mpr hexpression) fun value' h hno => ?_
      obtain rfl := Option.some.inj (hvalue.symm.trans h)
      rw [hcall] at hno
      cases hno
    · rename_i hcall
      have hone : (∀ value', parse? expression = some value' →
          hasLookupCall (enclose expression) scope.function value' = false →
          AreHarmless (style scope quote) (enclose expression)
            (literals (style scope quote) [] value')) ↔
          AreHarmless (style scope quote) (enclose expression)
            (literals (style scope quote) [] value) := by
        constructor
        · exact fun h => h value hvalue (by simpa using hcall)
        · intro h value' hvalue' _
          obtain rfl := Option.some.inj (hvalue.symm.trans hvalue')
          exact h
      rw [hone, ← meets_allEdits hexpression hscope hquote, Extract.meets_bind]
      refine exists_congr fun es => and_congr_right fun hes => ?_
      exact meets_finish hsource hexpression disclose_subset (allEdits_spread hvalue hes)

include hexpression in
theorem isEncodable_of_localize [Parser] [Parser.IsSound] {t : Text}
    (h : (localize scope quote expression).result = .ok t) : t.isEncodable = true := by
  rw [localize_eq hexpression] at h
  split at h
  · obtain rfl := Except.ok.inj h
    exact hexpression
  · rename_i value hvalue
    split at h
    · obtain rfl := Except.ok.inj h
      exact hexpression
    · obtain ⟨es, hes, h⟩ := Extract.bind_eq_ok.mp h
      exact isEncodable_of_finish (isEncodable_enclose hexpression) hexpression disclose_subset
        (allEdits_spread hvalue hes) h

include hexpression hscope hquote in
theorem localize_error [Parser] {d : Dialect} :
    (localize scope quote expression).result ≠ .error (.unparsable d) := by
  intro h
  rw [localize_eq hexpression] at h
  split at h
  · rcases Extract.bind_eq_error.mp h with h | ⟨_, -, h⟩ <;> cases h
  · rename_i value _
    split at h
    · cases h
    · rcases Extract.bind_eq_error.mp h with h | ⟨es, -, h⟩
      · rcases Extract.bind_eq_error.mp h with h | ⟨fs, -, h⟩
        · exact edits_error h
        · split at h
          · obtain ⟨es, hes, -⟩ := meets_phraseEdits (isEncodable_enclose hexpression) hscope hquote
              [] value
            rw [hes] at h
            cases h
          · cases h
      · exact finish_error h

end Binding

end LocaleLift.Script
