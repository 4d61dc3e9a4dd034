import LocaleLift.Proofs.Literal.Plain
import LocaleLift.Proofs.Script.Due
import LocaleLift.Proofs.Script.Settle
import LocaleLift.Proofs.Text.Runs

/-! A localized script is its source with passages swapped for calls, if the texts found in it hold no
quote and no angle bracket. -/
namespace LocaleLift.Script

open Edit (HasDraft hasDraft_ofRange)
open Extract (Finds)

/-- Names that hold no quote and no angle bracket, and a quote. -/
structure Style.IsPlain (s : Style) : Prop where
  scope : s.scope.IsPlain
  quote : ∃ q, CodePoint.IsQuote q ∧ s.quote = [q]

variable {s : Style} {source : Text}

theorem Node.Parsed.wellFormed {n : Node} (h : n.Parsed source) : n.WellFormed source where
  ordered := h.ordered
  quoted hk := by
    obtain ⟨q, body, -, htext⟩ := h.literal hk
    rw [htext, List.length_cons, List.length_append]
    exact Nat.le_add_left 2 _

namespace Style.IsPlain

variable (h : s.IsPlain) {t : Text} (ht : t.IsPlain)

include h ht

private theorem isPassage_call : Text.IsPassage (s.scope.call s.quote t) := by
  obtain ⟨q, hq, hquote⟩ := h.quote
  rw [hquote, ← List.append_nil (s.scope.call [q] t), ← List.nil_append (s.scope.call [q] t)]
  exact h.scope.isPassage_call hq ht (by decide) (by decide) (.inl rfl) (.inl rfl)

private theorem isPassage_braces :
    Text.IsPassage ("\x7b" ++ s.scope.call s.quote t ++ "\x7d") := by
  obtain ⟨q, hq, hquote⟩ := h.quote
  rw [hquote]
  exact h.scope.isPassage_call hq ht (by decide) (by decide) (.inr ⟨_, _, rfl, by decide⟩)
    (.inr ⟨[], _, rfl, by decide⟩)

private theorem isPassage_asSubstitution :
    Text.IsPassage (asSubstitution (s.scope.call s.quote t)) := by
  obtain ⟨q, hq, hquote⟩ := h.quote
  rw [hquote]
  exact h.scope.isPassage_call hq ht (by decide) (by decide) (.inr ⟨_, _, rfl, by decide⟩)
    (.inr ⟨[], _, rfl, by decide⟩)

end Style.IsPlain

private theorem hasDraft_string {o : Occurrence} (h : s.IsPlain) (ho : o.1.Parsed source)
    (hk : o.1.kind = .string) {value : Text} (hcook : Literal.cook (o.1.body source) = .ok value)
    {d : Due} (hd : d ∈ o.stringDues s source value) (hplain : ∀ t ∈ d.texts, t.IsPlain) :
    (d.edit s).HasDraft Stretch.IsTight source := by
  obtain ⟨q, body, hq, htext⟩ := ho.literal hk
  have hbody : o.1.body source = body := by
    rw [Node.body, htext]
    exact List.dropLast_concat
  rw [Occurrence.stringDues] at hd
  split at hd
  · obtain rfl := List.mem_singleton.mp hd
    have hvalue : (Text.trim value).IsPlain := hplain _ (List.mem_singleton.mpr rfl)
    have hold : Text.IsPassage (o.1.text source) := by
      rw [htext]
      refine Text.isPassage_quoted hq (Literal.isPlain_of_cook (hbody ▸ hcook) ?_)
      exact Text.isPlain_trim.mp hvalue
    refine hasDraft_ofRange [.swapped (o.1.text source) _]
      (List.forall_mem_singleton.mpr ⟨hold, ?_⟩) (List.append_nil _) (List.append_nil _)
    dsimp only
    rw [Text.wrapRuns, List.append_nil]
    split
    · exact h.isPassage_braces hvalue
    · rw [List.nil_append, List.append_nil]
      exact h.isPassage_call hvalue
  · cases hd

/-- Runs are swapped for substitutions in what a range of a source holds. -/
private theorem hasDraft_template (style : RunStyle) {f : Text → Text}
    (hf : ∀ r, r.IsPlain → (f r).IsPassage) (a b : Nat) :
    HasDraft Stretch.IsTight source (.ofRange a b
      (Text.wrapTemplateRuns f (Text.pieces style (Utf8.slice a b source)))) := by
  have hruns (r : Text) (hr : .run r ∈ Text.pieces style (Utf8.slice a b source)) :
      r.IsPassage ∧ (f r).IsPassage := by
    have hrun := Text.isRun_of_mem_pieces hr
    exact ⟨hrun.isPassage, hf r hrun.isPlain⟩
  obtain ⟨draft, htight, hold, hnew⟩ := Text.exists_draft_wrapTemplateRuns hruns
  exact hasDraft_ofRange draft htight (hold.trans (Text.flatten_pieces ..)) hnew

/-- The edits that are due swap passages for calls, if what they find holds no quote and no angle
bracket. -/
theorem hasDraft_of_mem_dues {o : Occurrence} (h : s.IsPlain) (ho : o.1.Parsed source) {d : Due}
    (hd : d ∈ o.dues s source) (hplain : ∀ t ∈ d.texts, t.IsPlain) :
    (d.edit s).HasDraft Stretch.IsTight source := by
  rw [Occurrence.dues] at hd
  split at hd
  · rename_i hk
    split at hd
    · exact hasDraft_string h ho hk ‹_› hd hplain
    · cases hd
  · split at hd
    · obtain ⟨r, -, rfl⟩ := List.mem_map.mp hd
      rw [Due.edit, ← wrapTemplateRuns_eq]
      exact hasDraft_template .ideographs (fun r hr => h.isPassage_asSubstitution hr) r.1 r.2
    · cases hd
  · split at hd
    · obtain rfl := List.mem_singleton.mp hd
      have hruns (r : Text) (hr : .run r ∈ Text.pieces .ideographs (o.1.text source)) :
          r.IsPassage ∧ Text.IsPassage ("\x7b" ++ s.scope.call s.quote r ++ "\x7d") := by
        have hrun := Text.isRun_of_mem_pieces hr
        exact ⟨hrun.isPassage, h.isPassage_braces hrun.isPlain⟩
      obtain ⟨draft, htight, hold, hnew⟩ := Text.exists_draft_wrapRuns hruns
      exact hasDraft_ofRange draft htight (hold.trans (Text.flatten_pieces ..)) hnew
    · cases hd
  · cases hd

theorem hasDraft_edits {n : Node} (h : s.IsPlain) (hn : n.All (Node.Parsed source)) {ts : List Text}
    {es : List Edit} (hfinds : Finds ts es (edits s source [] n)) (hts : ∀ t ∈ ts, t.IsPlain) :
    ∀ e ∈ es, e.HasDraft Stretch.IsTight source := by
  obtain ⟨-, rfl, rfl⟩ := (yields_literals (hn.imp fun _ => Node.Parsed.wellFormed) ts es).mp hfinds
  intro e he
  obtain ⟨d, hd, rfl⟩ := List.mem_map.mp he
  obtain ⟨o, ho, hdo⟩ := List.mem_flatMap.mp hd
  have hnode := all_of_mem_occurrences hn (List.forall_mem_nil _) (List.mem_filter.mp ho).1
  refine hasDraft_of_mem_dues h hnode.1 hdo ?_
  exact fun t ht => hts t (List.mem_flatMap.mpr ⟨d, hd, ht⟩)

private theorem exists_draft_finish {unchanged out : Text} {disclose : Text → Text} {a b : Nat}
    {ts : List Text} {es : List Edit} (hsource : source.isEncodable = true)
    (hes : Edit.Spread (Utf8.Boundary source) a b es)
    (hdrafts : ∀ e ∈ es, e.HasDraft Stretch.IsTight source)
    (h : Finds ts out (finish source unchanged disclose es)) :
    out = unchanged ∨ ∃ draft : Draft, draft.IsTight ∧ draft.old = source ∧
      disclose draft.new = out := by
  rw [finish] at h
  split at h
  · exact .inl (Except.ok.inj h.2).symm
  · obtain ⟨new, hnew, rfl⟩ := Extract.finds_map.mp h
    obtain ⟨draft, htight, hold, rfl⟩ := hes.exists_draft (fun _ => trivial) hsource hdrafts hnew.2
    exact .inr ⟨draft, htight, hold, rfl⟩

/-- A script is localized by swapping passages in it. -/
theorem exists_draft_localize [Parser] [Parser.IsSound] {d : Dialect} {ts : List Text} {out : Text}
    (h : s.IsPlain)
    (hfinds : Finds ts out (localize d s source)) (hts : ∀ t ∈ ts, t.IsPlain) :
    ∃ draft : Draft, draft.IsTight ∧ draft.old = source ∧ draft.new = out := by
  cases hsource : source.isEncodable with
  | false =>
    rw [localize, hsource] at hfinds
    cases hfinds.2
  | true =>
    rw [localize_eq hsource] at hfinds
    split at hfinds
    · cases hfinds.2
    · rename_i root hroot
      obtain ⟨us, es, vs, hedits, hfinish, rfl⟩ := Extract.finds_bind.mp hfinds
      obtain ⟨hus, -⟩ := List.forall_mem_append.mp hts
      have hdrafts := hasDraft_edits h (parse?_parsed hroot) hedits hus
      have hspread := edits_spread (parse?_spaced hroot) [] es hedits.2
      rcases exists_draft_finish hsource hspread hdrafts hfinish with rfl | hdraft
      · exact ⟨Draft.keep _, Draft.isTight_keep _, Draft.old_keep _, Draft.new_keep _⟩
      · exact hdraft

namespace Binding

variable {scope : Scope} {quote : Text}

private theorem hasDraft_phraseEdits (h : (style scope quote).IsPlain) {above : List Node}
    {n : Node} {es : List Edit} (hes : (phraseEdits scope quote source above n).result = .ok es) :
    ∀ e ∈ es, e.HasDraft Stretch.IsTight source := by
  intro e he
  obtain ⟨_, -, r, -, rfl⟩ := exists_of_mem_phraseEdits hes he
  exact hasDraft_template .phrase
    (fun t ht => h.isPassage_asSubstitution (Text.isPlain_trim.mpr ht)) r.1 r.2

private theorem hasDraft_allEdits (h : (style scope quote).IsPlain) {value : Node}
    (hvalue : value.All (Node.Parsed source)) {ts : List Text} {es : List Edit}
    (hfinds : Finds ts es (allEdits scope quote source value)) (hts : ∀ t ∈ ts, t.IsPlain) :
    ∀ e ∈ es, e.HasDraft Stretch.IsTight source := by
  obtain ⟨us, fs, vs, hedits, hrest, rfl⟩ := Extract.finds_bind.mp hfinds
  split at hrest
  · exact hasDraft_phraseEdits h hrest.2
  · obtain ⟨-, rfl⟩ := Extract.finds_pure.mp hrest
    exact hasDraft_edits h hvalue hedits (List.forall_mem_append.mp hts).1

/-- No passage reaches out of an expression into the script around it. -/
private theorem exists_draft_disclose {expression : Text} {draft : Draft} (h : draft.IsTight)
    (hold : draft.old = enclose expression) :
    ∃ inner : Draft, inner.IsTight ∧ inner.old = expression ∧ inner.new = disclose draft.new := by
  rw [enclose, List.append_assoc] at hold
  obtain ⟨more, rfl, hmore, hold⟩ := h.exists_first hold (by decide)
  obtain ⟨inner, rfl, hinner, hold⟩ := hmore.exists_last hold (by decide)
  refine ⟨inner, hinner, hold, ?_⟩
  rw [disclose, Draft.new_append, Draft.new_append, Draft.new_keep, Draft.new_keep, List.drop_left]
  exact List.dropLast_concat.symm

/-- So is an expression. -/
theorem exists_draft_localize [Parser] [Parser.IsSound] {expression : Text} {ts : List Text}
    {out : Text}
    (h : (style scope quote).IsPlain) (hfinds : Finds ts out (localize scope quote expression))
    (hts : ∀ t ∈ ts, t.IsPlain) :
    ∃ draft : Draft, draft.IsTight ∧ draft.old = expression ∧ draft.new = out := by
  have hkeep : ∃ draft : Draft, draft.IsTight ∧ draft.old = expression ∧ draft.new = expression :=
    ⟨Draft.keep expression, Draft.isTight_keep expression, Draft.old_keep expression,
      Draft.new_keep expression⟩
  cases hexpression : expression.isEncodable with
  | false =>
    rw [localize, hexpression] at hfinds
    cases hfinds.2
  | true =>
    rw [localize_eq hexpression] at hfinds
    split at hfinds
    · obtain rfl := Except.ok.inj hfinds.2
      exact hkeep
    · rename_i value hvalue
      split at hfinds
      · obtain rfl := Except.ok.inj hfinds.2
        exact hkeep
      · obtain ⟨us, es, vs, hedits, hfinish, rfl⟩ := Extract.finds_bind.mp hfinds
        obtain ⟨hus, -⟩ := List.forall_mem_append.mp hts
        have hdrafts := hasDraft_allEdits h (parse?_parsed hvalue) hedits hus
        have hspread := allEdits_spread hvalue hedits.2
        rcases exists_draft_finish (isEncodable_enclose hexpression) hspread hdrafts hfinish with
          rfl | ⟨draft, htight, hold, rfl⟩
        · exact hkeep
        · exact exists_draft_disclose htight hold

end Binding

end LocaleLift.Script
