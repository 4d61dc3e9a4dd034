import LocaleLift.Proofs.Script.Settle
import LocaleLift.Proofs.Text.Entry

/-! What is found in scripts and bindings: Chinese, without white space around it. -/
namespace LocaleLift.Script

open Extract (FindsOnly)
open Text (IsEntry)

section Edits

variable {s : Style} {source : Text}

private theorem findsOnly_stringEdit (n : Node) (above : List Node) :
    FindsOnly IsEntry (stringEdit s source n above) := by
  rw [stringEdit]
  dsimp only
  split
  · exact Extract.findsOnly_pure []
  · refine (Extract.findsOnly_lift _).bind fun v _ => ?_
    split
    · exact Extract.findsOnly_pure []
    · rename_i hreplaced
      simp only [Bool.or_eq_true, Bool.not_eq_true', not_or, Bool.not_eq_false] at hreplaced
      have hcall : FindsOnly IsEntry (s.call (Text.trim v)) :=
        (Extract.findsOnly_text (Text.isEntry_trim hreplaced.1)).bind
          fun _ _ => Extract.findsOnly_pure _
      exact hcall.bind fun _ _ => Extract.findsOnly_pure _

private theorem isRun_of_mem_ranges {style : RunStyle} {rs : List (Nat × Nat)}
    {c : Nat × Nat × List Piece}
    (hc : c ∈ (rs.map fun (a, b) => (a, b, Text.pieces style (Utf8.slice a b source))).filter
      fun (_, _, ps) => ps.any fun p => p.run?.isSome) {r : Text}
    (hr : r ∈ c.2.2.filterMap Piece.run?) : Text.IsRun style r := by
  obtain ⟨⟨a, b⟩, -, rfl⟩ := List.mem_map.mp (List.mem_filter.mp hc).1
  exact Text.isRun_of_mem_runs hr

private theorem findsOnly_templateEdits (n : Node) (above : List Node) :
    FindsOnly IsEntry (templateEdits s source n above) := by
  rw [templateEdits]
  split
  · exact Extract.findsOnly_pure []
  · refine (Extract.findsOnly_found fun r hr => ?_).bind fun _ _ => Extract.findsOnly_pure _
    obtain ⟨c, hc, hr⟩ := List.mem_flatMap.mp hr
    exact (isRun_of_mem_ranges hc hr).isEntry

private theorem findsOnly_elementEdits (n : Node) :
    FindsOnly IsEntry (elementEdits s source n) := by
  rw [elementEdits]
  dsimp only
  split
  · exact Extract.findsOnly_pure []
  · refine (Extract.findsOnly_found fun r hr => ?_).bind fun _ _ => Extract.findsOnly_pure _
    exact (Text.isRun_of_mem_runs hr).isEntry

theorem findsOnly_edits (s : Style) (source : Text) (above : List Node) (n : Node) :
    FindsOnly IsEntry (edits s source above n) := by
  rw [edits_eq_gather]
  refine Extract.findsOnly_gather fun o _ => ?_
  rw [literalEdits]
  split
  · exact findsOnly_stringEdit o.1 o.2
  · exact findsOnly_templateEdits o.1 o.2
  · exact findsOnly_elementEdits o.1

end Edits

private theorem findsOnly_finish (source unchanged : Text) (disclose : Text → Text)
    (es : List Edit) : FindsOnly IsEntry (finish source unchanged disclose es) := by
  rw [finish]
  split
  · exact Extract.findsOnly_pure unchanged
  · exact (Extract.findsOnly_lift _).map disclose

theorem findsOnly_localize [Parser] (d : Dialect) (s : Style) (source : Text) :
    FindsOnly IsEntry (localize d s source) := by
  cases hsource : source.isEncodable with
  | false =>
    rw [localize, hsource]
    exact Extract.findsOnly_fail .notEncodable
  | true =>
    rw [localize_eq hsource]
    split
    · exact Extract.findsOnly_fail (.unparsable d)
    · exact (findsOnly_edits s source [] _).bind fun es _ => findsOnly_finish source source id es

namespace Binding

variable {scope : Scope} {quote : Text}

private theorem findsOnly_phraseEdits (source : Text) (above : List Node) (n : Node) :
    FindsOnly IsEntry (phraseEdits scope quote source above n) := by
  intro t ht
  rw [(finds_phraseEdits scope quote source above n).1] at ht
  obtain ⟨o, -, ht⟩ := List.mem_flatMap.mp ht
  obtain ⟨r, -, ht⟩ := List.mem_flatMap.mp ht
  obtain ⟨u, hu, rfl⟩ := List.mem_map.mp ht
  exact Text.isEntry_trim (Text.isRun_of_mem_runs hu).hasHan

theorem findsOnly_localize [Parser] (scope : Scope) (quote expression : Text) :
    FindsOnly IsEntry (localize scope quote expression) := by
  cases hexpression : expression.isEncodable with
  | false =>
    rw [localize, hexpression]
    exact Extract.findsOnly_fail .notEncodable
  | true =>
    rw [localize_eq hexpression]
    split
    · exact (Extract.findsOnly_warn _).map fun _ => expression
    · split
      · exact Extract.findsOnly_pure expression
      · refine .bind ?_ fun es _ => findsOnly_finish _ _ disclose es
        refine (findsOnly_edits _ _ [] _).bind fun es _ => ?_
        split
        · exact findsOnly_phraseEdits _ [] _
        · exact Extract.findsOnly_pure es

end Binding

end LocaleLift.Script
