import LocaleLift.Markup.Words
import LocaleLift.Proofs.Literal.Verbatim
import LocaleLift.Proofs.Script.Entries

/-! What is found in templates: Chinese, without white space around it. -/
namespace LocaleLift.Markup

open Extract (FindsOnly)
open Text (IsEntry)

private theorem findsOnly_localizeTokens {p : Text → Prop} {kind : TokenKind}
    {localize : Text → Extract Text} (h : ∀ t, FindsOnly p (localize t)) (ts : List Token) :
    FindsOnly p (localizeTokens kind localize ts) := by
  induction ts with
  | nil => exact Extract.findsOnly_pure []
  | cons t ts ih =>
    rw [localizeTokens]
    split
    · exact (h t.chunk).join ih
    · exact (Extract.findsOnly_pure t.chunk).join ih

private theorem findsOnly_localizeParts {α : Type} {p : Text → Prop}
    {localize : α → Extract Text} (h : ∀ a, FindsOnly p (localize a)) (ps : List (Part α)) :
    FindsOnly p (localizeParts localize ps) := by
  induction ps with
  | nil => exact Extract.findsOnly_pure []
  | cons q ps ih =>
    cases q with
    | plain c => exact ih.map (c :: ·)
    | found a raw => exact (h a).join ih

variable {scope : Scope}

private theorem findsOnly_localizeAttribute [Script.Parser] (a : Attribute) :
    FindsOnly IsEntry (a.localize scope) := by
  rw [Attribute.localize]
  split
  · exact Extract.findsOnly_pure a.text
  · rename_i hhan
    split
    · refine (Extract.findsOnly_lift _).bind fun called _ => ?_
      split
      · exact Extract.findsOnly_pure a.text
      · exact FindsOnly.map (Script.Binding.findsOnly_localize scope a.innerQuote a.value) _
    · refine (Extract.findsOnly_text (Text.isEntry_trim ?_)).map _
      simpa using hhan

private theorem findsOnly_attributePass [Script.Parser] (markup : Text) :
    FindsOnly IsEntry (attributePass scope markup) := by
  refine findsOnly_localizeTokens (fun tag => ?_) _
  rw [localizeTag]
  split
  · exact Extract.findsOnly_pure tag
  · exact findsOnly_localizeParts findsOnly_localizeAttribute _

private theorem findsOnly_wrapWords (words : Text) : FindsOnly IsEntry (wrapWords scope words) :=
  (Extract.findsOnly_found fun _ hr => (Text.isRun_of_mem_runs hr).isEntry).map _

private theorem findsOnly_localizeBetween (words : Text) (ps : List (Part Text)) :
    FindsOnly IsEntry (localizeBetween scope words ps) := by
  induction ps generalizing words with
  | nil => exact findsOnly_wrapWords words
  | cons p ps ih =>
    cases p with
    | plain c => exact ih (words ++ [c])
    | found a raw => exact (findsOnly_wrapWords words).bind fun _ _ => (ih []).map _

theorem findsOnly_textPass (scope : Scope) (markup : Text) :
    FindsOnly IsEntry (textPass scope markup) := by
  refine findsOnly_localizeTokens (fun chunk => ?_) _
  rw [localizeWords]
  split
  · exact Extract.findsOnly_pure chunk
  · exact findsOnly_localizeBetween [] _

private theorem findsOnly_settle (n : Nat) (markup : Text) :
    FindsOnly IsEntry (settle scope n markup) := by
  induction n generalizing markup with
  | zero => exact Extract.findsOnly_pure markup
  | succ n ih =>
    refine (findsOnly_textPass scope markup).bind fun new _ => ?_
    split
    · exact Extract.findsOnly_pure markup
    · exact ih new

private theorem findsOnly_localizeLiterals (before : Text) (ps : List (Part Text)) :
    FindsOnly IsEntry (localizeLiterals scope before ps) := by
  induction ps generalizing before with
  | nil => exact Extract.findsOnly_pure []
  | cons p ps ih =>
    cases p with
    | plain c => exact (ih (before ++ [c])).map (c :: ·)
    | found body raw =>
      rw [localizeLiterals]
      have hjoin (head : Text) : FindsOnly IsEntry (do
          let head ← pure head
          return head ++ (← localizeLiterals scope (before ++ raw) ps)) :=
        (Extract.findsOnly_pure head).join (ih (before ++ raw))
      split
      · rename_i hreplaced
        have hbody := (Bool.and_eq_true_iff.mp hreplaced).1
        refine (Extract.findsOnly_lift _).bind fun v hv => ?_
        -- The literal is asked for Chinese as it is written, but its value is what is filed.
        have htext := Text.isEntry_trim (Literal.hasHan_cook hv hbody)
        exact (Extract.findsOnly_text htext).bind fun _ _ => hjoin _
      · exact hjoin raw

private theorem findsOnly_interpolationPass (markup : Text) :
    FindsOnly IsEntry (interpolationPass scope markup) := by
  refine findsOnly_localizeTokens (fun chunk => ?_) _
  rw [localizeInterpolations]
  split
  · exact Extract.findsOnly_pure chunk
  · exact findsOnly_localizeParts (fun inside => (findsOnly_localizeLiterals [] _).map _) _

/-- All that is found in a template can be filed. -/
theorem findsOnly_localize [Script.Parser] (scope : Scope) (template : Text) :
    FindsOnly IsEntry (localize scope template) :=
  (findsOnly_attributePass template).bind fun _ _ => (findsOnly_textPass scope _).bind fun _ _ =>
    (findsOnly_interpolationPass _).bind fun _ _ => findsOnly_settle 5 _

end LocaleLift.Markup
