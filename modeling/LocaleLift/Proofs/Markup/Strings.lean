import LocaleLift.Proofs.Markup.Frame
import LocaleLift.Proofs.Markup.Localized
import LocaleLift.Proofs.Script.Strings

/-! The literals of an interpolation are the strings of its expression, if no quote stands anywhere
else. -/
namespace LocaleLift

open Extract (Finds)
open Script (Occurrence)
open Script.Binding (opening closing enclose)

namespace Markup

/-- No quote stands between two offsets of a source outside some nodes, which are given in
order. -/
def HoldQuotes (source : Text) (stop : Nat) : Nat → List Script.Node → Prop
  | start, [] => ∀ c ∈ Utf8.slice start stop source, ¬ c.IsQuote
  | start, n :: ns => (∀ c ∈ Utf8.slice start n.start source, ¬ c.IsQuote) ∧
      HoldQuotes source stop n.stop ns

instance decHoldQuotes (source : Text) (stop : Nat) :
    (start : Nat) → (ns : List Script.Node) → Decidable (HoldQuotes source stop start ns)
  | start, [] => inferInstanceAs (Decidable (∀ c ∈ Utf8.slice start stop source, ¬ c.IsQuote))
  | start, n :: ns =>
    have := decHoldQuotes source stop n.stop ns
    inferInstanceAs (Decidable ((∀ c ∈ Utf8.slice start n.start source, ¬ c.IsQuote) ∧
      HoldQuotes source stop n.stop ns))

/-- The style in which bindings are localized with single quotes. -/
abbrev style (scope : Scope) : Script.Style :=
  Script.Binding.style scope "\x27"

/-- A string of an expression has a value, and it is replaced for what it is in the tree exactly if
it is replaced for the text before it. -/
structure IsDecidedAlike (scope : Scope) (expression : Text) (o : Occurrence) : Prop where
  cooked : ∃ value, Literal.cook (o.1.body (enclose expression)) = .ok value
  alike : o.IsReplaced (style scope) (enclose expression) ↔
    IsReplaced scope.function
      (Utf8.slice (Utf8.size opening) o.1.start (enclose expression))
      (o.1.body (enclose expression))

/-- The look-up function and an opening bracket stand before a place, white space apart. -/
def IsPreceded (function before : Text) : Prop :=
  ∃ s space, before = s ++ (function ++ "(" ++ space) ∧ Text.isBlank space = true

theorem opensCall_iff {function before : Text} :
    opensCall function before = true ↔ IsPreceded function before := by
  rw [opensCall, Text.endsWith, List.isSuffixOf_iff_suffix]
  constructor
  · rintro ⟨s, hs⟩
    obtain ⟨space, hbefore, hspace⟩ := Text.exists_trimEnd before
    exact ⟨s, space, by rw [hbefore, ← hs, List.append_assoc], hspace⟩
  · rintro ⟨s, space, rfl, hspace⟩
    have hbracket : Text.trimEnd (s ++ function ++ "(") = s ++ function ++ "(" := by
      simp [Text.trimEnd, Text.ofString, CodePoint.isSpace, CodePoint.inRange, CodePoint.toNat]
    rw [← List.append_assoc, Text.trimEnd_append _ hspace, ← List.append_assoc, hbracket,
      List.append_assoc]
    exact List.suffix_append s _

variable {scope : Scope}

private theorem literalLength_of_quotedBody {q : CodePoint} {body : Text}
    (h : Script.Lexeme.QuotedBody q body) (hq : q ≠ .scalar '\\')
    (hline : ∀ c ∈ body, c ≠ .scalar '\n') (rest : Text) :
    literalLength q false (body ++ q :: rest) = some (body.length + 1) := by
  induction h with
  | nil => rw [List.nil_append, literalLength, if_pos rfl]; rfl
  | @plain c t hc hslash _ ih =>
    obtain ⟨hcline, htline⟩ := List.forall_mem_cons.mp hline
    rw [List.cons_append, literalLength, if_neg hc, if_neg hcline, decide_eq_false hslash,
      ih htline]
    rfl
  | @escape c t _ ih =>
    obtain ⟨hsline, htline⟩ := List.forall_mem_cons.mp hline
    obtain ⟨hcline, htline⟩ := List.forall_mem_cons.mp htline
    rw [List.cons_append, literalLength, if_neg (Ne.symm hq), if_neg hsline, decide_eq_true rfl,
      List.cons_append, literalLength, if_neg hcline, ih htline]
    rfl

theorem parts_of_quotedBody {q : CodePoint} {body : Text} (hq : q.IsQuote)
    (h : Script.Lexeme.QuotedBody q body) (hline : ∀ c ∈ body, c ≠ .scalar '\n') (rest : Text) :
    Text.parts matchLiteral (q :: (body ++ [q]) ++ rest) =
      .found body (q :: (body ++ [q])) :: Text.parts matchLiteral rest := by
  refine Text.parts_found ?_
  have hslash : q ≠ .scalar '\\' := by
    rcases hq with rfl | rfl <;> decide
  have hquote : (decide (q = .scalar '\x22') || decide (q = .scalar '\x27')) = true := by
    rcases hq with rfl | rfl <;> rfl
  rw [List.append_assoc, List.singleton_append, matchLiteral, if_pos hquote,
    literalLength_of_quotedBody h hslash hline, Option.map_some, Nat.add_sub_cancel,
    List.take_left, List.length_append]
  rfl

theorem matchLiteral_of_not_isQuote {c : CodePoint} (hc : ¬ c.IsQuote) (t : Text) :
    matchLiteral c t = none := by
  rw [matchLiteral, if_neg]
  simpa [CodePoint.IsQuote] using hc

section Literals

variable {before body raw out : Text} {ts : List Text} {ps : List (Part Text)}
  (h : Finds ts out (localizeLiterals scope (before ++ raw) ps))

include h

theorem finds_localizeLiterals_kept (hkept : ¬ IsReplaced scope.function before body) :
    Finds ts (raw ++ out) (localizeLiterals scope before (.found body raw :: ps)) := by
  rw [localizeLiterals, if_neg (by simpa [IsReplaced] using hkept)]
  exact (Extract.Quiet.finds_bind ⟨rfl, rfl⟩).mpr (Extract.finds_map.mpr ⟨_, h, rfl⟩)

theorem finds_localizeLiterals_replaced {value : Text}
    (hreplaced : IsReplaced scope.function before body)
    (hcook : Literal.cook body = .ok value) :
    Finds (Text.trim value :: ts) (scope.call "\x27" (Text.trim value) ++ out)
      (localizeLiterals scope before (.found body raw :: ps)) := by
  have hcall : Finds [Text.trim value] (scope.call "\x27" (Text.trim value))
      (replacement scope body) :=
    Extract.finds_bind.mpr ⟨[], value, [Text.trim value], ⟨rfl, hcook⟩, ⟨rfl, rfl⟩, rfl⟩
  have hjoin : Finds (Text.trim value :: ts) (scope.call "\x27" (Text.trim value) ++ out)
      (replacement scope body >>= fun head => do
        return head ++ (← localizeLiterals scope (before ++ raw) ps)) :=
    Extract.finds_bind.mpr ⟨_, _, ts, hcall, Extract.finds_map.mpr ⟨_, h, rfl⟩, rfl⟩
  rw [localizeLiterals, if_pos (by simpa [IsReplaced] using hreplaced)]
  simp only [replacement, bind_assoc] at hjoin
  exact hjoin

end Literals

/-- In the rest of an expression the literals are replaced as some strings of the tree are. -/
def AgreeFrom (scope : Scope) (source before rest : Text) (os : List Occurrence) : Prop :=
  ∃ ts draft, Draft.old draft = rest ∧
    Finds ts draft.new (localizeLiterals scope before (Text.parts matchLiteral rest)) ∧
    Finds ts ((draft.swapsFrom (opening ++ before)).map Edit.ofSwap)
      (Extract.gather (Script.literalEdits (style scope) source) os)

namespace AgreeFrom

variable {source before rest : Text} {os : List Occurrence}

private theorem nil : AgreeFrom scope source before [] [] :=
  ⟨[], [], rfl, ⟨rfl, rfl⟩, ⟨rfl, rfl⟩⟩

private theorem plain {g : Text} (hg : ∀ c ∈ g, ¬ c.IsQuote)
    (h : AgreeFrom scope source (before ++ g) rest os) :
    AgreeFrom scope source before (g ++ rest) os := by
  induction g generalizing before with
  | nil => rwa [List.append_nil] at h
  | cons c g ih =>
    obtain ⟨hc, hg⟩ := List.forall_mem_cons.mp hg
    rw [List.append_cons] at h
    obtain ⟨ts, draft, hold, hfinds, hedits⟩ := ih hg h
    refine ⟨ts, .kept c :: draft, congrArg (c :: ·) hold, ?_, ?_⟩
    · rw [List.cons_append, Text.parts_plain (matchLiteral_of_not_isQuote hc _), localizeLiterals]
      exact Extract.finds_map.mpr ⟨_, hfinds, rfl⟩
    · rwa [Draft.swapsFrom, List.append_assoc]

variable {o : Occurrence} {q : CodePoint} {body value : Text} (hk : o.1.kind = .string)
  (hcook : Literal.cook (o.1.body source) = .ok value)
  (hparts : Text.parts matchLiteral (q :: (body ++ [q]) ++ rest) =
    .found body (q :: (body ++ [q])) :: Text.parts matchLiteral rest)
  (h : AgreeFrom scope source (before ++ (q :: (body ++ [q]))) rest os)

include hk hcook hparts h

private theorem kept (hmatched : ¬ IsReplaced scope.function before body)
    (hread : ¬ o.IsReplaced (style scope) source) :
    AgreeFrom scope source before (q :: (body ++ [q]) ++ rest) (o :: os) := by
  obtain ⟨ts, draft, rfl, hfinds, hedits⟩ := h
  refine ⟨ts, Draft.keep (q :: (body ++ [q])) ++ draft, by simp, ?_, ?_⟩
  · rw [hparts, Draft.new_append, Draft.new_keep]
    exact finds_localizeLiterals_kept hfinds hmatched
  · rw [Draft.swapsFrom_append, Draft.swapsFrom_keep, Draft.old_keep, List.nil_append,
      List.append_assoc]
    have hedit : Extract.Quiet [] (Script.literalEdits (style scope) source o) := by
      rw [Script.literalEdits, hk]
      exact Script.quiet_stringEdit hcook hread
    exact hedit.finds_bind.mpr (Extract.finds_map.mpr ⟨_, hedits, rfl⟩)

private theorem replaced (hmatched : IsReplaced scope.function before body)
    (hread : o.IsReplaced (style scope) source) (hattribute : ∀ m ∈ o.2, m.kind ≠ .attribute)
    (htext : o.1.text source = q :: (body ++ [q])) (hbody : o.1.body source = body)
    (hstart : Utf8.size (opening ++ before) = o.1.start)
    (hstop : Utf8.size (opening ++ (before ++ (q :: (body ++ [q])))) = o.1.stop) :
    AgreeFrom scope source before (q :: (body ++ [q]) ++ rest) (o :: os) := by
  obtain ⟨ts, draft, rfl, hfinds, hedits⟩ := h
  refine ⟨Text.trim value :: ts,
    .swapped (q :: (body ++ [q])) (scope.call "\x27" (Text.trim value)) :: draft, rfl, ?_, ?_⟩
  · rw [hparts]
    exact finds_localizeLiterals_replaced hfinds hmatched (hbody ▸ hcook)
  · have hlength : 2 ≤ (o.1.text source).length := by
      rw [htext, List.length_cons, List.length_append]
      exact Nat.le_add_left 2 _
    have hedit : Finds [Text.trim value]
        [Edit.ofRange o.1.start o.1.stop (scope.call "\x27" (Text.trim value))]
        (Script.literalEdits (style scope) source o) := by
      rw [Script.literalEdits, hk]
      exact Script.finds_stringEdit hcook hread hlength hattribute
    rw [← hstart, ← hstop, ← List.append_assoc] at hedit
    rw [← List.append_assoc] at hedits
    exact Extract.finds_bind.mpr ⟨_, _, ts, hedit, Extract.finds_map.mpr ⟨_, hedits, rfl⟩, rfl⟩

end AgreeFrom

/-- What stands before texts without quotes holds all that ends with a quote. -/
private theorem exists_of_last_quote {q : CodePoint} {s t rest after : Text} (hq : q.IsQuote)
    (hafter : ∀ c ∈ after, ¬ c.IsQuote) (h : rest ++ after = s ++ [q] ++ t) :
    ∃ u, rest = s ++ [q] ++ u := by
  rcases List.append_eq_append_iff.mp h with ⟨u, hs, rfl⟩ | ⟨u, hrest, -⟩
  · rcases List.eq_nil_or_concat u with rfl | ⟨v, d, rfl⟩
    · exact ⟨[], by rw [hs, List.append_nil, List.append_nil]⟩
    · rw [List.concat_eq_append, ← List.append_assoc] at hs
      obtain ⟨-, hd⟩ := List.append_inj' hs rfl
      obtain rfl := List.singleton_inj.mp hd
      exact absurd hq (hafter q (by simp))
  · exact ⟨u, hrest⟩

/-- A string of an expression that begins in the rest of it stands there as it is written. -/
private theorem exists_string {expression before rest tail : Text} {n : Script.Node}
    (hexpression : expression = before ++ rest ++ tail) (htail : ∀ c ∈ tail, ¬ c.IsQuote)
    (hline : ∀ c ∈ rest, c ≠ .scalar '\n' ∧ c ≠ .scalar '\r')
    (hread : n.Read False (enclose expression)) (hk : n.kind = .string)
    (hstart : Utf8.size (opening ++ before) ≤ n.start) :
    ∃ g q body more, rest = g ++ (q :: (body ++ [q]) ++ more) ∧ q.IsQuote ∧
      Script.Lexeme.QuotedBody q body ∧ n.text (enclose expression) = q :: (body ++ [q]) ∧
      n.body (enclose expression) = body ∧ Utf8.size (opening ++ (before ++ g)) = n.start ∧
      Utf8.size (opening ++ (before ++ g ++ (q :: (body ++ [q])))) = n.stop := by
  obtain ⟨first, q, body, after, hsource, hfirst, hstop, hq, htext, hbody, hquoted⟩ :=
    hread.exists_body hk
  have hwhole : enclose expression = opening ++ before ++ (rest ++ (tail ++ closing)) := by
    rw [enclose, hexpression]
    simp only [List.append_assoc]
  have hbefore : opening ++ before <+: enclose expression := ⟨_, hwhole.symm⟩
  have hprefix : first <+: enclose expression := ⟨_, by rw [hsource, List.append_assoc]⟩
  rw [← hfirst] at hstart
  obtain ⟨g, rfl⟩ := Utf8.prefix_of_size_le hbefore hprefix hstart
  have hrest : rest ++ (tail ++ closing) = g ++ (q :: body) ++ [q] ++ after := by
    rw [hwhole] at hsource
    simp only [List.append_assoc] at hsource
    have := List.append_cancel_left (List.append_cancel_left hsource)
    simpa using this
  obtain ⟨more, rfl⟩ := exists_of_last_quote hq
    (List.forall_mem_append.mpr ⟨htail, by decide⟩) hrest
  refine ⟨g, q, body, more, by simp, hq, hquoted fun c hc => hline c (by simp [hc]), htext, hbody,
    ?_, ?_⟩
  · rw [← List.append_assoc, hfirst]
  · rw [← hstop]
    simp only [List.append_assoc]

/-- What stands between two strings of an expression, or behind the last one. -/
private theorem slice_enclose {expression before g after : Text}
    (h : expression = before ++ g ++ after) :
    Utf8.slice (Utf8.size (opening ++ before)) (Utf8.size (opening ++ (before ++ g)))
      (enclose expression) = g := by
  have := Utf8.slice_append (opening ++ before) g (after ++ closing)
  rw [enclose, h]
  simpa only [List.append_assoc] using this

private theorem agreeFrom {expression before rest tail : Text} {b : Nat} {os : List Occurrence}
    (hexpression : expression = before ++ rest ++ tail) (htail : ∀ c ∈ tail, ¬ c.IsQuote)
    (hline : ∀ c ∈ rest, c ≠ .scalar '\n' ∧ c ≠ .scalar '\r')
    (hordered : Script.Node.Ordered (Utf8.size (opening ++ before)) b (os.map Prod.fst))
    (hquotes : HoldQuotes (enclose expression) (Utf8.size (opening ++ expression))
      (Utf8.size (opening ++ before)) (os.map Prod.fst))
    (hos : ∀ o ∈ os, o.1.kind = .string ∧ o.1.Read False (enclose expression) ∧
      (∀ m ∈ o.2, m.kind ≠ .attribute) ∧ IsDecidedAlike scope expression o) :
    AgreeFrom scope (enclose expression) before rest os := by
  induction os generalizing before rest with
  | nil =>
    have hwhole : expression = before ++ (rest ++ tail) ++ [] := by
      rw [hexpression, List.append_nil, List.append_assoc]
    have hnone : ∀ c ∈ rest ++ tail, ¬ c.IsQuote := by
      have hslice := slice_enclose hwhole
      rw [← List.append_nil (before ++ (rest ++ tail)), ← hwhole] at hslice
      exact hslice ▸ hquotes
    have hnil : AgreeFrom scope (enclose expression) (before ++ rest) [] [] := .nil
    have hplain := hnil.plain (List.forall_mem_append.mp hnone).1
    rwa [List.append_nil] at hplain
  | cons o os ih =>
    obtain ⟨⟨hk, hread, hattribute, ⟨value, hcook⟩, halike⟩, hos⟩ := List.forall_mem_cons.mp hos
    obtain ⟨hstart, -, hordered⟩ := hordered
    obtain ⟨hgap, hquotes⟩ := hquotes
    obtain ⟨g, q, body, more, rfl, hq, hbody, htext, hnbody, hfirst, hstop⟩ :=
      exists_string hexpression htail hline hread hk hstart
    have hmore : expression = before ++ g ++ (q :: (body ++ [q])) ++ more ++ tail := by
      rw [hexpression]
      simp only [List.append_assoc]
    have hhere : expression = before ++ g ++ (q :: (body ++ [q]) ++ more ++ tail) := by
      rw [hmore]
      simp only [List.append_assoc]
    have hfront : expression = [] ++ (before ++ g) ++ (q :: (body ++ [q]) ++ more ++ tail) := hhere
    rw [← hfirst, slice_enclose hhere] at hgap
    have hbefore := slice_enclose hfront
    rw [List.nil_append, List.append_nil, hfirst] at hbefore
    rw [hbefore, hnbody] at halike
    rw [← hstop] at hordered hquotes
    have hrest := ih hmore (fun c hc => hline c (by simp [hc])) hordered hquotes hos
    have hparts := parts_of_quotedBody hq hbody (fun c hc => (hline c (by simp [hc])).1) more
    refine .plain hgap ?_
    by_cases hmatched : IsReplaced scope.function (before ++ g) body
    · exact hrest.replaced hk hcook hparts hmatched (halike.mpr hmatched) hattribute htext hnbody
        hfirst hstop
    · exact hrest.kept hk hcook hparts hmatched (mt halike.mp hmatched)

/-- A string stands inside the expression, since no quote stands before. -/
theorem exists_before {expression : Text} {n : Script.Node}
    (hread : n.Read False (enclose expression)) (hk : n.kind = .string) :
    ∃ before q after, CodePoint.IsQuote q ∧ enclose expression = opening ++ before ++ q :: after ∧
      Utf8.size (opening ++ before) = n.start := by
  obtain ⟨first, q, body, after, hsource, hfirst, -, hq, -⟩ := hread.exists_body hk
  have hnone : ∀ c ∈ opening, ¬ c.IsQuote := by decide
  have hparts : enclose expression = first ++ q :: (body ++ [q] ++ after) := by
    rw [hsource, List.append_assoc]
    rfl
  have hle := Script.Binding.size_opening_le hparts fun hmem => hnone q hmem hq
  obtain ⟨before, rfl⟩ := Utf8.prefix_of_size_le
    ⟨expression ++ closing, (List.append_assoc ..).symm⟩ ⟨_, hparts.symm⟩ hle
  exact ⟨before, q, body ++ [q] ++ after, hq, hparts, hfirst⟩

theorem agreeFrom_parse [Script.Parser] [Script.Parser.IsSound] {expression w tail : Text}
    {value : Script.Node}
    (hexpression : expression = w ++ tail) (htail : ∀ c ∈ tail, ¬ c.IsQuote)
    (hline : ∀ c ∈ expression, c ≠ .scalar '\n' ∧ c ≠ .scalar '\r')
    (hparse : Script.Binding.parse? expression = some value)
    (hquotes : HoldQuotes (enclose expression) (Utf8.size (opening ++ expression))
      (Utf8.size opening) ((Script.literals (style scope) [] value).map Prod.fst))
    (halike : ∀ o ∈ Script.literals (style scope) [] value, IsDecidedAlike scope expression o) :
    AgreeFrom scope (enclose expression) [] w (Script.literals (style scope) [] value) := by
  have honly : (style scope).OnlyStrings := ⟨rfl, rfl⟩
  have hvalue := Script.Binding.parse?_read hparse
  have hos : ∀ o ∈ Script.literals (style scope) [] value, o.1.kind = .string ∧
      o.1.Read False (enclose expression) ∧ (∀ m ∈ o.2, m.kind ≠ .attribute) ∧
      IsDecidedAlike scope expression o := by
    intro o ho
    obtain ⟨hk, hread, habove⟩ := honly.of_mem hvalue (List.forall_mem_nil _) ho
    exact ⟨hk, hread, fun m hm h => (habove m hm).admitted h, halike o ho⟩
  have hordered : Script.Node.Ordered value.start value.stop
      ((Script.literals (style scope) [] value).map Prod.fst) :=
    honly.ordered (hvalue.imp fun _ h => h.ordered)
  have hfrom : ∃ b, Script.Node.Ordered (Utf8.size opening) b
      ((Script.literals (style scope) [] value).map Prod.fst) := by
    cases hliterals : Script.literals (style scope) [] value with
    | nil => exact ⟨_, Nat.le_refl _⟩
    | cons o os =>
      rw [hliterals] at hordered hos
      obtain ⟨hk, hread, -⟩ := hos o (List.mem_cons_self ..)
      obtain ⟨before, -, -, -, -, hstart⟩ := exists_before hread hk
      rw [Utf8.size_append] at hstart
      exact ⟨_, hstart ▸ Nat.le_add_right .., hordered.2⟩
  obtain ⟨b, hordered⟩ := hfrom
  have hwhole : expression = [] ++ w ++ tail := hexpression
  have hlines : ∀ c ∈ w, c ≠ .scalar '\n' ∧ c ≠ .scalar '\r' := fun c hc =>
    hline c (by rw [hexpression]; exact List.mem_append_left _ hc)
  rw [← List.append_nil opening] at hordered
  have hquotes : HoldQuotes (enclose expression) (Utf8.size (opening ++ expression))
      (Utf8.size (opening ++ [])) ((Script.literals (style scope) [] value).map Prod.fst) := by
    rwa [List.append_nil]
  exact agreeFrom hwhole htail hlines hordered hquotes hos

end Markup
end LocaleLift
