import LocaleLift.Proofs.Literal.Quote
import LocaleLift.Proofs.Markup.Strings

/-! Expressions written as code and literals: which literals of an interpolation are converted, and
that nothing is left to convert in what they come to. -/
namespace LocaleLift.Markup

open Extract (Finds Quiet)

/-- A piece of an expression: code without quotes, or a literal between two quotes. -/
inductive Snippet where
  | code (text : Text)
  | literal (quote : CodePoint) (body : Text)
  deriving DecidableEq, Repr

namespace Snippet

def text : Snippet → Text
  | code text => text
  | literal quote body => quote :: (body ++ [quote])

/-- A piece that is written as it should be. A literal stands on one line and has a value. -/
def IsWritten : Snippet → Prop
  | code text => ∀ c ∈ text, ¬ c.IsQuote
  | literal quote body => quote.IsQuote ∧ Script.Lexeme.QuotedBody quote body ∧
      (∀ c ∈ body, c ≠ .scalar '\n') ∧ ∃ value, Literal.cook body = .ok value

/-- A literal is to be converted: it holds Chinese, and is not the first argument of a call of the
look-up function already. -/
def IsDue (function before : Text) : Snippet → Prop
  | code _ => False
  | literal _ body => Text.hasHan body = true ∧ ¬ IsPreceded function before

end Snippet

/-- What pieces come to that stand behind others, and the texts that are found: a literal that is to
be converted becomes a call with its value, and all else stays. -/
inductive Converts (scope : Scope) : Text → List Snippet → Text → List Text → Prop
  | nil (before : Text) : Converts scope before [] [] []
  | kept {before out : Text} {s : Snippet} {ss : List Snippet} {ts : List Text}
      (h : ¬ s.IsDue scope.function before) (rest : Converts scope (before ++ s.text) ss out ts) :
      Converts scope before (s :: ss) (s.text ++ out) ts
  | converted {before body value out : Text} {quote : CodePoint} {ss : List Snippet}
      {ts : List Text} (h : (Snippet.literal quote body).IsDue scope.function before)
      (hvalue : Literal.cook body = .ok value)
      (rest : Converts scope (before ++ (Snippet.literal quote body).text) ss out ts) :
      Converts scope before (.literal quote body :: ss)
        (scope.call "\x27" (Text.trim value) ++ out) (Text.trim value :: ts)

section Conversion

variable {scope : Scope} {before out : Text} {ss : List Snippet} {ts : List Text}

private theorem parts_code {s : Text} (h : ∀ c ∈ s, ¬ c.IsQuote) (t : Text) :
    Text.parts matchLiteral (s ++ t) = s.map .plain ++ Text.parts matchLiteral t :=
  Text.parts_passed fun c _ hr =>
    matchLiteral_of_not_isQuote (h c (hr.subset (List.mem_cons_self ..))) _

private theorem finds_code {s : Text} {ps : List (Part Text)}
    (h : Finds ts out (localizeLiterals scope (before ++ s) ps)) :
    Finds ts (s ++ out) (localizeLiterals scope before (s.map .plain ++ ps)) := by
  induction s generalizing before with
  | nil => rwa [List.append_nil] at h
  | cons c s ih =>
    rw [List.append_cons] at h
    exact Extract.finds_map.mpr ⟨_, ih h, rfl⟩

private theorem eachLiteral_code {p : Text → Text → Prop} {s : Text} {ps : List (Part Text)} :
    EachLiteral p before (s.map .plain ++ ps) ↔ EachLiteral p (before ++ s) ps := by
  induction s generalizing before with
  | nil => rw [List.append_nil, List.map_nil, List.nil_append]
  | cons c s ih =>
    rw [List.map_cons, List.cons_append, eachLiteral_plain, ih, ← List.append_cons]

private theorem isReplaced_iff (quote : CodePoint) {body : Text} :
    IsReplaced scope.function before body ↔
      (Snippet.literal quote body).IsDue scope.function before := by
  rw [IsReplaced, Snippet.IsDue, ← opensCall_iff, Bool.not_eq_true]

/-- The pieces of an expression come to something. -/
private theorem exists_converts (h : ∀ s ∈ ss, s.IsWritten) (before : Text) :
    ∃ out ts, Converts scope before ss out ts ∧ Finds ts out
      (localizeLiterals scope before (Text.parts matchLiteral (ss.flatMap Snippet.text))) := by
  induction ss generalizing before with
  | nil => exact ⟨[], [], .nil before, rfl, rfl⟩
  | cons s ss ih =>
    obtain ⟨hs, hss⟩ := List.forall_mem_cons.mp h
    obtain ⟨out, ts, hconverts, hfinds⟩ := ih hss (before ++ s.text)
    rw [List.flatMap_cons]
    cases s with
    | code t =>
      rw [Snippet.text, parts_code hs]
      exact ⟨t ++ out, ts, .kept (s := .code t) id hconverts, finds_code hfinds⟩
    | literal q body =>
      obtain ⟨hq, hbody, hline, value, hvalue⟩ := hs
      rw [Snippet.text, parts_of_quotedBody hq hbody hline]
      by_cases hdue : IsReplaced scope.function before body
      · exact ⟨_, _, .converted ((isReplaced_iff q).mp hdue) hvalue hconverts,
          finds_localizeLiterals_replaced hfinds hdue hvalue⟩
      · exact ⟨_, _, .kept (mt (isReplaced_iff q).mpr hdue) hconverts,
          finds_localizeLiterals_kept hfinds hdue⟩

/-- A call is the function with a literal in brackets. -/
private theorem exists_call (scope : Scope) (t : Text) : ∃ (q : CodePoint) (body : Text),
    scope.call "\x27" t = scope.function ++ "(" ++ (q :: (body ++ [q]) ++ ")") ∧ q.IsQuote ∧
      Script.Lexeme.QuotedBody q body ∧ ∀ c ∈ body, c ≠ .scalar '\n' := by
  have hq : CodePoint.IsQuote (.scalar '\x27') := .inr rfl
  refine ⟨.scalar '\x27', (scope.common.keyFor scope.ns t).flatMap (Literal.spell _), ?_, hq,
    Literal.quotedBody_spelled hq _, ?_⟩
  · rw [Scope.call, lookupCall, List.append_assoc]
    exact congrArg (fun t => scope.function ++ "(" ++ (t ++ ")")) (Literal.quote_eq_spell hq _)
  · rintro c hc rfl
    obtain ⟨d, -, hc⟩ := List.mem_flatMap.mp hc
    exact Literal.not_mem_spell hq d _ hc (by decide)

/-- Whatever code ends one text also ends another one. -/
private def EndsLike (s t : Text) : Prop :=
  ∀ code : Text, (∀ c ∈ code, ¬ c.IsQuote) → code <:+ s → code <:+ t

private theorem EndsLike.append {s t : Text} (h : EndsLike s t) (u : Text) :
    EndsLike (s ++ u) (t ++ u) := by
  rintro code hcode ⟨first, hfirst⟩
  rcases List.append_eq_append_iff.mp hfirst with ⟨more, rfl, rfl⟩ | ⟨more, rfl, rfl⟩
  · obtain ⟨first', hmore⟩ := h more (fun c hc => hcode c (List.mem_append_left u hc))
      (List.suffix_append first more)
    exact ⟨first', by rw [← hmore, List.append_assoc]⟩
  · exact ⟨t ++ more, by rw [List.append_assoc]⟩

/-- No code ends a text that ends with a literal. -/
private theorem endsLike_literal {q : CodePoint} (hq : q.IsQuote) (s body t : Text) :
    EndsLike (s ++ q :: (body ++ [q])) t := by
  intro code hcode hsuffix
  obtain rfl | ⟨code, c, rfl⟩ := List.eq_nil_or_concat code
  · exact List.nil_suffix
  · rw [List.concat_eq_append] at hcode hsuffix
    obtain ⟨first, hfirst⟩ := hsuffix
    have hwhole : first ++ code ++ [c] = s ++ q :: body ++ [q] := by simpa using hfirst
    obtain ⟨-, hlast⟩ := List.append_inj' hwhole rfl
    obtain rfl := List.singleton_injective hlast
    exact absurd hq (hcode c (by simp))

private theorem IsPreceded.of_endsLike (hfunction : ∀ c ∈ scope.function, ¬ c.IsQuote) {s t : Text}
    (h : EndsLike s t) (hs : IsPreceded scope.function s) : IsPreceded scope.function t := by
  obtain ⟨first, space, rfl, hspace⟩ := hs
  have hcode : ∀ c ∈ scope.function ++ "(" ++ space, ¬ c.IsQuote := by
    refine List.forall_mem_append.mpr ⟨List.forall_mem_append.mpr ⟨hfunction, by decide⟩, ?_⟩
    exact fun c hc => (Text.isPlain_of_isBlank hspace c hc).1
  obtain ⟨first', ht⟩ := h _ hcode (List.suffix_append first _)
  exact ⟨first', space, ht.symm, hspace⟩

/-- The literal of a call is not to be converted. -/
private theorem eachLiteral_call (hfunction : ∀ c ∈ scope.function, ¬ c.IsQuote) {t rest : Text}
    (hrest : EachLiteral (fun before body => ¬ IsReplaced scope.function before body)
      (before ++ scope.call "\x27" t) (Text.parts matchLiteral rest)) :
    EachLiteral (fun before body => ¬ IsReplaced scope.function before body) before
      (Text.parts matchLiteral (scope.call "\x27" t ++ rest)) := by
  obtain ⟨q, body, hcall, hq, hbody, hline⟩ := exists_call scope t
  have hopen : ∀ c ∈ scope.function ++ "(", ¬ c.IsQuote :=
    List.forall_mem_append.mpr ⟨hfunction, by decide⟩
  rw [hcall, ← List.append_assoc, ← List.append_assoc] at hrest
  rw [hcall, List.append_assoc (_ ++ _), List.append_assoc (q :: _), parts_code hopen,
    parts_of_quotedBody hq hbody hline, parts_code (by decide), eachLiteral_code,
    eachLiteral_found, eachLiteral_code]
  refine ⟨fun hreplaced => ((isReplaced_iff q).mp hreplaced).2 ?_, hrest⟩
  exact ⟨before, [], by rw [List.append_nil], rfl⟩

/-- In what the pieces of an expression come to, no literal is to be converted. -/
private theorem Converts.isSettled (hfunction : ∀ c ∈ scope.function, ¬ c.IsQuote)
    (h : Converts scope before ss out ts) (hss : ∀ s ∈ ss, s.IsWritten) {before' : Text}
    (hbefore : EndsLike before before') :
    EachLiteral (fun before body => ¬ IsReplaced scope.function before body) before'
      (Text.parts matchLiteral out) := by
  induction h generalizing before' with
  | nil => exact eachLiteral_nil
  | @kept before out s ss ts hkept _ ih =>
    obtain ⟨hs, hss⟩ := List.forall_mem_cons.mp hss
    have hrest := ih hss (hbefore.append s.text)
    cases s with
    | code t =>
      rw [Snippet.text, parts_code hs]
      exact eachLiteral_code.mpr hrest
    | literal q body =>
      obtain ⟨hq, hbody, hline, -⟩ := hs
      rw [Snippet.text, parts_of_quotedBody hq hbody hline, eachLiteral_found]
      refine ⟨fun hreplaced => hkept ?_, hrest⟩
      obtain ⟨hhan, hcall⟩ := (isReplaced_iff q).mp hreplaced
      exact ⟨hhan, fun hpreceded => hcall (hpreceded.of_endsLike hfunction hbefore)⟩
  | @converted before body value out q ss ts _ _ _ ih =>
    obtain ⟨⟨hq, -⟩, hss⟩ := List.forall_mem_cons.mp hss
    exact eachLiteral_call hfunction (ih hss (endsLike_literal hq before body _))

/-- Nothing is left to do where a text is looked up. -/
theorem isSettled_call (hfunction : ∀ c ∈ scope.function, ¬ c.IsQuote) {first last : Text}
    (hfirst : ∀ c ∈ first, ¬ c.IsQuote) (hlast : ∀ c ∈ last, ¬ c.IsQuote) (t : Text) :
    IsSettled scope.function (first ++ (scope.call "\x27" t ++ last)) := by
  have hparts := parts_code hlast []
  rw [List.append_nil] at hparts
  rw [IsSettled, parts_code hfirst, eachLiteral_code]
  refine eachLiteral_call hfunction ?_
  rw [hparts, eachLiteral_code]
  exact eachLiteral_nil

/-- What is found are values of literals with Chinese. -/
theorem Converts.exists_literal (h : Converts scope before ss out ts) {t : Text} (ht : t ∈ ts) :
    ∃ quote body value, .literal quote body ∈ ss ∧ Text.hasHan body = true ∧
      Literal.cook body = .ok value ∧ t = Text.trim value := by
  induction h with
  | nil => cases ht
  | kept _ _ ih =>
    obtain ⟨quote, body, value, hmem, hvalue⟩ := ih ht
    exact ⟨quote, body, value, List.mem_cons_of_mem _ hmem, hvalue⟩
  | @converted before body value out quote ss ts hdue hvalue _ ih =>
    rcases List.mem_cons.mp ht with rfl | ht
    · exact ⟨quote, body, value, List.mem_cons_self .., hdue.1, hvalue, rfl⟩
    · obtain ⟨quote, body, value, hmem, hvalue⟩ := ih ht
      exact ⟨quote, body, value, List.mem_cons_of_mem _ hmem, hvalue⟩

/-- The pieces of an expression come to something that is settled. -/
theorem exists_settled (hfunction : ∀ c ∈ scope.function, ¬ c.IsQuote)
    (h : ∀ s ∈ ss, s.IsWritten) : ∃ out ts, Converts scope [] ss out ts ∧
      Finds ts ("\x7b\x7b" ++ out ++ "\x7d\x7d")
        (localizeInterpolation scope (ss.flatMap Snippet.text)) ∧
      IsSettled scope.function out := by
  obtain ⟨out, ts, hconverts, hfinds⟩ := exists_converts h []
  exact ⟨out, ts, hconverts, Extract.finds_map.mpr ⟨out, hfinds, rfl⟩,
    hconverts.isSettled hfunction h fun _ _ hsuffix => hsuffix⟩

end Conversion

/-- The literals of an expression that hold Chinese and are not the first argument of a call of the
look-up function become such calls, each with the value of the literal, and all else stays. In the
result nothing is left to convert. -/
theorem localizeInterpolation_snippets {scope : Scope} {ss : List Snippet}
    (hfunction : ∀ c ∈ scope.function, ¬ c.IsQuote) (h : ∀ s ∈ ss, s.IsWritten) :
    ∃ out ts, Converts scope [] ss out ts ∧
      Finds ts ("\x7b\x7b" ++ out ++ "\x7d\x7d")
        (localizeInterpolation scope (ss.flatMap Snippet.text)) ∧
      Quiet ("\x7b\x7b" ++ out ++ "\x7d\x7d") (localizeInterpolation scope out) := by
  obtain ⟨out, ts, hconverts, hfinds, hsettled⟩ := exists_settled hfunction h
  refine ⟨out, ts, hconverts, hfinds, ?_⟩
  have hrest := restsAt_localizeLiterals scope [] (Text.parts matchLiteral out)
  rw [Text.flatten_parts] at hrest
  exact (hrest.map rfl _).mpr ⟨rfl, hsettled⟩

/-- One literal is the argument of a call already, one holds no Chinese, and one is converted and
gets other quotes. -/
theorem localizeInterpolation_snippets_once :
    let scope : Scope := ⟨"test", .ofList [] "common", "$t"⟩
    let ss : List Snippet := [.code "a ? $t(\n ", .literal (.scalar '\x27') "你", .code ") : ",
      .literal (.scalar '\x22') "\\u4e2d 文\\'", .code " + ", .literal (.scalar '\x27') "x"]
    let out : Text := "a ? $t(\n '你') : $t('test.中 文\\'') + 'x'"
    (∀ c ∈ scope.function, ¬ c.IsQuote) ∧ (∀ s ∈ ss, s.IsWritten) ∧
      Converts scope [] ss out ["中 文'"] ∧
      Finds ["中 文'"] ("\x7b\x7b" ++ out ++ "\x7d\x7d")
        (localizeInterpolation scope (ss.flatMap Snippet.text)) ∧
      Quiet ("\x7b\x7b" ++ out ++ "\x7d\x7d") (localizeInterpolation scope out) := by
  intro scope ss out
  have hfunction : ∀ c ∈ scope.function, ¬ c.IsQuote := by decide
  have hplain {q c : CodePoint} {t : Text} (h : c ≠ q ∧ c ≠ .scalar '\\')
      (ht : Script.Lexeme.QuotedBody q t) : Script.Lexeme.QuotedBody q (c :: t) :=
    .plain h.1 h.2 ht
  have hcode {t : Text} (h : ∀ c ∈ t, ¬ c.IsQuote) : (Snippet.code t).IsWritten := h
  have hss : ∀ s ∈ ss, s.IsWritten := by
    simp only [ss, List.forall_mem_cons, List.not_mem_nil, false_imp_iff, implies_true, and_true]
    refine ⟨hcode (by decide), ⟨.inr rfl, hplain (by decide) .nil, by decide, "你", by decide⟩,
      hcode (by decide), ⟨.inl rfl, ?_, by decide, "中 文'", by decide +kernel⟩, hcode (by decide),
      ⟨.inr rfl, hplain (by decide) .nil, by decide, "x", by decide⟩⟩
    exact .escape (hplain (by decide) (hplain (by decide) (hplain (by decide) (hplain (by decide)
      (hplain (by decide) (hplain (by decide) (.escape .nil)))))))
  obtain ⟨out', ts', hconverts, hfinds, hquiet⟩ := localizeInterpolation_snippets hfunction hss
  have hrun : Finds ["中 文'"] ("\x7b\x7b" ++ out ++ "\x7d\x7d")
      (localizeInterpolation scope (ss.flatMap Snippet.text)) := by
    have hout : out = _ := Text.ofString_ofList _
    rw [hout]
    exact ⟨by decide +kernel, by decide +kernel⟩
  obtain rfl : ts' = ["中 文'"] := hfinds.1.symm.trans hrun.1
  obtain rfl : out' = out := by
    have hsame := Except.ok.inj (hfinds.2.symm.trans hrun.2)
    exact List.append_cancel_left (List.append_cancel_right hsame)
  exact ⟨hfunction, hss, hconverts, hfinds, hquiet⟩

end LocaleLift.Markup
