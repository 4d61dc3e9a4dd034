import LocaleLift.Proofs.Literal.Spelling
import LocaleLift.Proofs.Text.Inert
import LocaleLift.Script.Lexeme

/-! The literal that is written for a value is one literal, and its value is the one written. -/
namespace LocaleLift.Literal

open Script.Lexeme (QuotedBody)

section Spell

variable {q : CodePoint} (hq : q.IsQuote) (c : CodePoint) {t : Text}

include hq

private theorem cook_spell : cook (spell q c ++ t) = do return c :: (← cook t) := by
  have hescape {r : Text} (h : escape? (r ++ t) = some (.text [c], r.length)) :
      cook (.scalar '\\' :: r ++ t) = do return c :: (← cook t) := cook_escape h
  have hnumber {r : Text} {n : Nat} (h : escape? (r ++ t) = some (.number n, r.length))
      (hn : CodePoint.ofNat? n = some c) :
      cook (.scalar '\\' :: r ++ t) = do return c :: (← cook t) := by
    rw [List.cons_append, cook_escape h, Escape.cook, hn]
    rfl
  unfold spell
  split
  · rename_i hslash
    subst hslash
    exact hescape (r := [.scalar '\\']) rfl
  rename_i hslash
  split
  · rename_i hquote
    subst hquote
    rcases hq with rfl | rfl
    · exact hescape (r := [.scalar '\x22']) rfl
    · exact hescape (r := [.scalar '\x27']) rfl
  split
  · rename_i hfeed
    subst hfeed
    exact hescape (r := "n") rfl
  split
  · rename_i hreturn
    subst hreturn
    exact hescape (r := "r") rfl
  split
  · rename_i hline
    subst hline
    exact hnumber (r := "u2028") rfl rfl
  split
  · rename_i hparagraph
    subst hparagraph
    exact hnumber (r := "u2029") rfl rfl
  · exact cook_cons hslash t

private theorem quotedBody_spell (ht : QuotedBody q t) : QuotedBody q (spell q c ++ t) := by
  have hplain {d : CodePoint} {s : Text} (hd : ¬ d.IsQuote ∧ d ≠ .scalar '\\')
      (hs : QuotedBody q s) : QuotedBody q (d :: s) :=
    .plain (fun he => hd.1 (he ▸ hq)) hd.2 hs
  unfold spell
  split
  · exact .escape ht
  rename_i hslash
  split
  · exact .escape ht
  rename_i hquote
  split
  · exact .escape ht
  split
  · exact .escape ht
  split
  · exact .escape (hplain (by decide) (hplain (by decide) (hplain (by decide)
      (hplain (by decide) ht))))
  split
  · exact .escape (hplain (by decide) (hplain (by decide) (hplain (by decide)
      (hplain (by decide) ht))))
  · exact .plain hquote hslash ht

theorem not_mem_spell : ∀ d ∈ spell q c, d ∉ lineEnds := by
  unfold spell
  split
  · decide
  split
  · rcases hq with rfl | rfl
    · decide
    · decide
  split
  · decide
  rename_i hfeed
  split
  · decide
  rename_i hreturn
  split
  · decide
  rename_i hline
  split
  · decide
  rename_i hparagraph
  intro d hd
  obtain rfl := List.mem_singleton.mp hd
  simp [lineEnds, Text.ofString, hfeed, hreturn, hline, hparagraph]

end Spell

variable {q : CodePoint}

private theorem cook_spelled (hq : q.IsQuote) (value : Text) :
    cook (value.flatMap (spell q)) = .ok value := by
  induction value with
  | nil => rfl
  | cons c value ih =>
    rw [List.flatMap_cons, cook_spell hq, ih]
    rfl

theorem quotedBody_spelled (hq : q.IsQuote) (value : Text) :
    QuotedBody q (value.flatMap (spell q)) := by
  induction value with
  | nil => exact .nil
  | cons c value ih =>
    rw [List.flatMap_cons]
    exact quotedBody_spell hq c ih

/-- Between its quotes a written literal holds no line end and such a quote only behind a backslash,
which is never the last code point there; and what stands there has the value that was written. -/
theorem exists_body_quote (hq : q.IsQuote) (value : Text) :
    ∃ body, quote [q] value = q :: (body ++ [q]) ∧ (∀ c ∈ body, c ∉ lineEnds) ∧
      QuotedBody q body ∧ cook body = .ok value := by
  refine ⟨value.flatMap (spell q), quote_eq_spell hq value, ?_, quotedBody_spelled hq value,
    cook_spelled hq value⟩
  intro c hc
  obtain ⟨d, -, hc⟩ := List.mem_flatMap.mp hc
  exact not_mem_spell hq d c hc

/-- A value that looks like an escape, with a quote, a line end and a surrogate in it. -/
theorem exists_body_quote_escape :
    let q : CodePoint := .scalar '\x22'
    let value : Text := .surrogate 0 :: "\\u0041\x22\u2028"
    let body : Text := .surrogate 0 :: "\\\\u0041\\\x22\\u2028"
    q.IsQuote ∧ quote [q] value = q :: (body ++ [q]) ∧ (∀ c ∈ body, c ∉ lineEnds) ∧
      QuotedBody q body ∧ cook body = .ok value := by
  intro q value body
  have hq : q.IsQuote := .inl rfl
  obtain ⟨body', hquote, hlines, hbody, hcook⟩ := exists_body_quote hq value
  have hsame : quote [q] value = q :: (body ++ [q]) := by decide +kernel
  obtain rfl : body' = body :=
    List.append_cancel_right (List.cons.inj (hquote.symm.trans hsame)).2
  exact ⟨hq, hquote, hlines, hbody, hcook⟩

end LocaleLift.Literal
