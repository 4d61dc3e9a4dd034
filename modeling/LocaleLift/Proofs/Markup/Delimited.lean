import LocaleLift.Proofs.Markup.Chunk
import LocaleLift.Proofs.Markup.Quotes

/-! Tokens are delimited: where each of them ends can be read off its chunk, so that the chunk alone
is divided into this one token. -/
namespace LocaleLift.Markup

/-- A row stands on its own as it stands in markup. -/
theorem Row.alone {ps : List (Part Mark)} {t : Text} (h : Row ps t) : Row ps [] := by
  induction h with
  | nil => exact .nil
  | plain h _ ih =>
    refine .plain ?_ ih
    rw [List.append_nil]
    exact matchMark_eq_none_of_append h
  | interpolation h _ ih =>
    exact .interpolation (matchMark_eq_interpolation.mpr (exists_matchInterpolation h _)) ih

private theorem Row.tokens_eq {ps : List (Part Mark)} {t : Text} (h : Row ps t) (hne : ps ≠ []) :
    tokens (ps.flatMap Part.text) = [⟨.text, ps.flatMap Part.text⟩] := by
  have hparts := h.alone.parts_append
  rw [List.append_nil] at hparts
  rw [tokens, hparts]
  refine Token.ofParts_append hne ?_ fun _ ht => by cases ht
  clear hne hparts
  induction h with
  | nil => exact List.forall_mem_nil _
  | plain _ _ ih | interpolation _ _ ih => exact List.forall_mem_cons.mpr ⟨rfl, ih⟩

private theorem Row.flatten_ne_nil {ps : List (Part Mark)} {t : Text} (h : Row ps t)
    (hne : ps ≠ []) : ps.flatMap Part.text ≠ [] := by
  cases h with
  | nil => exact absurd rfl hne
  | plain | interpolation => exact List.cons_ne_nil _ _

private theorem tail_of_cons {p : Part Mark} {t : Token} {ts us : List Token}
    (h : Token.cons p ts = t :: us) : ∃ before, ts = before ++ us := by
  rw [Token.cons.eq_def] at h
  split at h
  · rename_i chunk ts
    split at h
    · exact ⟨[⟨.text, chunk⟩], congrArg (_ :: ·) (List.cons.inj h).2⟩
    · exact ⟨[], (List.cons.inj h).2⟩
  · exact ⟨[], (List.cons.inj h).2⟩

/-- From the beginning of a token on, markup is divided as it is in the whole. -/
theorem tokens_of_append {markup : Text} {ts us : List Token} (h : tokens markup = ts ++ us) :
    tokens (us.flatMap Token.chunk) = us := by
  induction hn : markup.length using Nat.strong_induction_on generalizing markup ts with
  | _ n ih =>
  subst hn
  cases ts with
  | nil =>
    rw [List.nil_append] at h
    rw [← h, flatten_tokens]
  | cons first ts =>
    cases markup with
    | nil => cases h
    | cons c t =>
      have hmore {p : Part Mark} {rest : Text} (hlength : rest.length < (c :: t).length)
          (hcons : Token.cons p (tokens rest) = first :: (ts ++ us)) :
          tokens (us.flatMap Token.chunk) = us := by
        obtain ⟨before, hbefore⟩ := tail_of_cons hcons
        rw [← List.append_assoc] at hbefore
        exact ih rest.length hlength hbefore rfl
      cases hm : matchMark c t with
      | none =>
        rw [tokens, Text.parts_plain hm] at h
        exact hmore (Nat.lt_succ_self _) h
      | some found =>
        obtain ⟨a, n⟩ := found
        obtain ⟨r, t, rfl, rfl⟩ := exists_of_matchMark hm
        rw [tokens, ← List.cons_append, Text.parts_found hm] at h
        exact hmore (by rw [List.length_cons, List.length_append]; omega) h

private theorem isChain_cons {p : Part Mark} {ts : List Token}
    (h : ts.IsChain fun t u => ¬ (t.kind = .text ∧ u.kind = .text)) :
    (Token.cons p ts).IsChain fun t u => ¬ (t.kind = .text ∧ u.kind = .text) := by
  rw [Token.cons.eq_def]
  split
  · rename_i chunk ts
    split
    · cases h with
      | singleton => exact .singleton _
      | cons_cons hnext hrest => exact .cons_cons hnext hrest
    · rename_i hp
      exact h.cons_cons fun hboth => hp hboth.1
  · rename_i hts
    cases ts with
    | nil => exact .singleton _
    | cons t ts =>
      refine h.cons_cons fun hboth => ?_
      obtain ⟨k, chunk⟩ := t
      obtain rfl : k = .text := hboth.2
      exact hts chunk ts rfl

/-- No two text tokens stand side by side. -/
theorem isChain_tokens (markup : Text) :
    (tokens markup).IsChain fun t u => ¬ (t.kind = .text ∧ u.kind = .text) := by
  rw [tokens]
  induction Text.parts matchMark markup with
  | nil => exact .nil
  | cons p ps ih => exact isChain_cons ih

/-- Where a chunk of some kind ends, given what follows it: a comment with the first mark that
closes it, a tag with the first bracket outside quotes, and both with the markup if there is none.
Text ends where one of these begins. -/
def Delimits (rest : Text) : TokenKind → Text → Prop
  | .comment, chunk => ∃ body, chunk = "<!--" ++ body ∧
      (EndsFirst "-->" body ∨ rest = [] ∧ ¬ ("-->" : Text) <:+: body)
  | .tag, chunk => (∃ c r, chunk = .scalar '<' :: c :: r ∧ startsTag c = true) ∧
      ((∃ s, chunk = s ++ [.scalar '>'] ∧ quoteAfter none s = some none) ∨
        rest = [] ∧ (quoteAfter none chunk).isSome = true)
  | .text, _ => True

private theorem delimits_tag {c : CodePoint} {r t : Text}
    (h : matchMark c (r ++ t) = some (.tag, r.length)) : Delimits t .tag (c :: r) := by
  obtain ⟨rfl, -, hstarts, hlength⟩ := matchMark_eq_tag.mp h
  have hwhole : tagLength none ((.scalar '<' :: r) ++ t) = (CodePoint.scalar '<' :: r).length := by
    rw [List.cons_append, tagLength_angle, hlength, List.length_cons, Nat.add_comm]
  have hends := tagLength_eq_length.mp hwhole
  refine ⟨?_, hends⟩
  cases r with
  | cons d r => exact ⟨d, r, rfl, by simpa using hstarts⟩
  | nil =>
    rcases hends with ⟨s, hs, -⟩ | ⟨rfl, -⟩
    · cases s with
      | nil => cases hs
      | cons d s => cases s <;> cases hs
    · cases hstarts

/-- What holds of a token and what follows it in markup. -/
private theorem delimited_of_tokens {t : Token} {ts : List Token} {markup : Text}
    (h : tokens markup = t :: ts) : t.chunk ≠ [] ∧ tokens t.chunk = [t] ∧
      Delimits (ts.flatMap Token.chunk) t.kind t.chunk := by
  have hchunked := chunked_tokens markup
  have hflat := flatten_tokens markup
  rw [h] at hchunked hflat
  cases hchunked with
  | words hne row rest =>
    exact ⟨row.flatten_ne_nil hne, row.tokens_eq hne, trivial⟩
  | @mark c r rest a k _ hm hk _ =>
    obtain rfl := List.append_cancel_left hflat
    rw [tokens, Text.parts_found hm] at h
    change Token.cons (.found a (c :: r)) _ = _ at h
    have ha : a ≠ .interpolation := by
      rintro rfl
      rw [Token.cons.eq_def] at h
      split at h <;> exact hk (congrArg Token.kind (List.cons.inj h).1).symm
    rw [Token.cons_of_head (.inl (Token.kindOf_ne_text ha _))] at h
    obtain rfl : Token.kindOf (.found a (c :: r)) = k := congrArg Token.kind (List.cons.inj h).1
    refine ⟨List.cons_ne_nil c r, ?_, ?_⟩
    · have halone := Text.parts_found (matchMark_append hm fun _ => rfl)
      rw [List.append_nil] at halone
      rw [tokens, halone]
      rfl
    · cases a with
      | comment => exact comment_of_matchMark hm
      | tag => exact delimits_tag hm
      | interpolation => exact absurd rfl ha

/-- Tokens divide markup without a loss, into chunks of which none is empty and no two texts stand
side by side. Comments and tags end where they are closed first, or with the markup, and each chunk
on its own is divided into just its token. -/
theorem tokens_delimited (markup : Text) :
    (tokens markup).flatMap Token.chunk = markup ∧
    (tokens markup).IsChain (fun t u => ¬ (t.kind = .text ∧ u.kind = .text)) ∧
    ∀ before t after, tokens markup = before ++ t :: after →
      t.chunk ≠ [] ∧ tokens t.chunk = [t] ∧
        Delimits (after.flatMap Token.chunk) t.kind t.chunk := by
  refine ⟨flatten_tokens markup, isChain_tokens markup, fun before t after h => ?_⟩
  exact delimited_of_tokens (tokens_of_append h)

/-- An interpolation that is not closed hides no tag, and the mark that opens a comment has no part
in closing it. -/
example : tokens "\x7b\x7b <a b='>'>c<!-->" =
    [⟨.text, "\x7b\x7b "⟩, ⟨.tag, "<a b='>'>"⟩, ⟨.text, "c"⟩, ⟨.comment, "<!-->"⟩] := by
  decide

end LocaleLift.Markup
