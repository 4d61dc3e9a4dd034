import LocaleLift.Proofs.Markup.Mark

/-! The tokens of markup as rows of its parts: a text token can be read on its own, and what is
found in it is found there in the whole. -/
namespace LocaleLift.Markup

namespace Token

theorem kindOf_ne_text {a : Mark} (ha : a ≠ .interpolation) (t : Text) :
    kindOf (.found a t) ≠ .text := by
  cases a with
  | interpolation => exact absurd rfl ha
  | comment | tag => exact nofun

theorem cons_of_head {p : Part Mark} {ts : List Token}
    (h : kindOf p ≠ .text ∨ ∀ t ∈ ts.head?, t.kind ≠ .text) :
    cons p ts = ⟨kindOf p, p.text⟩ :: ts := by
  rw [cons.eq_def]
  split
  · rw [if_neg (h.elim id fun h => absurd rfl (h _ rfl))]
  · rfl

theorem ofParts_append {ps qs : List (Part Mark)} (hne : ps ≠ [])
    (hps : ∀ p ∈ ps, kindOf p = .text) (hqs : ∀ t ∈ (ofParts qs).head?, t.kind ≠ .text) :
    ofParts (ps ++ qs) = ⟨.text, ps.flatMap Part.text⟩ :: ofParts qs := by
  induction ps with
  | nil => exact absurd rfl hne
  | cons p ps ih =>
    obtain ⟨hp, hps⟩ := List.forall_mem_cons.mp hps
    rw [List.cons_append]
    change cons p (ofParts (ps ++ qs)) = _
    cases ps with
    | nil =>
      rw [List.nil_append, cons_of_head (.inr hqs), hp]
      simp
    | cons p' ps =>
      rw [ih (List.cons_ne_nil p' ps) hps, cons.eq_def]
      simp [hp]

end Token

/-- Parts of text in a row, as they stand in markup before some rest of it. -/
inductive Row : List (Part Mark) → Text → Prop where
  | nil {t : Text} : Row [] t
  | plain {c : CodePoint} {ps : List (Part Mark)} {t : Text}
      (h : matchMark c (ps.flatMap Part.text ++ t) = none) (rest : Row ps t) :
      Row (.plain c :: ps) t
  | interpolation {c : CodePoint} {r : Text} {ps : List (Part Mark)} {t : Text}
      (h : matchMark c (r ++ (ps.flatMap Part.text ++ t)) = some (.interpolation, r.length))
      (rest : Row ps t) : Row (.found .interpolation (c :: r) :: ps) t

/-- Tokens that markup is divided into: each is a comment or a tag, or a row of parts of text. -/
inductive Chunked : Text → List Token → Prop where
  | nil : Chunked [] []
  | mark {c : CodePoint} {r t : Text} {a : Mark} {k : TokenKind} {ts : List Token}
      (h : matchMark c (r ++ t) = some (a, r.length)) (hk : k ≠ .text) (rest : Chunked t ts) :
      Chunked (c :: r ++ t) (⟨k, c :: r⟩ :: ts)
  | words {ps : List (Part Mark)} {t : Text} {ts : List Token} (hne : ps ≠ []) (row : Row ps t)
      (rest : Chunked t ts) :
      Chunked (ps.flatMap Part.text ++ t) (⟨.text, ps.flatMap Part.text⟩ :: ts)

private theorem chunked_cons {p : Part Mark} {t : Text} {ts : List Token}
    (hp : Token.kindOf p = .text)
    (hrow : ∀ {ps u}, ps.flatMap Part.text ++ u = t → Row ps u → Row (p :: ps) u)
    (h : Chunked t ts) : Chunked (p.text ++ t) (Token.cons p ts) := by
  have halone (hnext : ∀ t ∈ ts.head?, t.kind ≠ .text) :
      Chunked (p.text ++ t) (Token.cons p ts) := by
    have hwords := Chunked.words (List.cons_ne_nil p []) (hrow rfl .nil) h
    rw [List.flatMap_singleton] at hwords
    rwa [Token.cons_of_head (.inr hnext), hp]
  cases h with
  | nil => exact halone nofun
  | mark _ hk _ => exact halone (fun t ht => by cases ht; exact hk)
  | @words ps u _ hne row rest =>
    have hwords := Chunked.words (List.cons_ne_nil p ps) (hrow rfl row) rest
    rw [List.flatMap_cons, List.append_assoc] at hwords
    rw [Token.cons.eq_def]
    simpa [hp] using hwords

theorem chunked_tokens (t : Text) : Chunked t (tokens t) := by
  induction hn : t.length using Nat.strong_induction_on generalizing t with
  | _ n ih =>
  subst hn
  cases t with
  | nil => exact .nil
  | cons c t =>
    cases hm : matchMark c t with
    | none =>
      rw [tokens, Text.parts_plain hm]
      exact chunked_cons rfl (fun ht row => .plain (ht ▸ hm) row)
        (ih t.length (Nat.lt_succ_self _) t rfl)
    | some found =>
      obtain ⟨a, n⟩ := found
      obtain ⟨r, t, rfl, rfl⟩ := exists_of_matchMark hm
      have hrest := ih t.length (by rw [List.length_cons, List.length_append]; omega) t rfl
      rw [tokens, ← List.cons_append, Text.parts_found hm]
      change Chunked (c :: r ++ t) (Token.cons (.found a (c :: r)) (tokens t))
      by_cases ha : a = .interpolation
      · subst ha
        exact chunked_cons (p := .found .interpolation (c :: r)) rfl
          (fun ht row => .interpolation (ht ▸ hm) row) hrest
      · have hk := Token.kindOf_ne_text ha (c :: r)
        rw [Token.cons_of_head (.inl hk)]
        exact .mark hm hk hrest

/-- Parts that cover the same text, both of them found or both not. -/
inductive SamePart {α β : Type} : Part α → Part β → Prop where
  | plain (c : CodePoint) : SamePart (.plain c) (.plain c)
  | found (a : α) (b : β) (t : Text) : SamePart (.found a t) (.found b t)

namespace Row

variable {ps : List (Part Mark)} {t : Text}

theorem parts_append (h : Row ps t) : Text.parts matchMark (ps.flatMap Part.text ++ t) =
    ps ++ Text.parts matchMark t := by
  induction h with
  | nil => rfl
  | plain h _ ih =>
    rw [List.cons_append, ← ih, ← Text.parts_plain h]
    rfl
  | interpolation h _ ih =>
    rw [List.cons_append, ← ih, ← Text.parts_found h, List.flatMap_cons, List.append_assoc]
    rfl

/-- A row read on its own has the parts that it has in the whole. -/
theorem samePart (h : Row ps t) :
    List.Forall₂ SamePart (Text.parts matchInterpolation (ps.flatMap Part.text)) ps := by
  induction h with
  | nil => exact .nil
  | @plain c ps t h _ ih =>
    rw [List.flatMap_cons, Part.text, List.singleton_append,
      Text.parts_plain (matchInterpolation_eq_none h)]
    exact .cons (.plain c) ih
  | @interpolation c r ps t h _ ih =>
    obtain ⟨inside, hinside⟩ := exists_matchInterpolation h (ps.flatMap Part.text)
    rw [List.flatMap_cons, Part.text, Text.parts_found hinside]
    exact .cons (.found inside Mark.interpolation (c :: r)) ih

end Row

private theorem mem_of_samePart {α β : Type} {ps : List (Part α)} {qs : List (Part β)}
    (h : List.Forall₂ SamePart ps qs) {c : CodePoint} (hc : .plain c ∈ ps) : .plain c ∈ qs := by
  induction h with
  | nil => cases hc
  | cons hp _ ih =>
    rcases List.mem_cons.mp hc with rfl | hc
    · cases hp
      exact List.mem_cons_self ..
    · exact List.mem_cons_of_mem _ (ih hc)

/-- What stands outside interpolations in a text token stands outside all marks in the markup. -/
theorem mem_parts_of_token {t : Text} {k : Token} (hk : k ∈ tokens t) (htext : k.kind = .text)
    {c : CodePoint} (hc : .plain c ∈ Text.parts matchInterpolation k.chunk) :
    .plain c ∈ Text.parts matchMark t := by
  have h := chunked_tokens t
  generalize tokens t = ts at hk h
  induction h with
  | nil => cases hk
  | mark h hmark _ ih =>
    rw [Text.parts_found h]
    rcases List.mem_cons.mp hk with rfl | hk
    · exact absurd htext hmark
    · exact List.mem_cons_of_mem _ (ih hk)
  | words _ row _ ih =>
    rw [row.parts_append]
    rcases List.mem_cons.mp hk with rfl | hk
    · exact List.mem_append_left _ (mem_of_samePart row.samePart hc)
    · exact List.mem_append_right _ (ih hk)

end LocaleLift.Markup
