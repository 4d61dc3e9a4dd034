import LocaleLift.Proofs.Markup.Localized
import LocaleLift.Proofs.Script.Draft

/-! A localized template is revised by inert drafts, if the texts found in it hold no quote and no
angle bracket. -/
namespace LocaleLift.Markup

open Draft (keep)
open Extract (Finds)

/-- If a step finds only texts without quotes and angle brackets, an inert draft turns a given text
into the one that it comes to. -/
def Drafts (t : Text) (x : Extract Text) : Prop :=
  ∀ ts out, Finds ts out x → (∀ s ∈ ts, Text.IsPlain s) →
    ∃ draft : Draft, draft.IsInert ∧ draft.old = t ∧ draft.new = out

private theorem drafts_pure (t : Text) : Drafts t (pure t) := by
  intro ts out h _
  obtain ⟨-, rfl⟩ := Extract.finds_pure.mp h
  exact ⟨keep out, Draft.isInert_keep out, Draft.old_keep out, Draft.new_keep out⟩

private theorem Drafts.join {s t : Text} {x y : Extract Text} (hx : Drafts s x) (hy : Drafts t y) :
    Drafts (s ++ t) (do return (← x) ++ (← y)) := by
  intro ts out h hts
  obtain ⟨us, a, vs, hxa, hrest, rfl⟩ := Extract.finds_bind.mp h
  obtain ⟨b, hyb, rfl⟩ := Extract.finds_map.mp hrest
  obtain ⟨hus, hvs⟩ := List.forall_mem_append.mp hts
  obtain ⟨first, hfirst, rfl, rfl⟩ := hx us a hxa hus
  obtain ⟨second, hsecond, rfl, rfl⟩ := hy vs b hyb hvs
  exact ⟨first ++ second, Draft.isInert_append.mpr ⟨hfirst, hsecond⟩, Draft.old_append ..,
    Draft.new_append ..⟩

/-- What stands around a text is kept. -/
private theorem Drafts.within {t : Text} {x : Extract Text} (h : Drafts t x)
    (before after : Text) : Drafts (before ++ t ++ after) (do return before ++ (← x) ++ after) := by
  intro ts out hout hts
  obtain ⟨a, ha, rfl⟩ := Extract.finds_map.mp hout
  obtain ⟨draft, hdraft, rfl, rfl⟩ := h ts a ha hts
  refine ⟨keep before ++ draft ++ keep after, ?_, ?_, ?_⟩
  · exact Draft.isInert_append.mpr ⟨Draft.isInert_append.mpr ⟨Draft.isInert_keep before, hdraft⟩,
      Draft.isInert_keep after⟩
  · rw [Draft.old_append, Draft.old_append, Draft.old_keep, Draft.old_keep]
  · rw [Draft.new_append, Draft.new_append, Draft.new_keep, Draft.new_keep]

private theorem drafts_localizeTokens (kind : TokenKind) {localize : Text → Extract Text}
    (h : ∀ t, Drafts t (localize t)) (ts : List Token) :
    Drafts (ts.flatMap Token.chunk) (localizeTokens kind localize ts) := by
  induction ts with
  | nil => exact drafts_pure []
  | cons t ts ih =>
    rw [localizeTokens, List.flatMap_cons]
    split
    · exact (h t.chunk).join ih
    · exact (drafts_pure t.chunk).join ih

private theorem drafts_localizeParts {α : Type} {localize : α → Extract Text} (ps : List (Part α))
    (h : ∀ a raw, .found a raw ∈ ps → Drafts raw (localize a)) :
    Drafts (ps.flatMap Part.text) (localizeParts localize ps) := by
  induction ps with
  | nil => exact drafts_pure []
  | cons p ps ih =>
    have hrest := ih fun a raw hp => h a raw (List.mem_cons_of_mem p hp)
    cases p with
    | plain c => exact (drafts_pure [c]).join hrest
    | found a raw => exact (h a raw (List.mem_cons_self ..)).join hrest

private theorem drafts_parts {α : Type} {m : Matcher α} {localize : α → Extract Text}
    (h : ∀ c t a n, m c t = some (a, n) → Drafts (c :: t.take n) (localize a)) (t : Text) :
    Drafts t (localizeParts localize (Text.parts m t)) := by
  have hfound (a : α) (raw : Text) (hp : .found a raw ∈ Text.parts m t) :
      Drafts raw (localize a) := by
    obtain ⟨before, c, after, n, -, hm, rfl⟩ := Text.of_mem_parts hp
    exact h c after a n hm
  have hparts := drafts_localizeParts (Text.parts m t) hfound
  rwa [Text.flatten_parts] at hparts

/-- How the parts of an attribute are spelt. -/
structure Attribute.IsSpelt (a : Attribute) : Prop where
  space : a.space.isSpace = true
  name : ∀ c ∈ a.name, isNameChar c = true
  equals : ∀ c ∈ a.equals, c.isSpace = true ∨ c = .scalar '='
  quote : a.quote.IsQuote

namespace Attribute

theorem isSpelt_of_matchAttribute {c : CodePoint} {t : Text} {a : Attribute} {n : Nat}
    (h : matchAttribute c t = some (a, n)) : a.IsSpelt := by
  unfold matchAttribute at h
  split at h
  · rename_i hspace
    dsimp only at h
    split at h
    · split at h
      · split at h
        · cases h
        · rename_i hvalid
          cases h
          simp only [Bool.or_eq_true, not_or] at hvalid
          exact {
            space := hspace
            name := fun c hc => List.all_eq_true.mp List.all_takeWhile c hc
            equals := List.forall_mem_append.mpr
              ⟨fun c hc => .inl (List.all_eq_true.mp List.all_takeWhile c hc),
                List.forall_mem_cons.mpr ⟨.inr rfl,
                  fun c hc => .inl (List.all_eq_true.mp List.all_takeWhile c hc)⟩⟩
            quote := by simpa [CodePoint.IsQuote, or_iff_not_imp_left] using hvalid.1.2 }
      · cases h
    · cases h
  · cases h

theorem isPlain_of_isNameChar {c : CodePoint} (h : isNameChar c = true) : c.IsPlain := by
  refine ⟨?_, ?_, ?_⟩
  · rintro (rfl | rfl)
    · cases h
    · cases h
  · rintro rfl
    cases h
  · rintro rfl
    cases h

/-- An attribute can be swapped as a whole, if its value leaves quotes as they were. -/
private theorem IsSpelt.sealed {a : Attribute} (h : a.IsSpelt) (hvalue : Text.Balanced a.value) :
    Text.Sealed a.text where
  balanced := by
    have hspace : Text.IsPlain [a.space] :=
      List.forall_mem_singleton.mpr (CodePoint.isPlain_of_isSpace h.space)
    have hname : Text.IsPlain a.name := fun c hc => isPlain_of_isNameChar (h.name c hc)
    have hequals : Text.IsPlain a.equals := by
      intro c hc
      rcases h.equals c hc with hc | rfl
      · exact CodePoint.isPlain_of_isSpace hc
      · decide
    have hquoted := Text.Balanced.quoted h.quote hvalue
    have hall := ((Text.Balanced.plain hspace).append (.plain hname)).append
      ((Text.Balanced.plain hequals).append hquoted)
    simpa [text] using hall
  last := by
    refine ⟨_, a.quote, rfl, ?_⟩
    rcases h.quote with hq | hq
    · rw [hq]
      decide
    · rw [hq]
      decide

private theorem exists_innerQuote (a : Attribute) :
    ∃ q, CodePoint.IsQuote q ∧ a.innerQuote = [q] := by
  rw [innerQuote]
  split
  · exact ⟨.scalar '\x27', .inr rfl, rfl⟩
  · exact ⟨.scalar '\x22', .inl rfl, rfl⟩

end Attribute

section Passes

variable {scope : Scope} (h : scope.IsPlain)

include h

/-- An attribute whose value is an expression is kept but for passages of this, and any other is
swapped as a whole. -/
private theorem drafts_localizeAttribute [Script.Parser] [Script.Parser.IsSound] {a : Attribute}
    (ha : a.IsSpelt) :
    Drafts a.text (a.localize scope) := by
  obtain ⟨q, hq, hinner⟩ := a.exists_innerQuote
  rw [Attribute.localize]
  split
  · exact drafts_pure a.text
  · split
    · have hvalue : Drafts a.value (Script.Binding.localize scope a.innerQuote a.value) := by
        intro ts out hout hts
        obtain ⟨draft, htight, hdraft⟩ :=
          Script.Binding.exists_draft_localize ⟨h, q, hq, hinner⟩ hout hts
        exact ⟨draft, htight.isInert, hdraft⟩
      have hwithin := hvalue.within (a.space :: a.name ++ a.equals ++ [a.quote]) [a.quote]
      intro ts out hout hts
      obtain ⟨us, b, vs, -, hrest, rfl⟩ := Extract.finds_bind.mp hout
      obtain ⟨-, hvs⟩ := List.forall_mem_append.mp hts
      split at hrest
      · exact drafts_pure a.text vs out hrest hvs
      · obtain ⟨value, hfinds, rfl⟩ := Extract.finds_map.mp hrest
        obtain ⟨draft, hinert, hold, hnew⟩ := hwithin vs _
          (Extract.finds_map.mpr ⟨value, hfinds, rfl⟩) hvs
        exact ⟨draft, hinert, by simpa [Attribute.text] using hold,
          by simpa [Attribute.text] using hnew⟩
    -- The name gets a colon, with which no passage begins, so the space in front goes along.
    · intro ts out hout hts
      obtain ⟨hfound, hout⟩ := hout
      obtain rfl := Except.ok.inj hout
      have hplain : (Text.trim a.value).IsPlain := hts _ (hfound ▸ List.mem_singleton.mpr rfl)
      refine ⟨[.swapped a.text _], Draft.isInert_cons.mpr ⟨⟨?_, ?_, ?_⟩, Draft.isInert_nil⟩,
        List.append_nil _, List.append_nil _⟩
      · exact ha.sealed (.plain (Text.isPlain_trim.mp hplain))
      · have hnew : Attribute.IsSpelt { a with
            name := .scalar ':' :: a.name, equals := "=",
            value := scope.call a.innerQuote (Text.trim a.value) } := {
          space := ha.space
          name := List.forall_mem_cons.mpr ⟨by decide, ha.name⟩
          equals := List.forall_mem_singleton.mpr (.inr rfl)
          quote := ha.quote }
        refine hnew.sealed ?_
        rw [hinner]
        exact h.balanced_call hq hplain
      · exact .space _ _ ha.space

private theorem drafts_attributePass [Script.Parser] [Script.Parser.IsSound] (markup : Text) :
    Drafts markup (attributePass scope markup) := by
  have htag (tag : Text) : Drafts tag (localizeTag scope tag) := by
    rw [localizeTag]
    split
    · exact drafts_pure tag
    · refine drafts_parts (fun c t a n hm => ?_) tag
      rw [← (Attribute.text_of_matchAttribute hm).1]
      exact drafts_localizeAttribute h (Attribute.isSpelt_of_matchAttribute hm)
  have htokens := drafts_localizeTokens .tag htag (tokens markup)
  rwa [flatten_tokens] at htokens

private theorem isPassage_asInterpolation {t : Text} (ht : t.IsPlain) :
    Text.IsPassage (asInterpolation (scope.call "\x27" t)) :=
  h.isPassage_call (q := .scalar '\x27') (.inr rfl) ht (by decide) (by decide)
    (.inr ⟨_, _, rfl, by decide⟩) (.inr ⟨" \x7d", _, rfl, by decide⟩)

private theorem drafts_wrapWords (words : Text) : Drafts words (wrapWords scope words) := by
  intro ts out hout _
  obtain rfl := Except.ok.inj hout.2
  have hruns (r : Text) (hr : .run r ∈ Text.pieces .ideographs words) :
      r.IsPassage ∧ Text.IsPassage (asInterpolation (scope.call "\x27" r)) := by
    have hrun := Text.isRun_of_mem_pieces hr
    exact ⟨hrun.isPassage, isPassage_asInterpolation h hrun.isPlain⟩
  obtain ⟨draft, htight, hold, hnew⟩ := Text.exists_draft_wrapRuns hruns
  exact ⟨draft, htight.isInert, hold.trans (Text.flatten_pieces ..), hnew⟩

private theorem drafts_localizeBetween (words : Text) (ps : List (Part Text)) :
    Drafts (words ++ ps.flatMap Part.text) (localizeBetween scope words ps) := by
  induction ps generalizing words with
  | nil =>
    rw [List.flatMap_nil, List.append_nil]
    exact drafts_wrapWords h words
  | cons p ps ih =>
    cases p with
    | plain c =>
      have hrest := ih (words ++ [c])
      rwa [List.append_assoc] at hrest
    | found a raw =>
      have hjoin := (drafts_wrapWords h words).join ((drafts_pure raw).join (ih []))
      simpa [localizeBetween, Part.text] using hjoin

private theorem drafts_textPass (markup : Text) : Drafts markup (textPass scope markup) := by
  have hchunk (chunk : Text) : Drafts chunk (localizeWords scope chunk) := by
    rw [localizeWords]
    split
    · exact drafts_pure chunk
    · have hbetween := drafts_localizeBetween h [] (Text.parts matchInterpolation chunk)
      rwa [Text.flatten_parts] at hbetween
  have htokens := drafts_localizeTokens .text hchunk (tokens markup)
  rwa [flatten_tokens] at htokens

private theorem drafts_replacement {q : CodePoint} (hq : q.IsQuote) (body : Text) :
    Drafts (q :: (body ++ [q])) (replacement scope body) := by
  intro ts out hout hts
  obtain ⟨us, v, vs, hcook, hrest, rfl⟩ := Extract.finds_bind.mp hout
  obtain ⟨hus, hvs⟩ := List.forall_mem_append.mp hts
  obtain ⟨hfound, hout⟩ := hrest
  obtain rfl := Except.ok.inj hout
  have hplain : (Text.trim v).IsPlain := hvs _ (hfound ▸ List.mem_singleton.mpr rfl)
  have hbody : Text.IsPlain body := Literal.isPlain_of_cook hcook.2 (Text.isPlain_trim.mp hplain)
  have hcall := h.isPassage_call (q := .scalar '\x27') (.inr rfl) hplain
    (List.forall_mem_nil _) (List.forall_mem_nil _) (.inl rfl) (.inl rfl)
  rw [List.nil_append, List.append_nil] at hcall
  exact ⟨[.swapped _ _], Draft.IsTight.isInert (List.forall_mem_singleton.mpr
    ⟨Text.isPassage_quoted hq hbody, hcall⟩), List.append_nil _, List.append_nil _⟩

private theorem drafts_localizeLiterals (before : Text) (ps : List (Part Text))
    (hps : ∀ body raw, .found body raw ∈ ps →
      ∃ q, CodePoint.IsQuote q ∧ raw = q :: (body ++ [q])) :
    Drafts (ps.flatMap Part.text) (localizeLiterals scope before ps) := by
  induction ps generalizing before with
  | nil => exact drafts_pure []
  | cons p ps ih =>
    have hrest (before : Text) :=
      ih before fun body raw hp => hps body raw (List.mem_cons_of_mem p hp)
    cases p with
    | plain c => exact (drafts_pure [c]).join (hrest _)
    | found body raw =>
      rw [localizeLiterals]
      split
      · obtain ⟨q, hq, rfl⟩ := hps body raw (List.mem_cons_self ..)
        have hjoin := (drafts_replacement h hq body).join (hrest (before ++ q :: (body ++ [q])))
        simp only [replacement, bind_assoc] at hjoin
        exact hjoin
      · exact (drafts_pure raw).join (hrest _)

private theorem drafts_interpolationPass (markup : Text) :
    Drafts markup (interpolationPass scope markup) := by
  have hinside (inside : Text) :
      Drafts ("\x7b\x7b" ++ inside ++ "\x7d\x7d") (localizeInterpolation scope inside) := by
    have hliterals := drafts_localizeLiterals h [] (Text.parts matchLiteral inside)
      fun body raw hp => by
        obtain ⟨before, c, after, n, -, hm, rfl⟩ := Text.of_mem_parts hp
        exact ⟨c, raw_of_matchLiteral hm⟩
    rw [Text.flatten_parts] at hliterals
    exact hliterals.within _ _
  have hchunk (chunk : Text) : Drafts chunk (localizeInterpolations scope chunk) := by
    rw [localizeInterpolations]
    split
    · exact drafts_pure chunk
    · refine drafts_parts (fun c t a n hm => ?_) chunk
      rw [raw_of_matchInterpolation hm]
      exact hinside a
  have htokens := drafts_localizeTokens .text hchunk (tokens markup)
  rwa [flatten_tokens] at htokens

/-- If a step finds only texts without quotes and angle brackets, a given text is revised to the one
that it comes to. -/
private def Revises (t : Text) (x : Extract Text) : Prop :=
  ∀ ts out, Finds ts out x → (∀ s ∈ ts, Text.IsPlain s) → Text.Revised t out

omit h in
private theorem Drafts.revises_bind {t : Text} {x : Extract Text} {f : Text → Extract Text}
    (hx : Drafts t x) (hf : ∀ u, Revises u (f u)) : Revises t (x >>= f) := by
  intro ts out hout hts
  obtain ⟨us, u, vs, hu, hrest, rfl⟩ := Extract.finds_bind.mp hout
  obtain ⟨hus, hvs⟩ := List.forall_mem_append.mp hts
  exact .head (hx us u hu hus) (hf u vs out hrest hvs)

private theorem revises_settle (n : Nat) (markup : Text) :
    Revises markup (settle scope n markup) := by
  have hrest (t : Text) : Revises t (pure t) := by
    intro ts out hout _
    obtain ⟨-, rfl⟩ := Extract.finds_pure.mp hout
    exact .refl
  induction n generalizing markup with
  | zero => exact hrest markup
  | succ n ih =>
    refine (drafts_textPass h markup).revises_bind fun new => ?_
    split
    · rename_i hnew
      rw [hnew]
      exact hrest markup
    · exact ih new

/-- A template is revised by localizing it. -/
theorem revises_localize [Script.Parser] [Script.Parser.IsSound] {template out : Text}
    {ts : List Text}
    (hout : Finds ts out (localize scope template)) (hts : ∀ t ∈ ts, Text.IsPlain t) :
    Text.Revised template out := by
  have hall : Revises template (localize scope template) :=
    (drafts_attributePass h template).revises_bind fun first =>
      (drafts_textPass h first).revises_bind fun second =>
        (drafts_interpolationPass h second).revises_bind fun third => revises_settle h 5 third
  exact hall ts out hout hts

end Passes

end LocaleLift.Markup
