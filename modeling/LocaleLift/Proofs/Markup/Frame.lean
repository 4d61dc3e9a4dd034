import LocaleLift.Proofs.Markup.Inline
import LocaleLift.Proofs.Markup.Quotes

/-! The tokens of a template stay what they are while it is localized, if its tags hold together and
its interpolations are closed. -/
namespace LocaleLift.Markup

open Extract (Finds)

/-- Tokens that markup is divided into if every interpolation in its text is closed. -/
inductive Laid : List Token → Prop where
  | nil : Laid []
  | mark {c : CodePoint} {r : Text} {a : Mark} {ts : List Token}
      (h : matchMark c (r ++ ts.flatMap Token.chunk) = some (a, r.length))
      (ha : a ≠ .interpolation) (rest : Laid ts) :
      Laid (⟨Token.kindOf (.found a (c :: r)), c :: r⟩ :: ts)
  | words {s : Text} {ts : List Token} (hne : s ≠ []) (h : Inline s)
      (hnext : ∀ t ∈ ts.head?, t.kind ≠ .text) (rest : Laid ts) : Laid (⟨.text, s⟩ :: ts)

/-- Every interpolation that begins in the text of markup is closed. -/
def Closes (markup : Text) : Prop :=
  ¬ [.plain (.scalar '\x7b'), .plain (.scalar '\x7b')] <:+: Text.parts matchMark markup

instance (markup : Text) : Decidable (Closes markup) :=
  inferInstanceAs (Decidable (¬ _))

namespace Laid

variable {ts : List Token}

theorem eq_nil (h : Laid ts) (hts : ts.flatMap Token.chunk = []) : ts = [] := by
  cases h with
  | nil => rfl
  | mark => cases hts
  | words hne =>
    rw [List.flatMap_cons, List.append_eq_nil_iff] at hts
    exact absurd hts.1 hne

/-- Behind text there is an angle bracket, if anything. -/
private theorem head_angle (h : Laid ts) (hnext : ∀ t ∈ ts.head?, t.kind ≠ .text) :
    ∀ c ∈ (ts.flatMap Token.chunk).head?, c = .scalar '<' := by
  cases h with
  | nil => exact nofun
  | @mark c r a ts hm ha rest =>
    intro d hd
    cases hd
    by_contra hc
    exact ha (eq_interpolation_of_matchMark hc hm)
  | words => exact absurd rfl (hnext _ rfl)

theorem inline (h : Laid ts) {t : Token} (ht : t ∈ ts) (hk : t.kind = .text) : Inline t.chunk := by
  induction h with
  | nil => cases ht
  | mark _ ha _ ih =>
    rcases List.mem_cons.mp ht with rfl | ht
    · exact absurd hk (Token.kindOf_ne_text ha _)
    · exact ih ht
  | words _ hs _ _ ih =>
    rcases List.mem_cons.mp ht with rfl | ht
    · exact hs
    · exact ih ht

/-- They are what the markup that they make up is divided into. -/
theorem tokens_eq (h : Laid ts) : tokens (ts.flatMap Token.chunk) = ts := by
  induction h with
  | nil => rfl
  | @mark c r a ts hm ha rest ih =>
    rw [List.flatMap_cons, tokens, Text.parts_found hm]
    change Token.cons (.found a (c :: r)) (tokens (ts.flatMap Token.chunk)) = _
    rw [ih, Token.cons_of_head (.inl (Token.kindOf_ne_text ha _))]
    rfl
  | @words s ts hne hs hnext rest ih =>
    obtain ⟨ps, hps, hflat, htext⟩ := hs.exists_parts (rest.head_angle hnext)
    have hne : ps ≠ [] := by
      rintro rfl
      exact hne hflat.symm
    rw [tokens] at ih
    rw [List.flatMap_cons, tokens, hps, Token.ofParts_append hne htext (by rwa [ih]), hflat, ih]

end Laid

private theorem laid_cons {p : Part Mark} {ts : List Token} (hp : Token.kindOf p = .text)
    (hne : p.text ≠ []) (hjoin : ∀ s u, ts.flatMap Token.chunk = s ++ u → Inline s →
      Inline (p.text ++ s)) (h : Laid ts) : Laid (Token.cons p ts) := by
  have halone (hnext : ∀ t ∈ ts.head?, t.kind ≠ .text) : Laid (Token.cons p ts) := by
    rw [Token.cons_of_head (.inr hnext), hp]
    have hinline := hjoin [] _ rfl .nil
    rw [List.append_nil] at hinline
    exact .words hne hinline hnext h
  cases h with
  | nil => exact halone nofun
  | mark _ ha => exact halone (fun t ht => by cases ht; exact Token.kindOf_ne_text ha _)
  | @words s ts hs hinline hnext rest =>
    have hcons : Token.cons p (⟨.text, s⟩ :: ts) = ⟨.text, p.text ++ s⟩ :: ts := by
      rw [Token.cons.eq_def]
      simp [hp]
    rw [hcons]
    exact .words (List.append_ne_nil_of_left_ne_nil hne s) (hjoin s _ rfl hinline) hnext rest

/-- A brace at which no interpolation begins is not followed by another one. -/
private theorem not_opens {c : CodePoint} {t : Text} (h : Closes (c :: t))
    (hm : matchMark c t = none) :
    ¬ (c = .scalar '\x7b' ∧ t.head? = some (.scalar '\x7b')) := by
  rintro ⟨rfl, hhead⟩
  obtain ⟨u, rfl⟩ := List.head?_eq_some_iff.mp hhead
  have hclosed := matchMark_brace_eq_none.mp hm
  cases hu : matchMark (.scalar '\x7b') u with
  | none =>
    refine h ?_
    rw [Text.parts_plain hm, Text.parts_plain hu]
    exact (List.prefix_append [_, _] _).isInfix
  | some found =>
    obtain ⟨a, n⟩ := found
    obtain rfl := eq_interpolation_of_matchMark (by decide) hu
    obtain ⟨inside, hinside⟩ := matchMark_eq_interpolation.mp hu
    obtain ⟨-, v, rest, rfl, hsplit, -⟩ := matchInterpolation_eq_some.mp hinside
    refine hclosed ?_
    rw [Text.splitAt?_eq_some hsplit]
    exact ⟨.scalar '\x7b' :: inside, rest, rfl⟩

theorem laid_tokens {markup : Text} (h : Closes markup) : Laid (tokens markup) := by
  induction hn : markup.length using Nat.strong_induction_on generalizing markup with
  | _ n ih =>
  subst hn
  cases markup with
  | nil => exact .nil
  | cons c t =>
    cases hm : matchMark c t with
    | none =>
      have hopen := not_opens h hm
      rw [Closes, Text.parts_plain hm] at h
      rw [tokens, Text.parts_plain hm]
      have hrest := ih t.length (Nat.lt_succ_self _)
        (fun hbraces => h (hbraces.trans (List.suffix_cons _ _).isInfix)) rfl
      refine laid_cons (p := .plain c) rfl (List.cons_ne_nil c []) (fun s u hsu hs => ?_) hrest
      obtain rfl : t = s ++ u := (flatten_tokens t).symm.trans hsu
      cases s with
      | nil =>
        have hnone : ¬ (c = .scalar '\x7b' ∧ ([] : Text).head? = some (.scalar '\x7b')) := by
          simp
        exact .plain (matchMark_eq_none_of_head hm hnone (.inr rfl)) hnone hs
      | cons d s => exact .plain (matchMark_eq_none_of_head hm hopen (.inl rfl)) hopen hs
    | some found =>
      obtain ⟨a, n⟩ := found
      obtain ⟨r, t, rfl, rfl⟩ := exists_of_matchMark hm
      rw [Closes, ← List.cons_append, Text.parts_found hm] at h
      have hrest := ih t.length (by rw [List.length_cons, List.length_append]; omega)
        (fun hbraces => h (hbraces.trans (List.suffix_cons _ _).isInfix)) rfl
      rw [tokens, ← List.cons_append, Text.parts_found hm]
      change Laid (Token.cons (.found a (c :: r)) (tokens t))
      by_cases ha : a = .interpolation
      · subst ha
        exact laid_cons (p := .found .interpolation (c :: r)) rfl (List.cons_ne_nil c r)
          (fun s u _ hs => .interpolation (isInterpolation_of_matchMark hm) hs) hrest
      · rw [Token.cons_of_head (.inl (Token.kindOf_ne_text ha _))]
        refine .mark ?_ ha hrest
        rwa [flatten_tokens]

/-- What becomes of a token when those of one kind are localized, and given texts are found. -/
structure Becomes (kind : TokenKind) (localize : Text → Extract Text) (found : List Text)
    (t u : Token) : Prop where
  kind_eq : u.kind = t.kind
  same : t.kind ≠ kind → u.chunk = t.chunk
  localized : t.kind = kind → ∃ ts, ts ⊆ found ∧ Finds ts u.chunk (localize t.chunk)

section Becomes

variable {kind : TokenKind} {localize : Text → Extract Text} {found : List Text}
  {ts us : List Token}

theorem Becomes.eq {t u : Token} (h : Becomes kind localize found t u) (hk : u.kind ≠ kind) :
    u = t := by
  obtain ⟨k, chunk⟩ := u
  obtain ⟨rfl, hsame, -⟩ := h
  rw [show chunk = t.chunk from hsame hk]

theorem Becomes.chunk_eq {t u : Token} (h : Becomes kind localize found t u) (hk : u.kind = kind)
    {vs : List Text} {new : Text} (hnew : Finds vs new (localize t.chunk)) : u.chunk = new := by
  obtain ⟨_, -, hfinds⟩ := h.localized (h.kind_eq ▸ hk)
  exact Except.ok.inj (hfinds.2.symm.trans hnew.2)

theorem exists_becomes {out : Text} (h : Finds found out (localizeTokens kind localize ts)) :
    ∃ us, out = us.flatMap Token.chunk ∧ List.Forall₂ (Becomes kind localize found) ts us := by
  induction ts generalizing found out with
  | nil =>
    obtain ⟨-, rfl⟩ := Extract.finds_pure.mp h
    exact ⟨[], rfl, .nil⟩
  | cons t ts ih =>
    have hcons (first : List Text) {rest : List Text} {head tail : Text}
        (hhead : t.kind ≠ kind → head = t.chunk)
        (hfirst : t.kind = kind → Finds first head (localize t.chunk))
        (hrest : Finds rest tail (localizeTokens kind localize ts)) :
        ∃ us, head ++ tail = us.flatMap Token.chunk ∧
          List.Forall₂ (Becomes kind localize (first ++ rest)) (t :: ts) us := by
      obtain ⟨us, rfl, hus⟩ := ih hrest
      refine ⟨⟨t.kind, head⟩ :: us, rfl, .cons ⟨rfl, hhead, fun hk =>
        ⟨first, List.subset_append_left .., hfirst hk⟩⟩ (hus.imp ?_)⟩
      rintro t u ⟨hkind, hsame, hlocalized⟩
      refine ⟨hkind, hsame, fun hk => ?_⟩
      obtain ⟨vs, hvs, hfinds⟩ := hlocalized hk
      exact ⟨vs, List.subset_append_of_subset_right first hvs, hfinds⟩
    rw [localizeTokens] at h
    split at h
    · rename_i hk
      obtain ⟨first, head, rest, hhead, htail, rfl⟩ := Extract.finds_bind.mp h
      obtain ⟨tail, hrest, rfl⟩ := Extract.finds_map.mp htail
      exact hcons first (fun hne => absurd hk hne) (fun _ => hhead) hrest
    · rename_i hk
      rw [pure_bind] at h
      obtain ⟨tail, htail, rfl⟩ := Extract.finds_map.mp h
      exact hcons [] (fun _ => rfl) (fun h => absurd h hk) htail

/-- Tokens stay laid out, if text stays as it should be and a tag stays one whatever follows it. -/
theorem Laid.of_becomes (h : Laid ts) (hus : List.Forall₂ (Becomes kind localize found) ts us)
    (hkind : kind ≠ .comment)
    (htext : kind = .text → ∀ s vs new, vs ⊆ found → Finds vs new (localize s) → s ≠ [] →
      Inline s → new ≠ [] ∧ Inline new)
    (htag : kind = .tag → ∀ c r t new, ⟨.tag, c :: r⟩ ∈ ts →
      matchMark c (r ++ t) = some (.tag, r.length) → (localize (c :: r)).result = .ok new →
      ∃ s, new = c :: s ∧
        ∀ u, (t = [] → u = []) → matchMark c (s ++ u) = some (.tag, s.length)) : Laid us := by
  induction h generalizing us with
  | nil =>
    cases hus
    exact .nil
  | @mark c r a ts hm ha rest ih =>
    cases hus with
    | @cons _ u _ us hu hus =>
    have hrest := ih hus fun hk c r t new hmem => htag hk c r t new (List.mem_cons_of_mem _ hmem)
    have hnil : ts.flatMap Token.chunk = [] → us.flatMap Token.chunk = [] := fun hflat => by
      obtain rfl := rest.eq_nil hflat
      cases hus
      rfl
    obtain ⟨k, chunk⟩ := u
    obtain ⟨rfl, hsame, hlocalized⟩ := hu
    by_cases hk : Token.kindOf (.found a (c :: r)) = kind
    · obtain rfl : a = .tag := by
        cases a with
        | tag => rfl
        | comment => exact absurd hk.symm hkind
        | interpolation => exact absurd rfl ha
      obtain ⟨vs, -, hfinds⟩ := hlocalized hk
      obtain ⟨s, rfl, hs⟩ := htag hk.symm c r _ chunk (List.mem_cons_self ..) hm hfinds.2
      exact .mark (a := .tag) (hs _ hnil) ha hrest
    · obtain rfl := hsame hk
      exact .mark (matchMark_append hm hnil) ha hrest
  | @words s ts hne hs hnext rest ih =>
    cases hus with
    | @cons _ u _ us hu hus =>
    have hrest := ih hus fun hk c r t new hmem => htag hk c r t new (List.mem_cons_of_mem _ hmem)
    have hhead : ∀ t ∈ us.head?, t.kind ≠ .text := by
      cases hus with
      | nil => exact nofun
      | cons ht _ =>
        rintro _ ⟨⟩
        rw [ht.kind_eq]
        exact hnext _ rfl
    obtain ⟨k, chunk⟩ := u
    obtain ⟨rfl, hsame, hlocalized⟩ := hu
    by_cases hk : TokenKind.text = kind
    · obtain ⟨vs, hvs, hfinds⟩ := hlocalized hk
      obtain ⟨hchunk, hinline⟩ := htext hk.symm s vs chunk hvs hfinds hne hs
      exact .words hchunk hinline hhead hrest
    · obtain rfl : chunk = s := hsame hk
      exact .words hne hs hhead hrest

end Becomes

def TagsHoldTogether [Script.Parser] (scope : Scope) (markup : Text) : Prop :=
  ∀ t ∈ tokens markup, t.kind = .tag → opensElement t.chunk = true → HoldsTogether scope t.chunk

instance [Script.Parser] (scope : Scope) (markup : Text) : Decidable (TagsHoldTogether scope markup) :=
  inferInstanceAs (Decidable (∀ t ∈ tokens markup, _ → _ → _))

section Passes

variable {scope : Scope} (h : scope.IsTame)

include h

theorem isUnclosed_of_isTame : IsUnclosed scope where
  ns := unclosed_of_not_mem fun hmem => (h.ns _ hmem).2 rfl
  common := unclosed_of_not_mem fun hmem => (h.common _ hmem).2 rfl
  function := unclosed_of_not_mem fun hmem => (h.function _ hmem).2 rfl

private theorem laid_attributePass [Script.Parser] [Script.Parser.IsSound] {markup out : Text}
    (hmarkup : Laid (tokens markup))
    (htags : TagsHoldTogether scope markup)
    (hout : (attributePass scope markup).result = .ok out) :
    Laid (tokens out) ∧ ∃ found,
      List.Forall₂ (Becomes .tag (localizeTag scope) found) (tokens markup) (tokens out) := by
  obtain ⟨us, rfl, hus⟩ := exists_becomes ⟨rfl, hout⟩
  have hlaid := hmarkup.of_becomes hus (by decide) nofun fun _ c r t new hmem hm hnew =>
    matchMark_localizeTag h hm (htags _ hmem rfl) hnew
  rw [hlaid.tokens_eq]
  exact ⟨hlaid, _, hus⟩

private theorem inline_localizeWords {s new : Text} (hne : s ≠ []) (hs : Inline s)
    (hnew : (localizeWords scope s).result = .ok new) : new ≠ [] ∧ Inline new := by
  obtain ⟨new', hnew', hwoven⟩ := hs.meets_localizeWords scope
  obtain rfl := Except.ok.inj (hnew'.symm.trans hnew)
  have hwoven := hwoven.mono fun _ => LooksUp.isInterpolation (isUnclosed_of_isTame h)
  refine ⟨fun hnil => hne ?_, hs.of_woven hwoven⟩
  cases hwoven with
  | nil => rfl
  | mark | plain => cases hnil
  | run _ hw _ =>
    obtain ⟨inside, rfl, -⟩ := hw
    cases hnil

theorem laid_textPass {markup out : Text} (hmarkup : Laid (tokens markup))
    (hout : (textPass scope markup).result = .ok out) :
    Laid (tokens out) ∧ ∃ found,
      List.Forall₂ (Becomes .text (localizeWords scope) found) (tokens markup) (tokens out) := by
  obtain ⟨us, rfl, hus⟩ := exists_becomes ⟨rfl, hout⟩
  have hlaid := hmarkup.of_becomes hus (by decide)
    (fun _ s vs new _ hnew hne hs => inline_localizeWords h hne hs hnew.2) nofun
  rw [hlaid.tokens_eq]
  exact ⟨hlaid, _, hus⟩

private theorem head_call (text t : Text) :
    (scope.call "\x27" text ++ t).head? ≠ some (.scalar '\x7d') := by
  rw [Scope.call, lookupCall]
  intro hfirst
  cases hname : scope.function with
  | nil =>
    rw [hname] at hfirst
    cases hfirst
  | cons c name =>
    rw [hname] at hfirst
    obtain rfl := Option.some.inj hfirst
    exact (h.function _ (hname ▸ List.mem_cons_self ..)).2 rfl

private theorem unclosed_call {text t : Text} (htext : Unclosed text) (ht : Unclosed t) :
    Unclosed (scope.call "\x27" text ++ t) := by
  refine unclosed_append.mpr ⟨(isUnclosed_of_isTame h).call htext, ht, fun hmeet => ?_⟩
  rw [Scope.call, lookupCall, List.getLast?_append] at hmeet
  have hlast : some (.scalar ')') = some (CodePoint.scalar '\x7d') := hmeet.1
  exact absurd hlast (by decide)

private theorem unclosed_localizeLiterals {before new : Text} {ps : List (Part Text)}
    {ts : List Text} (hps : ∀ body raw, .found body raw ∈ ps → raw ≠ [])
    (hclosed : Unclosed (ps.flatMap Part.text ++ "\x7d"))
    (hfinds : Finds ts new (localizeLiterals scope before ps)) (hts : ∀ t ∈ ts, Unclosed t) :
    Unclosed (new ++ "\x7d") ∧ ((new ++ "\x7d").head? = some (.scalar '\x7d') →
      (ps.flatMap Part.text ++ "\x7d").head? = some (.scalar '\x7d')) := by
  induction ps generalizing before new ts with
  | nil =>
    obtain ⟨-, rfl⟩ := Extract.finds_pure.mp hfinds
    exact ⟨hclosed, id⟩
  | cons p ps ih =>
    have hps' body raw (hp : .found body raw ∈ ps) := hps body raw (List.mem_cons_of_mem p hp)
    rw [List.flatMap_cons, List.append_assoc] at hclosed ⊢
    have hrest := (unclosed_append.mp hclosed).2.1
    cases p with
    | plain c =>
      obtain ⟨tail, htail, rfl⟩ := Extract.finds_map.mp hfinds
      obtain ⟨hunclosed, hhead⟩ := ih hps' hrest htail hts
      exact ⟨hclosed.exchange (s := [c]) hunclosed hhead, id⟩
    | found body raw =>
      have hraw := hps body raw (List.mem_cons_self ..)
      rw [localizeLiterals] at hfinds
      split at hfinds
      · obtain ⟨us, v, vs, -, hcalled, rfl⟩ := Extract.finds_bind.mp hfinds
        obtain ⟨ts, _, ws, htext, hmore, rfl⟩ := Extract.finds_bind.mp hcalled
        rw [pure_bind] at hmore
        obtain ⟨tail, htail, rfl⟩ := Extract.finds_map.mp hmore
        have hts := (List.forall_mem_append.mp hts).2
        rw [← htext.1] at hts
        obtain ⟨hv, hws⟩ := List.forall_mem_cons.mp hts
        obtain ⟨hunclosed, -⟩ := ih hps' hrest htail hws
        rw [List.append_assoc]
        exact ⟨unclosed_call h hv hunclosed, fun hfirst => absurd hfirst (head_call h _ _)⟩
      · rw [pure_bind] at hfinds
        obtain ⟨tail, htail, rfl⟩ := Extract.finds_map.mp hfinds
        obtain ⟨hunclosed, hhead⟩ := ih hps' hrest htail hts
        rw [List.append_assoc]
        refine ⟨hclosed.exchange hunclosed hhead, fun hfirst => ?_⟩
        cases raw with
        | nil => exact absurd rfl hraw
        | cons c raw => exact hfirst

theorem isInterpolation_localize {inside new : Text} {ts : List Text}
    (hinside : Unclosed (inside ++ "\x7d"))
    (hfinds : Finds ts new (localizeInterpolation scope inside)) (hts : ∀ t ∈ ts, Unclosed t) :
    IsInterpolation new := by
  obtain ⟨body, hbody, rfl⟩ := Extract.finds_map.mp hfinds
  refine ⟨body, rfl, (unclosed_localizeLiterals h (fun b raw hp => ?_) ?_ hbody hts).1⟩
  · obtain ⟨before, c, after, n, -, -, rfl⟩ := Text.of_mem_parts hp
    exact List.cons_ne_nil c _
  · rwa [Text.flatten_parts]

theorem inline_localizeParts {s new : Text} {ts : List Text} (hs : Inline s)
    (hfinds : Finds ts new
      (localizeParts (localizeInterpolation scope) (Text.parts matchInterpolation s)))
    (hts : ∀ t ∈ ts, Unclosed t) : Inline new ∧ new.head? = s.head? := by
  induction hs generalizing new ts with
  | nil =>
    obtain ⟨-, rfl⟩ := Extract.finds_pure.mp hfinds
    exact ⟨.nil, rfl⟩
  | @plain c s hm hopen rest ih =>
    have hnone : matchInterpolation c s = none :=
      matchInterpolation_eq_none (t := []) (by rwa [List.append_nil])
    rw [Text.parts_plain hnone] at hfinds
    obtain ⟨tail, htail, rfl⟩ := Extract.finds_map.mp hfinds
    obtain ⟨hinline, hhead⟩ := ih htail hts
    rw [← hhead] at hopen
    exact ⟨.plain (matchMark_eq_none_of_head hm hopen (.inl hhead)) hopen hinline, rfl⟩
  | @interpolation w s hw rest ih =>
    cases w with
    | nil =>
      obtain ⟨inside, hempty, -⟩ := hw
      cases hempty
    | cons c r =>
      obtain ⟨inside, hinside⟩ := exists_matchInterpolation (hw.matchMark s) s
      rw [Text.parts_found hinside] at hfinds
      rw [localizeParts] at hfinds
      obtain ⟨us, head, vs, hhead, hmore, rfl⟩ := Extract.finds_bind.mp hfinds
      obtain ⟨tail, htail, rfl⟩ := Extract.finds_map.mp hmore
      obtain ⟨hus, hvs⟩ := List.forall_mem_append.mp hts
      have hunclosed : Unclosed (inside ++ "\x7d") := by
        obtain ⟨-, u, rest, hu, hsplit, -⟩ := matchInterpolation_eq_some.mp hinside
        exact ((Text.splitAt?_eq_some_iff (by decide)).mp hsplit).2
      have hinterpolation := isInterpolation_localize h hunclosed hhead hus
      refine ⟨.interpolation hinterpolation (ih htail hvs).1, ?_⟩
      obtain ⟨_, rfl, -⟩ := hinterpolation
      obtain ⟨_, hw, -⟩ := hw
      rw [hw]
      rfl

theorem laid_interpolationPass {markup out : Text} (hmarkup : Laid (tokens markup))
    (htexts : ∀ t ∈ (interpolationPass scope markup).texts, Unclosed t)
    (hout : (interpolationPass scope markup).result = .ok out) :
    Laid (tokens out) ∧ ∃ found,
      List.Forall₂ (Becomes .text (localizeInterpolations scope) found) (tokens markup)
        (tokens out) := by
  obtain ⟨us, rfl, hus⟩ := exists_becomes ⟨rfl, hout⟩
  have hlaid := hmarkup.of_becomes hus (by decide) (fun _ s vs new hvs hnew hne hs => by
    rw [localizeInterpolations] at hnew
    split at hnew
    · obtain rfl := Except.ok.inj hnew.2
      exact ⟨hne, hs⟩
    · obtain ⟨hinline, hhead⟩ := inline_localizeParts h hs hnew fun t ht => htexts t (hvs ht)
      refine ⟨?_, hinline⟩
      rintro rfl
      exact hne (List.head?_eq_none_iff.mp hhead.symm)) nofun
  rw [hlaid.tokens_eq]
  exact ⟨hlaid, _, hus⟩

def comments (markup : Text) : List Text :=
  ((tokens markup).filter fun t => t.kind = .comment).map Token.chunk

/-- The tokens are of the same kinds in order, and the comments among them the same. -/
def KeepsFrame (ts us : List Token) : Prop :=
  List.Forall₂ (fun t u => u.kind = t.kind ∧ (t.kind = .comment → u.chunk = t.chunk)) ts us

omit h in
private theorem Becomes.keepsFrame {kind : TokenKind} {localize : Text → Extract Text}
    {found : List Text} {ts us : List Token} (hkind : kind ≠ .comment)
    (h : List.Forall₂ (Becomes kind localize found) ts us) : KeepsFrame ts us :=
  h.imp fun _ _ ht => ⟨ht.kind_eq, fun hk => ht.same fun hkt => hkind (hkt.symm.trans hk)⟩

omit h in
private theorem KeepsFrame.trans {ts us vs : List Token} (hts : KeepsFrame ts us)
    (hus : KeepsFrame us vs) : KeepsFrame ts vs := by
  induction hts generalizing vs with
  | nil =>
    cases hus
    exact .nil
  | cons ht _ ih =>
    cases hus with
    | cons hu hus =>
      refine .cons ⟨hu.1.trans ht.1, fun hk => ?_⟩ (ih hus)
      exact (hu.2 (ht.1.trans hk)).trans (ht.2 hk)

omit h in
private theorem KeepsFrame.map_eq {markup out : Text}
    (h : KeepsFrame (tokens markup) (tokens out)) :
    (tokens out).map Token.kind = (tokens markup).map Token.kind ∧
      comments out = comments markup := by
  rw [comments, comments]
  generalize tokens markup = ts at h
  generalize tokens out = us at h
  induction h with
  | nil => exact ⟨rfl, rfl⟩
  | @cons t u ts us ht _ ih =>
    refine ⟨?_, ?_⟩
    · rw [List.map_cons, List.map_cons, ht.1, ih.1]
    · by_cases hk : t.kind = .comment
      · rw [List.filter_cons_of_pos (by simp [hk, ht.1]), List.filter_cons_of_pos (by simp [hk]),
          List.map_cons, List.map_cons, ih.2, ht.2 hk]
      · rw [List.filter_cons_of_neg (by simp [hk, ht.1]), List.filter_cons_of_neg (by simp [hk]),
          ih.2]

private theorem keepsFrame_settle {n : Nat} {markup out : Text} (hmarkup : Laid (tokens markup))
    (hout : (settle scope n markup).result = .ok out) :
    KeepsFrame (tokens markup) (tokens out) := by
  have hsame (ts : List Token) : KeepsFrame ts ts :=
    List.forall₂_same.mpr fun _ _ => ⟨rfl, fun _ => rfl⟩
  induction n generalizing markup with
  | zero =>
    obtain rfl := Except.ok.inj hout
    exact hsame _
  | succ n ih =>
    obtain ⟨new, hnew, hout⟩ := Extract.bind_eq_ok.mp hout
    split at hout
    · obtain rfl := Except.ok.inj hout
      exact hsame _
    · obtain ⟨hlaid, found, hfirst⟩ := laid_textPass h hmarkup hnew
      exact (Becomes.keepsFrame (by decide) hfirst).trans (ih hlaid hout)

/-- Localizing attributes keeps the tokens of markup apart, and all of them but tags as they are, if
its interpolations are closed and its tags hold together. A localized attribute then stands in the
quotes of the one before, and its value does not hold them. -/
theorem attributePass_keeps_tokens [Script.Parser] [Script.Parser.IsSound] {markup out : Text}
    (hclosed : Closes markup)
    (htags : TagsHoldTogether scope markup)
    (hout : (attributePass scope markup).result = .ok out) :
    List.Forall₂ (fun t u => u.kind = t.kind ∧
      if t.kind = .tag then (localizeTag scope t.chunk).result = .ok u.chunk
      else u.chunk = t.chunk) (tokens markup) (tokens out) ∧
    ∀ a ∈ attributes markup, ∀ new, (a.localize scope).result = .ok new →
      ∃ b : Attribute, new = b.text ∧ b.quote = a.quote ∧ b.quote ∉ b.value := by
  refine ⟨?_, ?_⟩
  · obtain ⟨-, found, hus⟩ := laid_attributePass h (laid_tokens hclosed) htags hout
    refine hus.imp fun t u ht => ⟨ht.kind_eq, ?_⟩
    split
    · rename_i hk
      obtain ⟨_, -, hfinds⟩ := ht.localized hk
      exact hfinds.2
    · rename_i hk
      exact ht.same hk
  · refine forall_mem_attributes.mpr fun t ht hk hopens a ha new hnew => ?_
    obtain ⟨hspelt, hvalue⟩ := isSpelt_of_mem_findAll ha
    obtain ⟨b, -, hquote, hb, rfl⟩ := Attribute.exists_localize h hspelt hvalue ⟨rfl, hnew⟩
      ((htags t ht hk hopens).quotes a ha)
    exact ⟨b, rfl, hquote, hb⟩

omit h in
/-- The text of a literal may hold the quote that does not stand around the value. -/
theorem attributePass_keeps_tokens_binding :
    let scope : Scope := ⟨"test", .ofList [] "common", "$t"⟩
    let markup : Text := "<p :a=\x22f('\\'中')\x22 b='文>'>字</p>"
    let out : Text := "<p :a=\x22f($t('test.\\'中'))\x22 :b='$t(\x22test.文>\x22)'>字</p>"
    scope.IsTame ∧ Closes markup ∧ TagsHoldTogether scope markup ∧
      (attributePass scope markup).result = .ok out ∧
      List.Forall₂ (fun t u => u.kind = t.kind ∧
        if t.kind = .tag then (localizeTag scope t.chunk).result = .ok u.chunk
        else u.chunk = t.chunk) (tokens markup) (tokens out) := by
  intro scope markup out
  have hscope : scope.IsTame := ⟨by decide, by decide, by decide⟩
  have hmarkup : markup = _ := Text.ofString_ofList _
  have hnew : out = _ := Text.ofString_ofList _
  have hclosed : Closes markup := by
    rw [hmarkup]
    decide +kernel
  have htags : TagsHoldTogether scope markup := by
    rw [hmarkup]
    decide +kernel
  have hout : (attributePass scope markup).result = .ok out := by
    rw [hmarkup, hnew]
    decide +kernel
  exact ⟨hscope, hclosed, htags, hout, (attributePass_keeps_tokens hscope hclosed htags hout).1⟩

omit h in
/-- An escape in a binding may stand for the quote around the value, which then ends there. -/
theorem attributePass_breaks_out :
    let scope : Scope := ⟨"test", .ofList [] "common", "$t"⟩
    let markup : Text := "<p :a='f(\x22\\x27>中\x22)'>"
    let out : Text := "<p :a='f($t(\x22test.'>中\x22))'>"
    (attributePass scope markup).result = .ok out ∧ tokens markup = [⟨.tag, markup⟩] ∧
      tokens out = [⟨.tag, "<p :a='f($t(\x22test.'>"⟩, ⟨.text, "中\x22))'>"⟩] := by
  intro scope markup out
  have hmarkup : markup = _ := Text.ofString_ofList _
  have hout : out = _ := Text.ofString_ofList _
  refine ⟨?_, ?_, ?_⟩
  · rw [hmarkup, hout]
    decide +kernel
  · rw [hmarkup]
    decide +kernel
  · rw [hout]
    decide +kernel

/-- Localizing a template keeps its comments, in order and each as it is, if moreover nothing found
in an interpolation closes it. -/
theorem localize_keeps_comments [Script.Parser] [Script.Parser.IsSound] {template out : Text}
    (hclosed : Closes template)
    (htags : TagsHoldTogether scope template)
    (hinterpolations : ∀ markup,
      (attributePass scope template >>= textPass scope).result = .ok markup →
        ∀ t ∈ (interpolationPass scope markup).texts, Unclosed t)
    (hout : (localize scope template).result = .ok out) :
    (tokens out).map Token.kind = (tokens template).map Token.kind ∧
      comments out = comments template := by
  obtain ⟨first, hfirst, hout⟩ := Extract.bind_eq_ok.mp hout
  obtain ⟨second, hsecond, hout⟩ := Extract.bind_eq_ok.mp hout
  obtain ⟨third, hthird, hout⟩ := Extract.bind_eq_ok.mp hout
  have htexts := hinterpolations second (Extract.bind_eq_ok.mpr ⟨first, hfirst, hsecond⟩)
  obtain ⟨hlaid, _, ha⟩ := laid_attributePass h (laid_tokens hclosed) htags hfirst
  obtain ⟨hlaid, _, hb⟩ := laid_textPass h hlaid hsecond
  obtain ⟨hlaid, _, hc⟩ := laid_interpolationPass h hlaid htexts hthird
  have hrest := keepsFrame_settle h hlaid hout
  exact ((Becomes.keepsFrame (by decide) ha).trans ((Becomes.keepsFrame (by decide) hb).trans
    ((Becomes.keepsFrame (by decide) hc).trans hrest))).map_eq

omit h in
/-- What stands around comments may change, and even hold the same words. -/
theorem localize_keeps_comments_words :
    let scope : Scope := ⟨"test", .ofList [] "common", "$t"⟩
    let template : Text := "<p a='中'><!-- '中' -->文\x7b\x7b '字' \x7d\x7d</p><!-- \x7b\x7b "
    let head : Text :=
      "<p :a='$t(\x22test.中\x22)'><!-- '中' -->\x7b\x7b $t('test.文') \x7d\x7d\x7b\x7b "
    let second : Text := head ++ "'字' \x7d\x7d</p><!-- \x7b\x7b "
    let out : Text := head ++ "$t('test.字') \x7d\x7d</p><!-- \x7b\x7b "
    scope.IsTame ∧ Closes template ∧ TagsHoldTogether scope template ∧
      (attributePass scope template >>= textPass scope).result = .ok second ∧
      (∀ t ∈ (interpolationPass scope second).texts, Unclosed t) ∧
      (localize scope template).result = .ok out ∧
      comments template = ["<!-- '中' -->", "<!-- \x7b\x7b "] ∧
      comments out = comments template := by
  intro scope template head second out
  have hscope : scope.IsTame := ⟨by decide, by decide, by decide⟩
  have htemplate : template = _ := Text.ofString_ofList _
  have hhead : head = _ := Text.ofString_ofList _
  have hclosed : Closes template := by
    rw [htemplate]
    decide +kernel
  have htags : TagsHoldTogether scope template := by
    rw [htemplate]
    decide +kernel
  have hout : (localize scope template).result = .ok out := by
    unfold out
    rw [htemplate, hhead]
    decide +kernel
  have hfirst : (attributePass scope template >>= textPass scope).result = .ok second := by
    unfold second
    rw [htemplate, hhead]
    decide +kernel
  have htexts : ∀ t ∈ (interpolationPass scope second).texts, Unclosed t := by
    unfold second
    rw [hhead]
    decide +kernel
  have hcomments : comments template = ["<!-- '中' -->", "<!-- \x7b\x7b "] := by
    rw [htemplate]
    decide +kernel
  refine ⟨hscope, hclosed, htags, hfirst, htexts, hout, hcomments, ?_⟩
  refine (localize_keeps_comments hscope hclosed htags (fun markup hmarkup => ?_) hout).2
  obtain rfl := Except.ok.inj (hfirst.symm.trans hmarkup)
  exact htexts

omit h in
/-- An interpolation that was left open may be closed behind a comment, which it then swallows. -/
theorem localize_changes_comment :
    let scope : Scope := ⟨"test", .ofList [] "common", "$t"⟩
    let template : Text := "\x7b\x7b <!-- '中' --> 文"
    let out : Text := "\x7b\x7b <!-- $t('test.中') --> \x7b\x7b $t('test.文') \x7d\x7d"
    (localize scope template).result = .ok out ∧ comments template = ["<!-- '中' -->"] ∧
      ¬ ("<!-- '中' -->" : Text) <:+: out := by
  intro scope template out
  have htemplate : template = _ := Text.ofString_ofList _
  have hout : out = _ := Text.ofString_ofList _
  refine ⟨?_, ?_, ?_⟩
  · rw [htemplate, hout]
    decide +kernel
  · rw [htemplate]
    decide +kernel
  · rw [hout]
    decide +kernel

end Passes

end LocaleLift.Markup
