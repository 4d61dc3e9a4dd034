import LocaleLift.Proofs.Markup.Draft
import LocaleLift.Proofs.Markup.Mark
import LocaleLift.Proofs.Script.Quotes

/-! Quotes in tags: a localized attribute closes the quote it opens, so that the tag around it ends
where it ended before. -/
namespace LocaleLift.Markup

open Extract (Finds)

/-- Which quote is open behind a stretch of a tag. There is no answer if the tag ends in it. -/
def quoteAfter : Option CodePoint → Text → Option (Option CodePoint)
  | q, [] => some q
  | some q, c :: t => quoteAfter (if c = q then none else some q) t
  | none, c :: t =>
    if c = .scalar '>' then none
    else quoteAfter (if c = .scalar '\x22' || c = .scalar '\x27' then some c else none) t

section Scanning

variable {q q' : Option CodePoint} {s t r : Text}

theorem matchMark_eq_tag {c : CodePoint} {n : Nat} : matchMark c t = some (.tag, n) ↔
    c = .scalar '<' ∧ Text.startsWith "!--" t = false ∧ t.head?.any startsTag = true ∧
      tagLength none t = n := by
  rw [matchMark]
  by_cases hc : c = .scalar '<'
  · cases hcomment : Text.startsWith "!--" t with
    | true => simp [hc]
    | false => simp [hc]
  · simp only [hc, if_false, false_and, iff_false]
    split
    · simp
    · simp

theorem quoteAfter_append : quoteAfter q (s ++ t) = (quoteAfter q s).bind (quoteAfter · t) := by
  induction s generalizing q with
  | nil => cases q <;> rfl
  | cons c s ih =>
    cases q with
    | some d => exact ih
    | none =>
      rw [List.cons_append, quoteAfter, quoteAfter]
      split
      · rfl
      · exact ih

theorem tagLength_of_quoteAfter (h : quoteAfter q s = some q') (t : Text) :
    tagLength q (s ++ t) = s.length + tagLength q' t := by
  induction s generalizing q with
  | nil =>
    obtain rfl : q = q' := by cases q <;> exact Option.some.inj h
    rw [List.nil_append, List.length_nil, Nat.zero_add]
  | cons c s ih =>
    cases q with
    | some d =>
      rw [List.cons_append, tagLength, ih h, List.length_cons]
      omega
    | none =>
      rw [quoteAfter] at h
      split at h
      · cases h
      · rename_i hc
        rw [List.cons_append, tagLength, if_neg hc, ih h, List.length_cons]
        omega

private theorem ends_of_tagLength (h : tagLength q (r ++ t) = r.length) :
    (∃ s, r = s ++ [.scalar '>'] ∧ quoteAfter q s = some none) ∨
      t = [] ∧ (quoteAfter q r).isSome = true := by
  induction r generalizing q with
  | nil =>
    refine .inr ⟨?_, by cases q <;> rfl⟩
    cases t with
    | nil => rfl
    | cons c t =>
      cases q with
      | some d =>
        rw [List.nil_append, tagLength, List.length_nil] at h
        omega
      | none =>
        rw [List.nil_append, tagLength, List.length_nil] at h
        split at h
        · cases h
        · omega
  | cons c r ih =>
    have hmore {q₁ : Option CodePoint} (hq : ∀ u, quoteAfter q (c :: u) = quoteAfter q₁ u)
        (h : 1 + tagLength q₁ (r ++ t) = (c :: r).length) :
        (∃ s, c :: r = s ++ [.scalar '>'] ∧ quoteAfter q s = some none) ∨
          t = [] ∧ (quoteAfter q (c :: r)).isSome = true := by
      rw [List.length_cons, Nat.add_comm] at h
      refine (ih (Nat.succ.inj h)).imp ?_ (And.imp_right fun hopen => hq r ▸ hopen)
      rintro ⟨s, rfl, hs⟩
      exact ⟨c :: s, rfl, (hq s).trans hs⟩
    cases q with
    | some d => exact hmore (fun _ => rfl) h
    | none =>
      rw [List.cons_append, tagLength] at h
      split at h
      · rename_i hc
        subst hc
        obtain rfl : r = [] := by simpa using h
        exact .inl ⟨[], rfl, rfl⟩
      · rename_i hc
        exact hmore (fun _ => by rw [quoteAfter, if_neg hc]) h

/-- A tag ends with its bracket, or with the text. -/
theorem tagLength_eq_length : tagLength q (r ++ t) = r.length ↔
    (∃ s, r = s ++ [.scalar '>'] ∧ quoteAfter q s = some none) ∨
      t = [] ∧ (quoteAfter q r).isSome = true := by
  refine ⟨ends_of_tagLength, ?_⟩
  rintro (⟨s, rfl, hs⟩ | ⟨rfl, hopen⟩)
  · rw [List.append_assoc, tagLength_of_quoteAfter hs, List.length_append]
    rfl
  · obtain ⟨q', hq'⟩ := Option.isSome_iff_exists.mp hopen
    rw [tagLength_of_quoteAfter hq']
    cases q' <;> rfl

theorem tagLength_angle (t : Text) : tagLength none (.scalar '<' :: t) = 1 + tagLength none t := by
  rw [tagLength, if_neg (by decide)]
  rfl

theorem quoteAfter_plain (h : t.IsPlain) : quoteAfter none t = some none := by
  induction t with
  | nil => rfl
  | cons c t ih =>
    obtain ⟨hc, ht⟩ := List.forall_mem_cons.mp h
    rw [quoteAfter, if_neg hc.2.2, if_neg (by simpa [CodePoint.IsQuote] using hc.1)]
    exact ih ht

theorem quoteAfter_flatMap {α : Type} {f : α → Text} {as : List α}
    (h : ∀ a ∈ as, quoteAfter none (f a) = some none) :
    quoteAfter none (as.flatMap f) = some none := by
  induction as with
  | nil => rfl
  | cons a as ih =>
    obtain ⟨ha, has⟩ := List.forall_mem_cons.mp h
    rw [List.flatMap_cons, quoteAfter_append, ha, Option.bind_some, ih has]

private theorem quoteAfter_within {c : CodePoint} (h : c ∉ t) :
    quoteAfter (some c) t = some (some c) := by
  induction t with
  | nil => rfl
  | cons d t ih =>
    obtain ⟨hd, ht⟩ := List.ne_and_not_mem_of_not_mem_cons h
    rw [quoteAfter, if_neg (Ne.symm hd)]
    exact ih ht

/-- What stands in quotes leaves none open. -/
theorem quoteAfter_quoted {c : CodePoint} (hc : c.IsQuote) (h : c ∉ t) :
    quoteAfter none (c :: t ++ [c]) = some none := by
  have hopen : quoteAfter none [c] = some (some c) := by
    rcases hc with rfl | rfl
    · rfl
    · rfl
  rw [← List.singleton_append, List.append_assoc, quoteAfter_append, hopen, Option.bind_some,
    quoteAfter_append, quoteAfter_within h, Option.bind_some, quoteAfter, if_pos rfl]
  rfl

end Scanning

namespace Attribute

variable {a : Attribute} {scope : Scope}

/-- The value of an attribute reaches up to the next quote of its kind. -/
theorem not_mem_value {c : CodePoint} {t : Text} {n : Nat}
    (h : matchAttribute c t = some (a, n)) : a.quote ∉ a.value := by
  unfold matchAttribute at h
  split at h
  · dsimp only at h
    split at h
    · split at h
      · split at h
        · cases h
        · cases h
          intro hmem
          exact absurd (List.all_eq_true.mp List.all_takeWhile _ hmem) (by simp)
      · cases h
    · cases h
  · cases h

/-- An attribute leaves no quote open. -/
theorem IsSpelt.quoteAfter_text (h : a.IsSpelt) (hvalue : a.quote ∉ a.value) :
    quoteAfter none a.text = some none := by
  have hbefore : Text.IsPlain (a.space :: a.name ++ a.equals) := by
    refine List.forall_mem_append.mpr ⟨List.forall_mem_cons.mpr
      ⟨CodePoint.isPlain_of_isSpace h.space, fun c hc => isPlain_of_isNameChar (h.name c hc)⟩, ?_⟩
    intro c hc
    rcases h.equals c hc with hc | rfl
    · exact CodePoint.isPlain_of_isSpace hc
    · decide
  rw [text, List.append_assoc, quoteAfter_append, quoteAfter_plain hbefore, Option.bind_some]
  exact quoteAfter_quoted h.quote hvalue

theorem exists_other_quote (h : a.quote.IsQuote) :
    ∃ q, CodePoint.IsQuote q ∧ a.innerQuote = [q] ∧ a.quote ≠ q := by
  rw [innerQuote]
  rcases h with h | h
  · rw [h]
    exact ⟨.scalar '\x27', .inr rfl, rfl, by decide⟩
  · rw [h]
    exact ⟨.scalar '\x22', .inl rfl, rfl, by decide⟩

/-- A localized attribute is one again, in the same quotes. Its value does not hold them, unless a
text found in it does. -/
theorem exists_localize [Script.Parser] [Script.Parser.IsSound] (h : scope.IsTame) (ha : a.IsSpelt)
    (hvalue : a.quote ∉ a.value)
    {ts : List Text} {new : Text} (hfinds : Finds ts new (a.localize scope))
    (hts : ∀ t ∈ ts, a.quote ∉ t) :
    ∃ b : Attribute, b.IsSpelt ∧ b.quote = a.quote ∧ b.quote ∉ b.value ∧ new = b.text := by
  obtain ⟨q, -, hinner, hne⟩ := exists_other_quote ha.quote
  have hsame : ∃ b : Attribute, b.IsSpelt ∧ b.quote = a.quote ∧ b.quote ∉ b.value ∧
      a.text = b.text := ⟨a, ha, rfl, hvalue, rfl⟩
  rw [localize, hinner] at hfinds
  split at hfinds
  · obtain rfl := Except.ok.inj hfinds.2
    exact hsame
  · split at hfinds
    · obtain ⟨us, called, vs, -, hrest, rfl⟩ := Extract.finds_bind.mp hfinds
      obtain ⟨-, hvs⟩ := List.forall_mem_append.mp hts
      split at hrest
      · obtain rfl := Except.ok.inj hrest.2
        exact hsame
      · obtain ⟨value, hlocalize, rfl⟩ := Extract.finds_map.mp hrest
        exact ⟨{ a with value }, ⟨ha.space, ha.name, ha.equals, ha.quote⟩, rfl,
          Script.Binding.not_mem_localize h ha.quote hne hvalue hlocalize hvs, rfl⟩
    · obtain rfl := Except.ok.inj hfinds.2
      have hcall := h.not_mem_call ha.quote hne (fun hmem => hvalue (Text.trim_subset _ hmem))
      exact ⟨{ a with
          name := .scalar ':' :: a.name, equals := "=",
          value := scope.call [q] (Text.trim a.value) },
        { space := ha.space
          name := List.forall_mem_cons.mpr ⟨by decide, ha.name⟩
          equals := List.forall_mem_singleton.mpr (.inr rfl)
          quote := ha.quote }, rfl, hcall, rfl⟩

end Attribute

/-- Every attribute with Chinese begins where no quote is open, as they stand in a tag behind a
first part of it. -/
def AlignedAfter (before : Text) : List (Part Attribute) → Prop
  | [] => True
  | p :: ps =>
    (∀ a ∈ p.found?, Text.hasHan a.value = true → quoteAfter none before = some none) ∧
      AlignedAfter (before ++ p.text) ps

instance decidableAlignedAfter (before : Text) :
    (ps : List (Part Attribute)) → Decidable (AlignedAfter before ps)
  | [] => isTrue trivial
  | p :: ps =>
    have := decidableAlignedAfter (before ++ p.text) ps
    inferInstanceAs (Decidable (_ ∧ _))

private theorem AlignedAfter.of_append {before : Text} {ps qs : List (Part Attribute)}
    (h : AlignedAfter before (ps ++ qs)) : AlignedAfter before ps := by
  induction ps generalizing before with
  | nil => trivial
  | cons p ps ih => exact ⟨h.1, ih h.2⟩

/-- Every attribute with Chinese of a tag begins where no quote is open. -/
def IsAligned (tag : Text) : Prop :=
  AlignedAfter [] (Text.parts Attribute.matchAttribute tag)

instance : DecidablePred IsAligned := fun _ => decidableAlignedAfter _ _

/-- What is asked of a tag, so that its attributes can be localized inside their quotes: those with
Chinese begin outside quotes, and no text found in one of them holds its quote. -/
structure HoldsTogether [Script.Parser] (scope : Scope) (tag : Text) : Prop where
  aligned : IsAligned tag
  quotes : ∀ a ∈ Text.findAll Attribute.matchAttribute tag,
    ∀ t ∈ (a.localize scope).texts, a.quote ∉ t

instance [Script.Parser] (scope : Scope) (tag : Text) : Decidable (HoldsTogether scope tag) :=
  decidable_of_iff (IsAligned tag ∧ ∀ a ∈ Text.findAll Attribute.matchAttribute tag,
    ∀ t ∈ (a.localize scope).texts, a.quote ∉ t) ⟨fun ⟨h, h'⟩ => ⟨h, h'⟩, fun h => ⟨h.1, h.2⟩⟩

section Tags

variable {scope : Scope}

private theorem quoteAfter_localizeParts [Script.Parser] [Script.Parser.IsSound] (h : scope.IsTame)
    (before before' : Text) {new : Text}
    {ps : List (Part Attribute)}
    (hps : ∀ a raw, .found a raw ∈ ps → a.IsSpelt ∧ a.quote ∉ a.value ∧ raw = a.text ∧
      ∀ t ∈ (a.localize scope).texts, a.quote ∉ t)
    (haligned : AlignedAfter before ps) (hbefore : quoteAfter none before' = quoteAfter none before)
    (hnew : (localizeParts (Attribute.localize scope) ps).result = .ok new) :
    quoteAfter none (before' ++ new) = quoteAfter none (before ++ ps.flatMap Part.text) := by
  induction ps generalizing before before' new with
  | nil =>
    obtain rfl := Except.ok.inj hnew
    simpa using hbefore
  | cons p ps ih =>
    obtain ⟨hfirst, hrest⟩ := haligned
    have hmore (head : Text) {new : Text}
        (hhead : quoteAfter none (before' ++ head) = quoteAfter none (before ++ p.text))
        (hnew : (localizeParts (Attribute.localize scope) ps).result = .ok new) :
        quoteAfter none (before' ++ (head ++ new)) =
          quoteAfter none (before ++ (p :: ps).flatMap Part.text) := by
      have := ih (before ++ p.text) (before' ++ head)
        (fun a raw hp => hps a raw (List.mem_cons_of_mem p hp)) hrest hhead hnew
      simpa using this
    cases p with
    | plain c =>
      obtain ⟨more, hfinal, hout⟩ := Extract.bind_eq_ok.mp hnew
      obtain rfl := Except.ok.inj hout
      refine hmore [c] ?_ hfinal
      rw [quoteAfter_append, quoteAfter_append, hbefore]
      rfl
    | found a raw =>
      obtain ⟨head, hhead, htail⟩ := Extract.bind_eq_ok.mp hnew
      obtain ⟨more, hfinal, hout⟩ := Extract.bind_eq_ok.mp htail
      obtain rfl := Except.ok.inj hout
      obtain ⟨hspelt, hvalue, rfl, hquotes⟩ := hps a raw (List.mem_cons_self ..)
      refine hmore head ?_ hfinal
      cases hhan : Text.hasHan a.value with
      | false =>
        rw [Attribute.localize, hhan] at hhead
        obtain rfl := Except.ok.inj hhead
        rw [quoteAfter_append, quoteAfter_append, hbefore]
        rfl
      | true =>
        have hnone := hfirst a rfl hhan
        obtain ⟨b, hb, -, hvalue', rfl⟩ :=
          Attribute.exists_localize h hspelt hvalue ⟨rfl, hhead⟩ hquotes
        rw [quoteAfter_append, quoteAfter_append, hbefore, hnone, Option.bind_some,
          Option.bind_some, hb.quoteAfter_text hvalue', Part.text, hspelt.quoteAfter_text hvalue]

private theorem localizeParts_append (f : Attribute → Extract Text)
    (ps qs : List (Part Attribute)) :
    localizeParts f (ps ++ qs) = do
      let s ← localizeParts f ps
      let t ← localizeParts f qs
      return s ++ t := by
  induction ps with
  | nil => simp [localizeParts]
  | cons p ps ih =>
    cases p with
    | plain c => simp only [List.cons_append, localizeParts, ih, bind_assoc, pure_bind]
    | found a raw =>
      simp only [List.cons_append, localizeParts, ih, bind_assoc, pure_bind, List.append_assoc]

theorem isSpelt_of_mem_findAll {tag : Text} {a : Attribute}
    (ha : a ∈ Text.findAll Attribute.matchAttribute tag) : a.IsSpelt ∧ a.quote ∉ a.value := by
  obtain ⟨before, c, after, n, -, hm⟩ := Text.of_mem_findAll ha
  exact ⟨Attribute.isSpelt_of_matchAttribute hm, Attribute.not_mem_value hm⟩

private theorem found_of_mem_parts [Script.Parser] {tag : Text} (h : HoldsTogether scope tag)
    {a : Attribute}
    {raw : Text} (hp : .found a raw ∈ Text.parts Attribute.matchAttribute tag) :
    a.IsSpelt ∧ a.quote ∉ a.value ∧ raw = a.text ∧
      ∀ t ∈ (a.localize scope).texts, a.quote ∉ t := by
  have ha : a ∈ Text.findAll Attribute.matchAttribute tag := List.mem_filterMap.mpr ⟨_, hp, rfl⟩
  obtain ⟨hspelt, hvalue⟩ := isSpelt_of_mem_findAll ha
  obtain ⟨before, c, after, n, -, hm, rfl⟩ := Text.of_mem_parts hp
  exact ⟨hspelt, hvalue, (Attribute.text_of_matchAttribute hm).1.symm, h.quotes a ha⟩

/-- An angle bracket stands alone among the parts of a tag, at its end as well. -/
private theorem parts_concat {tag s : Text} (htag : tag = s ++ [.scalar '>']) :
    ∃ ps, Text.parts Attribute.matchAttribute tag = ps ++ [.plain (.scalar '>')] ∧
      ps.flatMap Part.text = s := by
  have hflat := Text.flatten_parts Attribute.matchAttribute tag
  have hmem {p : Part Attribute} (hp : p ∈ Text.parts Attribute.matchAttribute tag) :=
    Text.of_mem_parts hp
  generalize Text.parts Attribute.matchAttribute tag = ps at hflat hmem
  rw [htag] at hflat
  rcases List.eq_nil_or_concat ps with rfl | ⟨qs, p, rfl⟩
  · exact absurd hflat.symm (List.append_ne_nil_of_right_ne_nil s (List.cons_ne_nil _ []))
  rw [List.concat_eq_append] at hflat hmem ⊢
  rw [List.flatMap_append, List.flatMap_singleton] at hflat
  cases p with
  | plain c =>
    obtain ⟨hs, hc⟩ := List.append_inj' hflat rfl
    obtain rfl := (List.cons.inj hc).1
    exact ⟨qs, rfl, hs⟩
  | found a raw =>
    obtain ⟨before, c, after, n, -, hm, rfl⟩ :=
      hmem (List.mem_append_right qs (List.mem_singleton.mpr rfl))
    rw [Part.text, ← (Attribute.text_of_matchAttribute hm).1, Attribute.text,
      ← List.append_assoc] at hflat
    have hquote := (Attribute.isSpelt_of_matchAttribute hm).quote
    rw [(List.cons.inj (List.append_inj' hflat rfl).2).1] at hquote
    exact absurd hquote (by decide)

/-- What opens an element begins with a letter behind its bracket. -/
private theorem exists_letter {r t : Text} (hstarts : (r ++ t).head?.any startsTag = true)
    (hlength : tagLength none (r ++ t) = r.length)
    (hopens : opensElement (.scalar '<' :: r) = true) :
    ∃ d s, r = d :: s ∧ startsTag d = true ∧ d ≠ .scalar '!' ∧ d.isSpace = false := by
  cases r with
  | nil =>
    rcases tagLength_eq_length.mp hlength with ⟨s, hs, -⟩ | ⟨rfl, -⟩
    · exact absurd hs.symm (List.append_ne_nil_of_right_ne_nil s (List.cons_ne_nil _ []))
    · cases hstarts
  | cons d r =>
    have hd : startsTag d = true := hstarts
    refine ⟨d, r, rfl, hd, ?_, ?_⟩
    · rintro rfl
      cases hopens
    · cases hspace : d.isSpace with
      | false => rfl
      | true =>
        simp only [startsTag, CodePoint.inRange, Bool.or_eq_true, Bool.and_eq_true,
          decide_eq_true_eq, beq_iff_eq] at hd
        simp only [CodePoint.isSpace, CodePoint.inRange, Bool.or_eq_true, Bool.and_eq_true,
          decide_eq_true_eq, beq_iff_eq] at hspace
        rcases hd with ((hd | hd) | rfl) | rfl
        · omega
        · omega
        · cases hopens
        · cases hopens

/-- A localized tag is one again, whatever follows it, if it holds together. -/
theorem matchMark_localizeTag [Script.Parser] [Script.Parser.IsSound] (h : scope.IsTame)
    {c : CodePoint} {r t new : Text}
    (hm : matchMark c (r ++ t) = some (.tag, r.length))
    (htag : opensElement (c :: r) = true → HoldsTogether scope (c :: r))
    (hnew : (localizeTag scope (c :: r)).result = .ok new) :
    ∃ s, new = c :: s ∧ ∀ u, (t = [] → u = []) → matchMark c (s ++ u) = some (.tag, s.length) := by
  rw [localizeTag] at hnew
  split at hnew
  · obtain rfl := Except.ok.inj hnew
    exact ⟨r, rfl, fun u => matchMark_append hm⟩
  rename_i hskip
  have hopens : opensElement (c :: r) = true := by simp_all [opensElement]
  have htogether := htag hopens
  obtain ⟨rfl, -, hstarts, hlength⟩ := matchMark_eq_tag.mp hm
  obtain ⟨d, r, rfl, hd, hne, hspace⟩ := exists_letter hstarts hlength hopens
  have hparts : Text.parts Attribute.matchAttribute (.scalar '<' :: d :: r) =
      .plain (.scalar '<') :: .plain d :: Text.parts Attribute.matchAttribute r := by
    rw [Text.parts_plain rfl, Text.parts_plain (by rw [Attribute.matchAttribute, hspace]; rfl)]
  obtain ⟨s, rfl⟩ : ∃ s, new = .scalar '<' :: d :: s := by
    rw [hparts] at hnew
    obtain ⟨x, hx, hnew⟩ := Extract.bind_eq_ok.mp hnew
    obtain ⟨y, -, hx⟩ := Extract.bind_eq_ok.mp hx
    obtain rfl := Except.ok.inj hx
    exact ⟨y, (Except.ok.inj hnew).symm⟩
  refine ⟨d :: s, rfl, fun u hu => matchMark_eq_tag.mpr ⟨rfl, ?_, hd, ?_⟩⟩
  · exact Bool.eq_false_iff.mpr fun hcomment =>
      hne (List.cons_prefix_cons.mp (List.isPrefixOf_iff_prefix.mp hcomment)).1.symm
  have hwhole : tagLength none ((.scalar '<' :: d :: r) ++ t) = (d :: r).length + 1 := by
    rw [List.cons_append, tagLength_angle, hlength, Nat.add_comm]
  have hquotes {new : Text} {ps : List (Part Attribute)}
      (hps : ps ⊆ Text.parts Attribute.matchAttribute (.scalar '<' :: d :: r))
      (haligned : AlignedAfter [] ps)
      (hnew : (localizeParts (Attribute.localize scope) ps).result = .ok new) :
      quoteAfter none new = quoteAfter none (ps.flatMap Part.text) :=
    quoteAfter_localizeParts h [] []
      (fun a raw hp => found_of_mem_parts htogether (hps hp)) haligned rfl hnew
  have hends : tagLength none ((.scalar '<' :: d :: s) ++ u) = (d :: s).length + 1 := by
    refine tagLength_eq_length.mpr ?_
    refine (tagLength_eq_length.mp hwhole).imp ?_ (And.imp hu fun hopen => ?_)
    · rintro ⟨s', hs', hclosed⟩
      obtain ⟨ps, hps, hflat⟩ := parts_concat hs'
      rw [hps, localizeParts_append] at hnew
      obtain ⟨x, hx, hnew⟩ := Extract.bind_eq_ok.mp hnew
      refine ⟨x, (Except.ok.inj hnew).symm, ?_⟩
      have haligned := htogether.aligned
      rw [IsAligned, hps] at haligned
      rw [hquotes (hps ▸ List.subset_append_left ps _) haligned.of_append hx, hflat, hclosed]
    · rw [hquotes (List.Subset.refl _) htogether.aligned hnew, Text.flatten_parts]
      exact hopen
  rw [List.cons_append, tagLength_angle] at hends
  omega

end Tags

end LocaleLift.Markup
