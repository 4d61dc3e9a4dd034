import LocaleLift.Proofs.Component.Layout
import LocaleLift.Proofs.Component.Scan
import LocaleLift.Proofs.Text.Order

/-! A block of a component stays where it is when its content is revised by an inert draft, and so
does everything else in the component. -/
namespace LocaleLift.Component

open Draft (keep)

variable {draft : Draft}

section Alongside

variable {α : Type} {R : Draft → α → α → Prop}

/-- The parts of the old text of a draft and those of the new one. What is found in both stands in
the same stretches, and `R` tells how one finding follows from the other. -/
inductive Alongside (R : Draft → α → α → Prop) : Draft → List (Part α) → List (Part α) → Prop
  | nil : Alongside R [] [] []
  | plain {draft : Draft} {ps qs : List (Part α)} (c : CodePoint) (h : Alongside R draft ps qs) :
      Alongside R (.kept c :: draft) (.plain c :: ps) (.plain c :: qs)
  | passed {draft : Draft} {ps qs : List (Part α)} {old : Text} (new : Text) (hne : old ≠ [])
      (h : Alongside R draft ps qs) :
      Alongside R (.swapped old new :: draft) (old.map .plain ++ ps) (new.map .plain ++ qs)
  | found {first draft : Draft} {ps qs : List (Part α)} {a b : α} (hab : R first a b)
      (h : Alongside R draft ps qs) :
      Alongside R (first ++ draft) (.found a first.old :: ps) (.found b first.new :: qs)

/-- A matcher finds things at opening brackets only, and in both texts of an inert draft alike. -/
structure Follows (R : Draft → α → α → Prop) (m : Matcher α) : Prop where
  bracket : ∀ c t, c ≠ .scalar '<' → m c t = none
  inert : ∀ draft : Draft, draft.IsInert →
    Option.Rel (fun a b => ∃ d e : Draft, draft = d ++ e ∧ a.2 = d.old.length ∧
      b.2 = d.new.length ∧ R (.kept (.scalar '<') :: d) a.1 b.1)
      (m (.scalar '<') draft.old) (m (.scalar '<') draft.new)

theorem parts_passage {m : Matcher α} {passage : Text}
    (h : ∀ c ∈ passage, ∀ t, m c t = none) (t : Text) :
    Text.parts m (passage ++ t) = passage.map .plain ++ Text.parts m t :=
  Text.parts_passed fun c _ hr => h c (hr.subset (List.mem_cons_self ..)) _

/-- The parts of the two texts of an inert draft stand side by side. -/
theorem parts_inert {m : Matcher α} (hm : Follows R m) (h : draft.IsInert) :
    Alongside R draft (Text.parts m draft.old) (Text.parts m draft.new) := by
  -- What is found takes several stretches at once, so the induction is on how many are left.
  induction hn : draft.length using Nat.strongRecOn generalizing draft with
  | ind n ih =>
    subst hn
    cases draft with
    | nil => exact .nil
    | cons s draft =>
      obtain ⟨hs, hdraft⟩ := Draft.isInert_cons.mp h
      have hrest := ih draft.length (Nat.lt_succ_self _) hdraft rfl
      cases s with
      | kept c =>
        rw [Draft.old_cons, Draft.new_cons, Stretch.old, Stretch.new, List.singleton_append,
          List.singleton_append, Text.parts_cons, Text.parts_cons]
        by_cases hc : c = .scalar '<'
        · subst hc
          have hfound := hm.inert draft hdraft
          generalize m (.scalar '<') (Draft.old draft) = x at hfound ⊢
          generalize m (.scalar '<') (Draft.new draft) = y at hfound ⊢
          cases hfound with
          | none => exact .plain _ hrest
          | @some a b hab =>
            obtain ⟨a, k⟩ := a
            obtain ⟨b, l⟩ := b
            obtain ⟨d, e, rfl, rfl, rfl, hab⟩ := hab
            have hlt : e.length < (Stretch.kept (.scalar '<') :: (d ++ e)).length := by
              rw [List.length_cons, List.length_append]
              omega
            have he := ih e.length hlt (Draft.isInert_append.mp hdraft).2 rfl
            simp only [Draft.old_append, Draft.new_append, List.take_left, List.drop_left]
            exact .found hab he
        · rw [hm.bracket _ _ hc, hm.bracket _ _ hc]
          exact .plain c hrest
      | swapped old new =>
        obtain ⟨hold, hnew, -⟩ := hs
        have hnone {t : Text} (ht : Text.Sealed t) : ∀ c ∈ t, ∀ u, m c u = none :=
          fun c hc u => hm.bracket c u (ht.balanced.no_bracket c hc).1
        rw [Draft.old_cons, Draft.new_cons, Stretch.old, Stretch.new, parts_passage (hnone hold),
          parts_passage (hnone hnew)]
        exact .passed new hold.ne_nil hrest

end Alongside

/-- Two places in the old text of a draft, each behind so much, and the same places in the new
one. -/
def Ends (draft : Draft) (passed passed' : Nat) (a b : Nat × Nat) : Prop :=
  ∃ d e f : Draft, draft = d ++ (e ++ f) ∧
    a = (passed + d.old.length, passed + d.old.length + e.old.length) ∧
    b = (passed' + d.new.length, passed' + d.new.length + e.new.length)

private theorem Ends.prepend (more : Draft) {passed passed' : Nat} {a b : Nat × Nat}
    (h : Ends draft (passed + more.old.length) (passed' + more.new.length) a b) :
    Ends (more ++ draft) passed passed' a b := by
  obtain ⟨d, e, f, rfl, rfl, rfl⟩ := h
  exact ⟨more ++ d, e, f, by simp, by simp [Nat.add_assoc], by simp [Nat.add_assoc]⟩

theorem templateEnd_plain (passed depth : Nat) (t : Text) (ps : List (Part Nesting)) :
    templateEnd passed (depth + 1) (t.map .plain ++ ps) =
      templateEnd (passed + t.length) (depth + 1) ps := by
  induction t generalizing passed with
  | nil => rfl
  | cons c t ih =>
    rw [List.map_cons, List.cons_append, templateEnd]
    change templateEnd (passed + 1) (depth + 1) _ = _
    rw [ih, List.length_cons]
    congr 1
    omega

private theorem templateEnd_alongside {ps qs : List (Part Nesting)}
    (h : Alongside (fun _ => Eq) draft ps qs) (passed passed' depth : Nat) :
    Ends draft passed passed' (templateEnd passed (depth + 1) ps)
      (templateEnd passed' (depth + 1) qs) := by
  induction h generalizing passed passed' depth with
  | nil => exact ⟨[], [], [], rfl, rfl, rfl⟩
  | plain c _ ih => exact Ends.prepend [.kept c] (ih _ _ depth)
  | @passed _ _ _ old new _ _ ih =>
    rw [templateEnd_plain, templateEnd_plain]
    apply Ends.prepend [.swapped old new]
    simpa [Stretch.old, Stretch.new] using ih (passed + old.length) (passed' + new.length) depth
  | @found first rest ps qs a b hab _ ih =>
    subst hab
    have hnext (depth : Nat) := Ends.prepend first (ih (passed + first.old.length)
      (passed' + first.new.length) depth)
    rw [templateEnd, templateEnd]
    cases a with
    | closing =>
      cases depth with
      | zero => exact ⟨[], first, rest, rfl, rfl, rfl⟩
      | succ depth => exact hnext depth
    | opening => exact hnext (depth + 1)
    | neutral => exact hnext depth

theorem plainEnd_plain (passed : Nat) (t : Text) (ps : List (Part Unit)) :
    plainEnd passed (t.map .plain ++ ps) = plainEnd (passed + t.length) ps := by
  induction t generalizing passed with
  | nil => rfl
  | cons c t ih =>
    rw [List.map_cons, List.cons_append, plainEnd]
    change plainEnd (passed + 1) _ = _
    rw [ih, List.length_cons]
    congr 1
    omega

private theorem plainEnd_alongside {R : Draft → Unit → Unit → Prop} {ps qs : List (Part Unit)}
    (h : Alongside R draft ps qs) (passed passed' : Nat) :
    Ends draft passed passed' (plainEnd passed ps) (plainEnd passed' qs) := by
  induction h generalizing passed passed' with
  | nil => exact ⟨[], [], [], rfl, rfl, rfl⟩
  | plain c _ ih => exact Ends.prepend [.kept c] (ih _ _)
  | @passed _ _ _ old new _ _ ih =>
    rw [plainEnd_plain, plainEnd_plain]
    apply Ends.prepend [.swapped old new]
    simpa [Stretch.old, Stretch.new] using ih (passed + old.length) (passed' + new.length)
  | @found first rest _ _ _ _ _ _ _ => exact ⟨[], first, rest, rfl, rfl, rfl⟩

/-- Whether a text begins with a closing bracket, space before it apart. -/
def closes (t : Text) : Bool :=
  (t.drop (t.takeWhile (·.isSpace)).length).head? = some (.scalar '>')

private theorem closes_cons (c : CodePoint) (t : Text) :
    closes (c :: t) = if c.isSpace then closes t else decide (c = .scalar '>') := by
  rw [closes, List.takeWhile_cons]
  split
  · rfl
  · simp

private theorem closes_passage {passage : Text} (h : Text.Sealed passage) (t : Text) :
    closes (passage ++ t) = false := by
  obtain ⟨s, c, rfl, hspace, -⟩ := h.last
  have hbracket (d : CodePoint) (hd : d ∈ s ++ [c]) := (h.balanced.no_bracket d hd).2
  clear h
  induction s with
  | nil =>
    rw [List.nil_append, List.singleton_append, closes_cons, hspace]
    simpa using hbracket c (by simp)
  | cons d s ih =>
    rw [List.cons_append, List.cons_append, closes_cons]
    split
    · exact ih fun e he => hbracket e (List.mem_cons_of_mem d he)
    · simpa using hbracket d (by simp)

private theorem closes_inert (h : draft.IsInert) :
    (∃ (space : Text) (e : Draft), draft = keep space ++ .kept (.scalar '>') :: e ∧
      draft.old.takeWhile (·.isSpace) = space ∧ draft.new.takeWhile (·.isSpace) = space ∧
      closes draft.old = true ∧ closes draft.new = true) ∨
    closes draft.old = false ∧ closes draft.new = false := by
  induction draft with
  | nil => exact .inr ⟨rfl, rfl⟩
  | cons s draft ih =>
    cases s with
    | kept c =>
      rw [Draft.old_cons, Draft.new_cons, Stretch.old, Stretch.new, List.singleton_append,
        List.singleton_append, closes_cons, closes_cons, List.takeWhile_cons, List.takeWhile_cons]
      cases hspace : c.isSpace with
      | true =>
        simp only [if_true]
        refine (ih (Draft.isInert_cons.mp h).2).imp ?_ id
        rintro ⟨space, e, rfl, hold, hnew, hcloses⟩
        exact ⟨c :: space, e, rfl, by rw [hold], by rw [hnew], hcloses⟩
      | false =>
        by_cases hc : c = .scalar '>'
        · subst hc
          exact .inl ⟨[], draft, rfl, rfl, rfl, rfl, rfl⟩
        · right
          simp [hc]
    | swapped old new =>
      obtain ⟨hold, hnew, -⟩ := (Draft.isInert_cons.mp h).1
      exact .inr ⟨closes_passage hold _, closes_passage hnew _⟩

theorem matchClosing_eq (kind : Text) (t : Text) :
    matchClosing kind (.scalar '<') (.scalar '/' :: t) = (dropWord? kind t).bind fun rest =>
      if closes rest then
        some ((), t.length - rest.length + (rest.takeWhile (·.isSpace)).length + 2)
      else none := by
  rw [matchClosing, if_pos rfl]
  refine congrArg (Option.bind _) (funext fun rest => ?_)
  simp [closes]

theorem matchClosing_none (kind : Text) {t : Text} (h : t.head? ≠ some (.scalar '/')) :
    matchClosing kind (.scalar '<') t = none := by
  rw [matchClosing, if_pos rfl]
  rintro t rfl
  exact h rfl

private theorem matchClosing_follows {kind : Text} (hkind : ∀ w ∈ kind, (foldLetter w).IsSharp) :
    Follows (fun _ => Eq) (matchClosing kind) where
  bracket c t hc := if_neg hc
  inert draft h := by
    have hslash : CodePoint.IsSharp (.scalar '/') := by decide
    rcases h.cases_head with rfl | ⟨c, draft, rfl⟩ | halike
    · exact .none
    · by_cases hc : c = .scalar '/'
      · subst hc
        have hword := dropWord?_inert (Draft.isInert_cons.mp h).2 hkind
        rw [Draft.old_cons, Draft.new_cons, Stretch.old, Stretch.new, List.singleton_append,
          List.singleton_append, matchClosing_eq, matchClosing_eq]
        generalize dropWord? kind (Draft.old draft) = x at hword ⊢
        generalize dropWord? kind (Draft.new draft) = y at hword ⊢
        cases hword with
        | none => exact .none
        | some hword =>
          obtain ⟨name, rest, rfl, -, rfl, rfl⟩ := hword
          have hrest := (Draft.isInert_append.mp (Draft.isInert_cons.mp h).2).2
          rw [Option.bind_some, Option.bind_some]
          rcases closes_inert hrest with ⟨space, e, rfl, hold, hnew, hc, hc'⟩ | ⟨hc, hc'⟩
          · rw [hc, hc', hold, hnew, if_pos rfl, if_pos rfl]
            refine .some ⟨.kept (.scalar '/') :: (keep name ++ (keep space ++ [.kept (.scalar '>')])),
              e, by simp, ?_, ?_, rfl⟩
            · simp [Stretch.old]
              omega
            · simp [Stretch.new]
              omega
          · rw [hc, hc']
            exact .none
      · rw [matchClosing_none, matchClosing_none]
        · exact .none
        · simpa [Stretch.new] using hc
        · simpa [Stretch.old] using hc
    · obtain ⟨a, s, b, t, hold, hnew, ha, hb⟩ := heads_of_alike halike
      rw [hold, hnew, matchClosing_none, matchClosing_none]
      · exact .none
      · rw [List.head?_cons, Ne, Option.some.injEq]
        exact fun e => hb (e ▸ hslash)
      · rw [List.head?_cons, Ne, Option.some.injEq]
        exact fun e => ha (e ▸ hslash)

/-- A tag of a template, with what it means for the nesting. -/
def templateTag? (t : Text) : Option (Nesting × Nat) :=
  match t with
  | .scalar '/' :: t => (tag? ["template"] t).map fun (_, _, n) => (.closing, n + 1)
  | t => (tag? ["template"] t).map fun (_, body, n) =>
      (if isSelfClosing body then .neutral else .opening, n)

theorem templateTag?_other {t : Text} (h : t.head? ≠ some (.scalar '/')) :
    templateTag? t = (tag? ["template"] t).map fun (_, body, n) =>
      (if isSelfClosing body then .neutral else .opening, n) := by
  rw [templateTag?]
  rintro t rfl
  exact h rfl

theorem matchTemplateTag_eq (t : Text) : matchTemplateTag (.scalar '<') t =
    match comment? t with
    | some n => some (.neutral, n)
    | none => templateTag? t :=
  if_pos rfl

private theorem templateTag?_inert (h : draft.IsInert) :
    Option.Rel (fun a b => ∃ d e : Draft, draft = d ++ e ∧ a.2 = d.old.length ∧
      b.2 = d.new.length ∧ a.1 = b.1) (templateTag? draft.old) (templateTag? draft.new) := by
  have hnames : ∀ word ∈ (["template"] : List Text), ∀ w ∈ word, (foldLetter w).IsSharp := by
    decide
  have hother (hold : draft.old.head? ≠ some (.scalar '/'))
      (hnew : draft.new.head? ≠ some (.scalar '/')) :
      Option.Rel (fun a b => ∃ d e : Draft, draft = d ++ e ∧ a.2 = d.old.length ∧
        b.2 = d.new.length ∧ a.1 = b.1) (templateTag? draft.old) (templateTag? draft.new) := by
    rw [templateTag?_other hold, templateTag?_other hnew]
    refine rel_map (tag?_inert h hnames) ?_
    rintro _ _ ⟨name, d, e, rfl, -, rfl, rfl⟩
    have hd := (Draft.isInert_append.mp (Draft.isInert_append.mp h).2).1
    refine ⟨keep name ++ (d ++ [.kept (.scalar '>')]), e, by simp, ?_, ?_, ?_⟩
    · simp [Stretch.old, Nat.add_assoc]
    · simp [Stretch.new, Nat.add_assoc]
    · dsimp only
      rw [isSelfClosing_inert hd]
  rcases h.cases_head with rfl | ⟨c, draft, rfl⟩ | halike
  · exact .none
  · by_cases hc : c = .scalar '/'
    · subst hc
      have hrest := (Draft.isInert_cons.mp h).2
      refine rel_map (tag?_inert hrest hnames) ?_
      rintro _ _ ⟨name, d, e, rfl, -, rfl, rfl⟩
      refine ⟨.kept (.scalar '/') :: (keep name ++ (d ++ [.kept (.scalar '>')])), e, by simp, ?_, ?_,
        rfl⟩
      · simp [Stretch.old, Nat.add_assoc]
      · simp [Stretch.new, Nat.add_assoc]
    · apply hother
      · simpa [Stretch.old] using hc
      · simpa [Stretch.new] using hc
  · have hslash : CodePoint.IsSharp (.scalar '/') := by decide
    obtain ⟨a, s, b, t, hold, hnew, ha, hb⟩ := heads_of_alike halike
    apply hother
    · rw [hold, List.head?_cons, Ne, Option.some.injEq]
      exact fun e => ha (e ▸ hslash)
    · rw [hnew, List.head?_cons, Ne, Option.some.injEq]
      exact fun e => hb (e ▸ hslash)

private theorem matchTemplateTag_follows : Follows (fun _ => Eq) matchTemplateTag where
  bracket c t hc := if_neg hc
  inert draft h := by
    have hcomment := comment?_inert h
    rw [matchTemplateTag_eq, matchTemplateTag_eq]
    generalize comment? draft.old = x at hcomment ⊢
    generalize comment? draft.new = y at hcomment ⊢
    cases hcomment with
    | none => exact templateTag?_inert h
    | some hcomment =>
      obtain ⟨d, e, rfl, rfl, rfl⟩ := hcomment
      exact .some ⟨d, e, rfl, rfl, rfl, rfl⟩

/-- Whatever is matched as one of these names, no passage begins with a letter of its lower case. -/
private theorem sharp_of_spells {word name : Text}
    (hword : word ∈ (["template", "script", "style"] : List Text)) (h : Spells word name) :
    ∀ d ∈ Text.toLower name, (foldLetter d).IsSharp := by
  have hletter : ∀ word ∈ (["template", "script", "style"] : List Text), ∀ w ∈ word,
      foldLetter w = w ∧ w.toNat ≠ 0x3A3 ∧ ∀ d ∈ w.toLower, (foldLetter d).IsSharp := by
    decide +kernel
  -- Besides the small letters, only the capital ones and three more code points fold to another one.
  have hlike : ∀ n ∈ List.range' 0x41 26 ++ [0x130, 0x131, 0x17F],
      (CodePoint.scalar (.ofNat n)).toNat = n ∧ n ≠ 0x3A3 ∧
        ∀ d ∈ (CodePoint.scalar (.ofNat n)).toLower, (foldLetter d).IsSharp := by
    decide +kernel
  have hmem {n : Nat} (hn : 0x41 ≤ n ∧ n ≤ 0x5A ∨ n = 0x17F ∨ 0x130 ≤ n ∧ n ≤ 0x131) :
      n ∈ List.range' 0x41 26 ++ [0x130, 0x131, 0x17F] := by
    rw [List.mem_append, List.mem_range'_1]
    simp only [List.mem_cons, List.not_mem_nil, or_false]
    omega
  have hchar {w c : CodePoint} (hw : w ∈ word) (hfold : foldLetter w = foldLetter c) :
      c.toNat ≠ 0x3A3 ∧ ∀ d ∈ c.toLower, (foldLetter d).IsSharp := by
    by_cases hn : 0x41 ≤ c.toNat ∧ c.toNat ≤ 0x5A ∨ c.toNat = 0x17F ∨
        0x130 ≤ c.toNat ∧ c.toNat ≤ 0x131
    · obtain ⟨hnat, hsigma, hd⟩ := hlike c.toNat (hmem hn)
      rw [CodePoint.toNat_injective hnat] at hd
      exact ⟨hsigma, hd⟩
    · have hc : foldLetter c = c := by
        simp only [not_or, not_and] at hn
        rw [foldLetter, if_neg (by simpa [CodePoint.inRange] using hn.1), if_neg hn.2.1,
          if_neg (by simpa [CodePoint.inRange] using hn.2.2)]
      obtain ⟨hw', hsharp⟩ := hletter word hword w hw
      rw [hw', hc] at hfold
      exact hfold ▸ hsharp
  intro d hd
  obtain ⟨c, hc, hd⟩ := Text.exists_of_mem_toLower hd
  obtain ⟨w, hw, hfold⟩ : ∃ w ∈ word, foldLetter w = foldLetter c := by
    obtain ⟨i, hi, rfl⟩ := List.mem_iff_getElem.mp hc
    have hlen := h.length_eq
    exact ⟨word[i], List.getElem_mem _, (List.forall₂_iff_get.mp h).2 i (hlen ▸ hi) hi⟩
  obtain ⟨hsigma, hsharp⟩ := hchar hw hfold
  exact hd.elim (hsharp d) fun h => absurd h hsigma

/-- What is found in the old text of a stretch, and what in the new one: the same thing, a block with
its body and its content as far as these are revised. -/
inductive Counterpart : Draft → Finding → Finding → Prop
  | skipped (draft : Draft) : Counterpart draft .skipped .skipped
  | block (kind before after : Text) (body inner rest : Draft) :
      Counterpart (keep before ++ (body ++ keep after) ++ (inner ++ rest))
        (.block kind body.old inner.old (keep before ++ (body ++ keep after)).old.length)
        (.block kind body.new inner.new (keep before ++ (body ++ keep after)).new.length)

/-- How much stands before the tag that closes a block, and up to its end. -/
def blockEnd (kind t : Text) : Nat × Nat :=
  if kind = "template" then templateEnd 0 1 (Text.parts matchTemplateTag t)
  else plainEnd 0 (Text.parts (matchClosing kind) t)

private theorem blockEnd_inert (h : draft.IsInert) {kind : Text}
    (hkind : ∀ w ∈ kind, (foldLetter w).IsSharp) :
    Ends draft 0 0 (blockEnd kind draft.old) (blockEnd kind draft.new) := by
  rw [blockEnd, blockEnd]
  split
  · exact templateEnd_alongside (parts_inert matchTemplateTag_follows h) 0 0 0
  · exact plainEnd_alongside (parts_inert (matchClosing_follows hkind) h) 0 0

theorem matchBlock_eq (t : Text) : matchBlock (.scalar '<') t =
    match comment? t with
    | some n => some (.skipped, n)
    | none => (tag? ["template", "script", "style"] t).map fun (name, body, n) =>
        if isSelfClosing body then (.skipped, n)
        else
          let ends := blockEnd (Text.toLower name) (t.drop n)
          (.block (Text.toLower name) body ((t.drop n).take ends.1) (n + 1), n + ends.2) :=
  if_pos rfl

theorem matchBlock_follows : Follows Counterpart matchBlock where
  bracket c t hc := if_neg hc
  inert draft h := by
    have hnames : ∀ word ∈ (["template", "script", "style"] : List Text), ∀ w ∈ word,
        (foldLetter w).IsSharp := by decide
    have hcomment := comment?_inert h
    rw [matchBlock_eq, matchBlock_eq]
    generalize comment? draft.old = x at hcomment ⊢
    generalize comment? draft.new = y at hcomment ⊢
    cases hcomment with
    | some hcomment =>
      obtain ⟨d, e, rfl, rfl, rfl⟩ := hcomment
      exact .some ⟨d, e, rfl, rfl, rfl, .skipped _⟩
    | none =>
      refine rel_map (tag?_inert h hnames) ?_
      rintro _ _ ⟨name, body, more, rfl, ⟨word, hword, hname⟩, rfl, rfl⟩
      obtain ⟨hbody, hmore⟩ := Draft.isInert_append.mp (Draft.isInert_append.mp h).2
      obtain ⟨d, e, f, rfl, hends, hends'⟩ :=
        blockEnd_inert (Draft.isInert_cons.mp hmore).2 (sharp_of_spells hword hname)
      have hdrop (t u : Text) :
          (name ++ (t ++ .scalar '>' :: u)).drop (name.length + t.length + 1) = u := by
        have hsplit : name ++ (t ++ .scalar '>' :: u) = name ++ t ++ [.scalar '>'] ++ u := by simp
        have hlength : (name ++ t ++ [CodePoint.scalar '>']).length = name.length + t.length + 1 := by
          rw [List.length_append, List.length_append, List.length_singleton]
        rw [hsplit, List.drop_left' hlength]
      dsimp only
      simp only [Draft.old_append, Draft.new_append, Draft.old_cons, Draft.new_cons, Draft.old_keep,
        Draft.new_keep, Stretch.old, Stretch.new, List.singleton_append, hdrop] at hends hends' ⊢
      rw [isSelfClosing_inert hbody, hends, hends']
      split
      · refine ⟨keep name ++ (body ++ [.kept (.scalar '>')]), d ++ (e ++ f), by simp, ?_, ?_,
          .skipped _⟩
        · simp [Stretch.old, Nat.add_assoc]
        · simp [Stretch.new, Nat.add_assoc]
      · refine ⟨keep name ++ (body ++ .kept (.scalar '>') :: (d ++ e)), f, by simp, ?_, ?_, ?_⟩
        · simp [Stretch.old]
          omega
        · simp [Stretch.new]
          omega
        · have h := Counterpart.block (Text.toLower name) (.scalar '<' :: name) [.scalar '>'] body d e
          simpa [Stretch.old, Stretch.new, Draft.keep_cons, Draft.keep_nil, Nat.add_assoc] using h

private theorem new_eq_old {d : Draft} {t : Text} (h : ∀ s ∈ d, s ∈ keep t) : d.new = d.old := by
  rw [Draft.new, Draft.old, List.flatMap, List.flatMap]
  refine congrArg List.flatten (List.map_congr_left fun s hs => ?_)
  obtain ⟨c, -, rfl⟩ := List.mem_map.mp (h s hs)
  rfl

/-- What is found in a stretch where everything is kept is not changed. -/
private theorem Counterpart.eq_of_keep {t : Text} {a b : Finding} (h : Counterpart (keep t) a b) :
    b = a := by
  generalize hdraft : keep t = draft at h
  cases h with
  | skipped => rfl
  | block kind before after body inner rest =>
    have hmem {s : Stretch} (hs : s ∈ keep before ++ (body ++ keep after) ++ (inner ++ rest)) :
        s ∈ keep t := hdraft ▸ hs
    have hbody := new_eq_old (d := body) fun s hs => hmem (by simp [hs])
    have hinner := new_eq_old (d := inner) fun s hs => hmem (by simp [hs])
    have htag := new_eq_old (d := keep before ++ (body ++ keep after)) fun s hs =>
      hmem (List.mem_append_left _ hs)
    rw [hbody, hinner, htag]

/-- A block where only the content is revised gets the new one. -/
private theorem Counterpart.eq_of_inner {kind body before after : Text} {inner : Draft} {b : Finding}
    (hinner : inner.IsInert) (h : Counterpart (keep before ++ (inner ++ keep after))
      (.block kind body inner.old before.length) b) :
    b = .block kind body inner.new before.length := by
  have hinert : Draft.IsInert (keep before ++ (inner ++ keep after)) :=
    Draft.isInert_append.mpr ⟨Draft.isInert_keep _,
      Draft.isInert_append.mpr ⟨hinner, Draft.isInert_keep _⟩⟩
  generalize hdraft : keep before ++ (inner ++ keep after) = draft at h
  generalize ha : Finding.block kind body inner.old before.length = a at h
  cases h with
  | skipped => cases ha
  | block kind' before' after' body' inner' rest' =>
    obtain ⟨rfl, rfl, hcontent, hlength⟩ := Finding.block.inj ha
    obtain ⟨htag, hrest⟩ := Draft.append_inj_of_length hdraft (by simpa using hlength)
      hinert.old_ne_nil
    obtain ⟨rfl, -⟩ := Draft.append_inj_of_length hrest (by rw [hcontent])
      (Draft.isInert_append.mp hinert).2.old_ne_nil
    have hbody := new_eq_old (d := body') (t := before) fun s hs => by
      rw [htag]
      simp [hs]
    rw [hbody, ← htag, Draft.new_keep]

/-- Parts in front of all that is revised are not changed. -/
private theorem Alongside.append_keep {rest : Draft} {first ps qs : List (Part Finding)}
    (h : Alongside Counterpart (keep (first.flatMap Part.text) ++ rest) (first ++ ps) qs)
    (hrest : rest.IsInert) : ∃ qs', qs = first ++ qs' ∧ Alongside Counterpart rest ps qs' := by
  induction first generalizing qs with
  | nil => exact ⟨qs, rfl, h⟩
  | cons p first ih =>
    rw [List.flatMap_cons, Draft.keep_append, List.append_assoc, List.cons_append] at h
    have hinert : Draft.IsInert (keep p.text ++ (keep (first.flatMap Part.text) ++ rest)) :=
      Draft.isInert_append.mpr ⟨Draft.isInert_keep _,
        Draft.isInert_append.mpr ⟨Draft.isInert_keep _, hrest⟩⟩
    generalize hdraft : keep p.text ++ (keep (first.flatMap Part.text) ++ rest) = draft at h hinert
    generalize hps : p :: (first ++ ps) = ps' at h
    cases h with
    | nil => cases hps
    | plain c h =>
      obtain ⟨rfl, rfl⟩ := List.cons.inj hps
      obtain rfl := (List.cons.inj hdraft).2
      obtain ⟨qs', rfl, hqs⟩ := ih h
      exact ⟨qs', rfl, hqs⟩
    | @passed _ _ _ old new hnil h =>
      cases old with
      | nil => exact absurd rfl hnil
      | cons c old =>
        obtain ⟨rfl, -⟩ := List.cons.inj hps
        cases (List.cons.inj hdraft).1
    | found hab h =>
      obtain ⟨rfl, rfl⟩ := List.cons.inj hps
      obtain ⟨hkeep, rfl⟩ := Draft.append_inj_of_length hdraft (by simp [Part.text])
        (hdraft ▸ hinert.old_ne_nil)
      rw [Part.text] at hkeep
      rw [← hkeep] at hab ⊢
      obtain rfl := hab.eq_of_keep
      obtain ⟨qs', rfl, hqs⟩ := ih h
      exact ⟨qs', by simp, hqs⟩

private theorem Alongside.eq_of_keep {ps qs : List (Part Finding)}
    (h : Alongside Counterpart (keep (ps.flatMap Part.text)) ps qs) : qs = ps := by
  have hnil : Alongside Counterpart (keep (ps.flatMap Part.text) ++ []) (ps ++ []) qs := by
    simpa using h
  obtain ⟨qs', rfl, hrest⟩ := hnil.append_keep Draft.isInert_nil
  generalize hdraft : ([] : Draft) = draft at hrest
  generalize hps : ([] : List (Part Finding)) = ps' at hrest
  cases hrest with
  | nil => exact List.append_nil ps
  | plain => cases hdraft
  | passed => cases hdraft
  | found => cases hps

/-- A list of parts is what a component is divided into. -/
def Parses (ps : List (Part Finding)) : Prop :=
  Text.parts matchBlock (ps.flatMap Part.text) = ps

private theorem Parses.renew_inert {first last : List (Part Finding)} {kind body before after : Text}
    {inner : Draft} (hinner : inner.IsInert) (h : Parses (first ++
      .found (.block kind body inner.old before.length) (before ++ inner.old ++ after) :: last)) :
    Parses (first ++
      .found (.block kind body inner.new before.length) (before ++ inner.new ++ after) :: last) := by
  let draft : Draft := keep (first.flatMap Part.text) ++
    (keep before ++ (inner ++ keep after) ++ keep (last.flatMap Part.text))
  have hdraft : draft.IsInert := by
    simp only [draft, Draft.isInert_append]
    exact ⟨Draft.isInert_keep _, ⟨Draft.isInert_keep _, hinner, Draft.isInert_keep _⟩,
      Draft.isInert_keep _⟩
  have hold : Text.parts matchBlock draft.old =
      first ++ .found (.block kind body inner.old before.length) (before ++ inner.old ++ after) ::
        last := by
    rw [← h]
    simp [draft, Part.text]
  -- The parts in front are kept, then comes the block, and all behind it is kept again.
  have halong := parts_inert matchBlock_follows hdraft
  rw [hold] at halong
  obtain ⟨qs, hqs, hrest⟩ := halong.append_keep (Draft.isInert_append.mp hdraft).2
  have hinert := (Draft.isInert_append.mp hdraft).2
  generalize hps : Part.found _ _ :: last = ps at hrest
  generalize hmore : keep before ++ (inner ++ keep after) ++ _ = more at hrest hinert
  have hlater : qs = .found (.block kind body inner.new before.length)
      (before ++ inner.new ++ after) :: last := by
    cases hrest with
    | nil => cases hps
    | plain c _ => cases hps
    | @passed _ _ _ old _ hne _ =>
      cases old with
      | nil => exact absurd rfl hne
      | cons c old => cases hps
    | found hab hlast =>
      obtain ⟨hfound, rfl⟩ := List.cons.inj hps
      obtain ⟨rfl, htext⟩ := Part.found.inj hfound
      obtain ⟨rfl, rfl⟩ := Draft.append_inj_of_length hmore (by simp [← htext])
        (hmore ▸ hinert.old_ne_nil)
      obtain rfl := hab.eq_of_inner hinner
      obtain rfl := hlast.eq_of_keep
      simp
  have hnew : draft.new = (first ++ .found (.block kind body inner.new before.length)
      (before ++ inner.new ++ after) :: last).flatMap Part.text := by
    simp [draft, Part.text]
  rw [Parses, ← hnew, hqs, hlater]

/-- If the content of one block is revised, nothing else is read differently. -/
theorem Parses.renew {first last : List (Part Finding)} {kind body before content after new : Text}
    (hnew : Text.Revised content new) (h : Parses (first ++
      .found (.block kind body content before.length) (before ++ content ++ after) :: last)) :
    Parses (first ++
      .found (.block kind body new before.length) (before ++ new ++ after) :: last) := by
  induction hnew with
  | refl => exact h
  | tail _ hstep ih =>
    obtain ⟨inner, hinner, rfl, rfl⟩ := hstep
    exact ih.renew_inert hinner

end LocaleLift.Component
