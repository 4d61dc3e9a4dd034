import LocaleLift.Component.Block
import LocaleLift.Proofs.Text.Inert
import Mathlib.Data.List.Forall2
import Mathlib.Data.List.Induction

/-! The scanners for tags, comments and blocks go the same way through the old text and through the
new text of an inert draft. -/
namespace LocaleLift.Component

open Draft (keep)

variable {draft : Draft}

theorem rel_map {α β γ δ : Type} {r : α → β → Prop} {s : γ → δ → Prop} {f : α → γ}
    {g : β → δ} {x : Option α} {y : Option β} (h : Option.Rel r x y)
    (hfg : ∀ a b, r a b → s (f a) (g b)) : Option.Rel s (x.map f) (y.map g) := by
  cases h with
  | some h => exact .some (hfg _ _ h)
  | none => exact .none

theorem rel_imp {α β : Type} {r s : α → β → Prop} {x : Option α} {y : Option β}
    (h : Option.Rel r x y) (hrs : ∀ a b, r a b → s a b) : Option.Rel s x y := by
  cases h with
  | some h => exact .some (hrs _ _ h)
  | none => exact .none

private theorem foldLetter_of_not_sharp {c : CodePoint} (h : ¬ c.IsSharp) : foldLetter c = c := by
  have hfree : c.inRange 0x41 0x5A = false ∧ c.toNat ≠ 0x17F ∧ c.inRange 0x130 0x131 = false := by
    rw [CodePoint.IsSharp, not_and_or, not_not, Bool.not_eq_false] at h
    rcases h with h | h | (rfl | rfl) | rfl | rfl | rfl
    · simp only [CodePoint.isSpace, CodePoint.inRange, Bool.or_eq_true, Bool.and_eq_true,
        decide_eq_true_eq, beq_iff_eq, Bool.and_eq_false_iff, decide_eq_false_iff_not] at h ⊢
      omega
    · simp only [CodePoint.isHan, CodePoint.inRange, Bool.and_eq_true,
        decide_eq_true_eq, Bool.and_eq_false_iff, decide_eq_false_iff_not] at h ⊢
      omega
    all_goals decide
  simp [foldLetter, hfree]

/-- The heads of two texts that are alike are no sharp code points. -/
theorem heads_of_alike {s t : Text} (h : Text.Alike s t) : ∃ a s' b t', s = a :: s' ∧
    t = b :: t' ∧ ¬ a.IsSharp ∧ ¬ b.IsSharp := by
  cases h with
  | space s t hc =>
    have : ¬ CodePoint.IsSharp _ := fun h => by rw [h.1] at hc; cases hc
    exact ⟨_, s, _, t, rfl, rfl, this, this⟩
  | blunt hs ht =>
    obtain ⟨a, s, rfl, ha⟩ := hs
    obtain ⟨b, t, rfl, hb⟩ := ht
    exact ⟨a, s, b, t, rfl, rfl, fun h => h.2 ha, fun h => h.2 hb⟩

/-- A mark of sharp code points stands in the old text exactly where it stands in the new one. -/
theorem dropStart?_inert (h : draft.IsInert) (mark : Text) (hmark : ∀ c ∈ mark, c.IsSharp) :
    Option.Rel (fun a b => ∃ rest : Draft, draft = keep mark ++ rest ∧ a = rest.old ∧ b = rest.new)
      (Text.dropStart? mark draft.old) (Text.dropStart? mark draft.new) := by
  induction mark generalizing draft with
  | nil => exact .some ⟨draft, rfl, rfl, rfl⟩
  | cons m mark ih =>
    obtain ⟨hm, hmark⟩ := List.forall_mem_cons.mp hmark
    rcases h.cases_head with rfl | ⟨c, rest, rfl⟩ | halike
    · exact .none
    · have hrest := ih (Draft.isInert_cons.mp h).2 hmark
      simp only [Draft.old_cons, Draft.new_cons, Stretch.old, Stretch.new, List.singleton_append,
        Text.dropStart?]
      split
      · rename_i hc
        subst hc
        refine rel_imp hrest ?_
        rintro _ _ ⟨e, rfl, rfl, rfl⟩
        exact ⟨e, rfl, rfl, rfl⟩
      · exact .none
    · obtain ⟨a, s, b, t, hold, hnew, ha, hb⟩ := heads_of_alike halike
      rw [hold, hnew, Text.dropStart?, Text.dropStart?, if_neg, if_neg]
      · exact .none
      · rintro rfl
        exact hb hm
      · rintro rfl
        exact ha hm

/-- A text is a way to write a word. -/
def Spells (word t : Text) : Prop :=
  List.Forall₂ (fun w c => foldLetter w = foldLetter c) word t

theorem dropWord?_inert (h : draft.IsInert) {word : Text}
    (hword : ∀ w ∈ word, (foldLetter w).IsSharp) :
    Option.Rel (fun a b => ∃ (name : Text) (rest : Draft), draft = keep name ++ rest ∧
      Spells word name ∧ a = rest.old ∧ b = rest.new)
      (dropWord? word draft.old) (dropWord? word draft.new) := by
  induction word generalizing draft with
  | nil => exact .some ⟨[], draft, rfl, .nil, rfl, rfl⟩
  | cons w word ih =>
    obtain ⟨hw, hword⟩ := List.forall_mem_cons.mp hword
    rcases h.cases_head with rfl | ⟨c, rest, rfl⟩ | halike
    · exact .none
    · have hrest := ih (Draft.isInert_cons.mp h).2 hword
      simp only [Draft.old_cons, Draft.new_cons, Stretch.old, Stretch.new, List.singleton_append,
        dropWord?]
      split
      · rename_i hc
        refine rel_imp hrest ?_
        rintro _ _ ⟨name, e, rfl, hname, rfl, rfl⟩
        exact ⟨c :: name, e, rfl, .cons hc hname, rfl, rfl⟩
      · exact .none
    · obtain ⟨a, s, b, t, hold, hnew, ha, hb⟩ := heads_of_alike halike
      rw [hold, hnew, dropWord?, dropWord?, foldLetter_of_not_sharp ha, foldLetter_of_not_sharp hb,
        if_neg, if_neg]
      · exact .none
      · exact fun hwb => hb (hwb ▸ hw)
      · exact fun hwa => ha (hwa ▸ hw)

/-- No comment ends inside a passage, nor across its end. -/
private theorem splitAt?_passage {passage : Text} (h : Text.Sealed passage) (t : Text) :
    Text.splitAt? "-->" (passage ++ t) =
      (Text.splitAt? "-->" t).map fun (before, rest) => (passage ++ before, rest) := by
  have hwhole (s : Text) (hs : s ≠ [] → s.getLast? ≠ some (.scalar '-'))
      (hbracket : ∀ c ∈ s, c ≠ .scalar '>') :
      Text.splitAt? "-->" (s ++ t) =
        (Text.splitAt? "-->" t).map fun (before, rest) => (s ++ before, rest) := by
    -- The mark would meet the last code point with a hyphen, or a later one with its bracket.
    induction s with
    | nil => simp
    | cons c s ih =>
      have hnone : Text.dropStart? "-->" (c :: (s ++ t)) = none := by
        cases s with
        | nil =>
          have hc : CodePoint.scalar '-' ≠ c := fun e => hs (List.cons_ne_nil c []) (by simp [e])
          simp [Text.ofString, Text.dropStart?, hc]
        | cons d s =>
          cases s with
          | nil =>
            have hd : CodePoint.scalar '-' ≠ d := fun e =>
              hs (List.cons_ne_nil c [d]) (by simp [e])
            simp [Text.ofString, Text.dropStart?, hd]
          | cons e s =>
            have he : CodePoint.scalar '>' ≠ e := (hbracket e (by simp)).symm
            simp [Text.ofString, Text.dropStart?, he]
      rw [List.cons_append, Text.splitAt?, hnone, ih _ (List.forall_mem_cons.mp hbracket).2]
      · simp [Option.map_map, Function.comp_def]
      · intro hne
        rw [List.getLast?_cons_of_ne_nil hne] at hs
        exact hs (List.cons_ne_nil c s)
  refine hwhole passage (fun _ => ?_) fun c hc => (h.balanced.no_bracket c hc).2
  obtain ⟨s, c, rfl, hc⟩ := h.last
  simpa using hc.2.2.1

private theorem splitAt?_inert (h : draft.IsInert) :
    Option.Rel (fun a b => ∃ d e : Draft, draft = d ++ (keep "-->" ++ e) ∧
      a = (d.old, e.old) ∧ b = (d.new, e.new))
      (Text.splitAt? "-->" draft.old) (Text.splitAt? "-->" draft.new) := by
  induction draft with
  | nil => exact .none
  | cons s draft ih =>
    have hrest := ih (Draft.isInert_cons.mp h).2
    cases s with
    | kept c =>
      have hhere := dropStart?_inert h "-->" (by decide)
      simp only [Draft.old_cons, Draft.new_cons, Stretch.old, Stretch.new, List.singleton_append]
        at hhere ⊢
      rw [Text.splitAt?, Text.splitAt?]
      generalize Text.dropStart? "-->" (c :: Draft.old draft) = x at hhere ⊢
      generalize Text.dropStart? "-->" (c :: Draft.new draft) = y at hhere ⊢
      cases hhere with
      | some hhere =>
        obtain ⟨e, hdraft, rfl, rfl⟩ := hhere
        exact .some ⟨[], e, hdraft, rfl, rfl⟩
      | none =>
        refine rel_map hrest ?_
        rintro _ _ ⟨d, e, rfl, rfl, rfl⟩
        exact ⟨.kept c :: d, e, rfl, rfl, rfl⟩
    | swapped old new =>
      obtain ⟨hold, hnew, -⟩ := (Draft.isInert_cons.mp h).1
      rw [Draft.old_cons, Draft.new_cons, Stretch.old, Stretch.new, splitAt?_passage hold,
        splitAt?_passage hnew]
      refine rel_map hrest ?_
      rintro _ _ ⟨d, e, rfl, rfl, rfl⟩
      exact ⟨.swapped old new :: d, e, rfl, rfl, rfl⟩

/-- How much of the old text and of the new text the beginning of a draft takes. -/
def Reach (draft : Draft) (m n : Nat) : Prop :=
  ∃ d e : Draft, draft = d ++ e ∧ m = d.old.length ∧ n = d.new.length

theorem comment?_inert (h : draft.IsInert) :
    Option.Rel (Reach draft) (comment? draft.old) (comment? draft.new) := by
  have hstart := dropStart?_inert h "!--" (by decide)
  rw [comment?, comment?]
  generalize Text.dropStart? "!--" draft.old = x at hstart ⊢
  generalize Text.dropStart? "!--" draft.new = y at hstart ⊢
  cases hstart with
  | none => exact .none
  | some hstart =>
    obtain ⟨rest, rfl, rfl, rfl⟩ := hstart
    refine rel_map (splitAt?_inert (Draft.isInert_append.mp h).2) ?_
    rintro _ _ ⟨d, e, rfl, rfl, rfl⟩
    refine ⟨keep "!--" ++ (d ++ keep "-->"), e, by simp, ?_, ?_⟩
    · simp [Text.ofString]
    · simp [Text.ofString]

private theorem tagBody?_balanced {s : Text} (h : Text.Balanced s) {quote : Option CodePoint}
    (hquote : ∀ q ∈ quote, q.IsQuote) (t : Text) :
    tagBody? quote (s ++ t) = (tagBody? quote t).map (s ++ ·) := by
  induction h generalizing quote t with
  | @plain s h =>
    induction s with
    | nil => simp
    | cons c s ih =>
      obtain ⟨⟨hc, -, hclose⟩, hs⟩ := List.forall_mem_cons.mp h
      have hkeep : ∀ q ∈ quote, c ≠ q := fun q hq e => hc (e ▸ hquote q hq)
      have hrest := ih hs
      cases quote with
      | none =>
        rw [List.cons_append, tagBody?, if_neg hclose, if_neg (by simpa [CodePoint.IsQuote] using hc),
          hrest, Option.map_map]
        rfl
      | some q =>
        rw [List.cons_append, tagBody?, if_neg (hkeep q rfl), hrest, Option.map_map]
        rfl
  | append _ _ ihs iht =>
    rw [List.append_assoc, ihs hquote, iht hquote, Option.map_map]
    simp [Function.comp_def]
  | @quoted q s hq _ ih =>
    have hclose : q ≠ .scalar '>' := by
      rcases hq with rfl | rfl <;> decide
    have hopen : (q = .scalar '\x22' || q = .scalar '\x27') = true := by
      simpa [CodePoint.IsQuote] using hq
    have hsome {q : CodePoint} (hq : q.IsQuote) : ∀ r ∈ some q, r.IsQuote := by
      rintro _ ⟨⟩
      exact hq
    have hassoc : q :: (s ++ [q]) ++ t = q :: (s ++ q :: t) := by simp
    rw [hassoc]
    -- Within other quotes these two mean nothing, and within quotes of their kind they close these
    -- and open them again.
    cases quote with
    | none =>
      rw [tagBody?, if_neg hclose, if_pos hopen, ih (hsome hq), tagBody?, if_pos rfl]
      simp [Function.comp_def]
    | some r =>
      by_cases hqr : q = r
      · subst hqr
        rw [tagBody?, if_pos rfl, ih (by simp), tagBody?, if_neg hclose, if_pos hopen]
        simp [Function.comp_def]
      · rw [tagBody?, if_neg hqr, ih hquote, tagBody?, if_neg hqr]
        simp [Function.comp_def]

private theorem tagBody?_inert (h : draft.IsInert) {quote : Option CodePoint}
    (hquote : ∀ q ∈ quote, q.IsQuote) :
    Option.Rel (fun a b => ∃ d e : Draft, draft = d ++ .kept (.scalar '>') :: e ∧
      a = d.old ∧ b = d.new) (tagBody? quote draft.old) (tagBody? quote draft.new) := by
  induction draft generalizing quote with
  | nil => cases quote <;> exact .none
  | cons s draft ih =>
    have hrest {quote : Option CodePoint} (hquote : ∀ q ∈ quote, q.IsQuote) :=
      ih (Draft.isInert_cons.mp h).2 hquote
    cases s with
    | kept c =>
      have hmore {quote : Option CodePoint} (hquote : ∀ q ∈ quote, q.IsQuote) :
          Option.Rel (fun a b => ∃ d e : Draft,
            .kept c :: draft = d ++ .kept (.scalar '>') :: e ∧ a = d.old ∧ b = d.new)
            ((tagBody? quote (Draft.old draft)).map (c :: ·))
            ((tagBody? quote (Draft.new draft)).map (c :: ·)) := by
        refine rel_map (hrest hquote) ?_
        rintro _ _ ⟨d, e, rfl, rfl, rfl⟩
        exact ⟨.kept c :: d, e, rfl, rfl, rfl⟩
      rw [Draft.old_cons, Draft.new_cons, Stretch.old, Stretch.new, List.singleton_append,
        List.singleton_append]
      cases quote with
      | some q =>
        rw [tagBody?, tagBody?]
        apply hmore
        split
        · simp
        · exact hquote
      | none =>
        rw [tagBody?, tagBody?]
        split
        · rename_i hc
          subst hc
          exact .some ⟨[], draft, rfl, rfl, rfl⟩
        · apply hmore
          split
          · rename_i hc
            rintro _ ⟨⟩
            simpa [CodePoint.IsQuote] using hc
          · simp
    | swapped old new =>
      obtain ⟨hold, hnew, -⟩ := (Draft.isInert_cons.mp h).1
      rw [Draft.old_cons, Draft.new_cons, Stretch.old, Stretch.new,
        tagBody?_balanced hold.balanced hquote, tagBody?_balanced hnew.balanced hquote]
      refine rel_map (hrest hquote) ?_
      rintro _ _ ⟨d, e, rfl, rfl, rfl⟩
      exact ⟨.swapped old new :: d, e, rfl, rfl, rfl⟩

theorem isSelfClosing_concat (t : Text) (c : CodePoint) : isSelfClosing (t ++ [c]) =
    if c.isSpace then isSelfClosing t else decide (c = .scalar '/') := by
  rw [isSelfClosing, isSelfClosing, Text.trimEnd, Text.trimEnd, List.reverse_append,
    List.reverse_singleton, List.singleton_append, List.dropWhile_cons]
  split
  · rfl
  · rw [Bool.eq_iff_iff]
    simp

theorem isSelfClosing_inert (h : draft.IsInert) :
    isSelfClosing draft.old = isSelfClosing draft.new := by
  induction draft using List.reverseRecOn with
  | nil => rfl
  | append_singleton draft s ih =>
    obtain ⟨hdraft, hs⟩ := Draft.isInert_append.mp h
    have hfirm {passage : Text} (h : Text.Sealed passage) (t : Text) :
        isSelfClosing (t ++ passage) = false := by
      obtain ⟨s, c, rfl, hspace, hslash, -⟩ := h.last
      rw [← List.append_assoc, isSelfClosing_concat, hspace]
      simpa using hslash
    rw [Draft.old_append, Draft.new_append]
    cases s with
    | kept c =>
      have hc : Draft.old [.kept c] = [c] ∧ Draft.new [.kept c] = [c] := ⟨rfl, rfl⟩
      rw [hc.1, hc.2, isSelfClosing_concat, isSelfClosing_concat, ih hdraft]
    | swapped old new =>
      obtain ⟨hold, hnew, -⟩ := (Draft.isInert_cons.mp hs).1
      simp only [Draft.old_cons, Draft.new_cons, Draft.old_nil, Draft.new_nil, List.append_nil,
        Stretch.old, Stretch.new]
      rw [hfirm hold, hfirm hnew]

/-- What may stand after the name of a tag. -/
def endsName (c : CodePoint) : Bool :=
  c.isSpace || c = .scalar '/' || c = .scalar '>'

private theorem tag?_eq (names : List Text) (t : Text) : tag? names t =
    (names.findSome? fun n => dropWord? n t).bind fun rest =>
      if rest.head?.any endsName then
        (tagBody? none rest).map fun body =>
          (t.take (t.length - rest.length), body,
            (t.take (t.length - rest.length)).length + body.length + 1)
      else none := by
  rw [tag?]
  refine congrArg (Option.bind _) (funext fun rest => ?_)
  cases rest with
  | nil => rfl
  | cons c rest =>
    change (if !endsName c then none else _) = _
    rw [List.head?_cons, Option.any_some]
    cases endsName c with
    | false => rfl
    | true => exact (Option.map_eq_bind ..).symm

private theorem head_inert (h : draft.IsInert) :
    draft.old.head?.any endsName = draft.new.head?.any endsName := by
  have hblunt {c : CodePoint} (hc : c.IsBlunt) : endsName c = false := by
    rcases hc with hc | (rfl | rfl) | rfl | rfl | rfl
    · simp [endsName, CodePoint.isSpace_of_isHan hc, CodePoint.ne_scalar_of_isHan hc]
    all_goals decide
  rcases h.cases_head with rfl | ⟨c, rest, rfl⟩ | halike
  · rfl
  · rfl
  · generalize draft.old = s at halike ⊢
    generalize draft.new = t at halike ⊢
    cases halike with
    | space s t hc => rfl
    | blunt hs ht =>
      obtain ⟨a, s, rfl, ha⟩ := hs
      obtain ⟨b, t, rfl, hb⟩ := ht
      simp [hblunt ha, hblunt hb]

private theorem findSome?_inert (h : draft.IsInert) {names : List Text}
    (hnames : ∀ word ∈ names, ∀ w ∈ word, (foldLetter w).IsSharp) :
    Option.Rel (fun a b => ∃ (name : Text) (rest : Draft), draft = keep name ++ rest ∧
      (∃ word ∈ names, Spells word name) ∧ a = rest.old ∧ b = rest.new)
      (names.findSome? fun n => dropWord? n draft.old)
      (names.findSome? fun n => dropWord? n draft.new) := by
  induction names with
  | nil => exact .none
  | cons word names ih =>
    obtain ⟨hword, hnames⟩ := List.forall_mem_cons.mp hnames
    have hfirst := dropWord?_inert h hword
    rw [List.findSome?_cons, List.findSome?_cons]
    generalize dropWord? word draft.old = x at hfirst ⊢
    generalize dropWord? word draft.new = y at hfirst ⊢
    cases hfirst with
    | some hfirst =>
      obtain ⟨name, rest, hdraft, hname, rfl, rfl⟩ := hfirst
      exact .some ⟨name, rest, hdraft, ⟨word, List.mem_cons_self .., hname⟩, rfl, rfl⟩
    | none =>
      refine rel_imp (ih hnames) ?_
      rintro _ _ ⟨name, rest, hdraft, ⟨word', hmem, hname⟩, rfl, rfl⟩
      exact ⟨name, rest, hdraft, ⟨word', List.mem_cons_of_mem _ hmem, hname⟩, rfl, rfl⟩

theorem tag?_inert (h : draft.IsInert) {names : List Text}
    (hnames : ∀ word ∈ names, ∀ w ∈ word, (foldLetter w).IsSharp) :
    Option.Rel (fun a b => ∃ (name : Text) (d e : Draft),
      draft = keep name ++ (d ++ .kept (.scalar '>') :: e) ∧
      (∃ word ∈ names, Spells word name) ∧
      a = (name, d.old, name.length + d.old.length + 1) ∧
      b = (name, d.new, name.length + d.new.length + 1))
      (tag? names draft.old) (tag? names draft.new) := by
  have hfound := findSome?_inert h hnames
  rw [tag?_eq, tag?_eq]
  generalize (names.findSome? fun n => dropWord? n draft.old) = x at hfound ⊢
  generalize (names.findSome? fun n => dropWord? n draft.new) = y at hfound ⊢
  cases hfound with
  | none => exact .none
  | some hfound =>
    obtain ⟨name, rest, rfl, hname, rfl, rfl⟩ := hfound
    obtain ⟨-, hrest⟩ := Draft.isInert_append.mp h
    rw [Option.bind_some, Option.bind_some, head_inert hrest]
    split
    · have htake (t : Text) : (name ++ t).take ((name ++ t).length - t.length) = name := by
        rw [List.length_append, Nat.add_sub_cancel, List.take_left]
      rw [Draft.old_append, Draft.new_append, Draft.old_keep, Draft.new_keep, htake, htake]
      refine rel_map (tagBody?_inert hrest (by simp)) ?_
      rintro _ _ ⟨d, e, rfl, rfl, rfl⟩
      exact ⟨name, d, e, rfl, hname, rfl, rfl⟩
    · exact .none

/-- A tag is read as soon as one of the names and its body are. -/
theorem tag?_eq_some {names : List Text} {t name rest body : Text}
    (hname : (names.findSome? fun n => dropWord? n t) = some rest) (ht : t = name ++ rest)
    (hrest : rest.head?.any endsName = true) (hbody : tagBody? none rest = some body) :
    tag? names t = some (name, body, name.length + body.length + 1) := by
  have htake : t.take (t.length - rest.length) = name := by
    rw [ht, List.length_append, Nat.add_sub_cancel, List.take_left]
  rw [tag?_eq, hname, Option.bind_some, if_pos hrest, hbody, Option.map_some, htake]

private theorem foldLetter_of_endsName {c : CodePoint} (h : endsName c = true) :
    foldLetter c = c := by
  simp only [endsName, Bool.or_eq_true, decide_eq_true_eq] at h
  rcases h with (hspace | rfl) | rfl
  · exact foldLetter_of_not_sharp fun hsharp => by rw [hsharp.1] at hspace; cases hspace
  · decide
  · decide

/-- Where a name ends, no word is read that the name does not spell. -/
private theorem spells_of_dropWord? {word name tail rest : Text}
    (hword : ∀ w ∈ word, endsName (foldLetter w) = false) (hname : ∀ c ∈ name, endsName c = false)
    (htail : tail.head?.any endsName = true) (h : dropWord? word (name ++ tail) = some rest)
    (hrest : rest.head?.any endsName = true) : Spells word name := by
  induction word generalizing name with
  | nil =>
    obtain rfl := Option.some.inj h
    cases name with
    | nil => exact .nil
    | cons c name =>
      rw [List.cons_append, List.head?_cons, Option.any_some,
        hname c (List.mem_cons_self ..)] at hrest
      cases hrest
  | cons w word ih =>
    obtain ⟨hw, hword⟩ := List.forall_mem_cons.mp hword
    cases name with
    | nil =>
      cases tail with
      | nil => cases h
      | cons c tail =>
        rw [List.head?_cons, Option.any_some] at htail
        rw [List.nil_append, dropWord?] at h
        split at h
        · rename_i hc
          rw [hc, foldLetter_of_endsName htail, htail] at hw
          cases hw
        · cases h
    | cons c name =>
      rw [List.cons_append, dropWord?] at h
      split at h
      · rename_i hc
        exact .cons hc (ih hword (List.forall_mem_cons.mp hname).2 h)
      · cases h

/-- A name that spells none of the names asked for makes no tag of these. -/
theorem tag?_other {names : List Text} {name tail : Text}
    (hnames : ∀ word ∈ names, (∀ w ∈ word, endsName (foldLetter w) = false) ∧ ¬ Spells word name)
    (hname : ∀ c ∈ name, endsName c = false) (htail : tail.head?.any endsName = true) :
    tag? names (name ++ tail) = none := by
  rw [tag?_eq]
  refine Option.bind_eq_none_iff.mpr fun rest hrest => if_neg fun hhead => ?_
  obtain ⟨word, hmem, hdrop⟩ := List.exists_of_findSome?_eq_some hrest
  obtain ⟨hword, hother⟩ := hnames word hmem
  exact hother (spells_of_dropWord? hword hname htail hdrop hhead)

end LocaleLift.Component
