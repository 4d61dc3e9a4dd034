import LocaleLift.Proofs.Text.Draft
import LocaleLift.Proofs.Text.Entry
import Mathlib.Logic.Relation

/-! Passages that can be swapped in markup without any tag or comment beginning or ending elsewhere:
they hold no angle bracket, close the quotes they open, and begin and end with nothing that could
belong to a mark of markup. -/
namespace LocaleLift

namespace CodePoint

/-- A code point that hides angle brackets in a tag. -/
def IsQuote (c : CodePoint) : Prop :=
  c = .scalar '\x22' ∨ c = .scalar '\x27'

/-- A code point that means nothing between the brackets of a tag. -/
def IsPlain (c : CodePoint) : Prop :=
  ¬ c.IsQuote ∧ c ≠ .scalar '<' ∧ c ≠ .scalar '>'

/-- A code point with which passages begin: no name of a tag goes on with it, and no mark of a
comment. -/
def IsBlunt (c : CodePoint) : Prop :=
  c.isHan = true ∨ c.IsQuote ∨ c = .scalar '$' ∨ c = .scalar '\x7b' ∨ c = .scalar '\\'

def IsSharp (c : CodePoint) : Prop :=
  c.isSpace = false ∧ ¬ c.IsBlunt

/-- A code point with which passages end: it is the last one of the body of a tag even if space
follows, closes no such tag, and ends neither a comment nor a statement. -/
def IsFirm (c : CodePoint) : Prop :=
  c.isSpace = false ∧ c ≠ .scalar '/' ∧ c ≠ .scalar '-' ∧ c ≠ .scalar ';'

instance : DecidablePred IsQuote := fun _ => inferInstanceAs (Decidable (_ ∨ _))

instance : DecidablePred IsPlain := fun _ => inferInstanceAs (Decidable (_ ∧ _))

instance : DecidablePred IsBlunt := fun _ => inferInstanceAs (Decidable (_ ∨ _))

instance : DecidablePred IsSharp := fun _ => inferInstanceAs (Decidable (_ ∧ _))

instance : DecidablePred IsFirm := fun _ => inferInstanceAs (Decidable (_ ∧ _))

theorem isPlain_of_isSpace {c : CodePoint} (h : c.isSpace = true) : c.IsPlain := by
  refine ⟨?_, ?_, ?_⟩
  · rintro (rfl | rfl) <;> cases h
  · rintro rfl
    cases h
  · rintro rfl
    cases h

theorem ne_scalar_of_isHan {c : CodePoint} (h : c.isHan = true) {d : Char} (hd : d.toNat < 0x4E00) :
    c ≠ .scalar d := by
  rintro rfl
  have hle := (Bool.and_eq_true_iff.mp h).1
  exact absurd (of_decide_eq_true hle) (Nat.not_le.mpr hd)

end CodePoint

namespace Text

def IsPlain (t : Text) : Prop :=
  ∀ c ∈ t, c.IsPlain

instance (t : Text) : Decidable t.IsPlain :=
  inferInstanceAs (Decidable (∀ c ∈ t, c.IsPlain))

/-- White space is plain, so trimming hides nothing. -/
theorem isPlain_trim {t : Text} : (trim t).IsPlain ↔ t.IsPlain :=
  forall_mem_trim fun _ => CodePoint.isPlain_of_isSpace

theorem isPlain_of_isBlank {t : Text} (h : isBlank t = true) : t.IsPlain :=
  fun c hc => CodePoint.isPlain_of_isSpace (List.all_eq_true.mp h c hc)

def IsQuoted (t : Text) : Prop :=
  ∃ q body, CodePoint.IsQuote q ∧ t = q :: (body ++ [q])

/-- A text that leaves what is quoted and what is not as it was, and holds no angle bracket. -/
inductive Balanced : Text → Prop where
  | plain {t : Text} (h : t.IsPlain) : Balanced t
  | append {s t : Text} (hs : Balanced s) (ht : Balanced t) : Balanced (s ++ t)
  | quoted {q : CodePoint} {t : Text} (hq : q.IsQuote) (ht : Balanced t) :
      Balanced (q :: (t ++ [q]))

/-- A balanced text with a firm end. -/
structure Sealed (t : Text) : Prop where
  balanced : Balanced t
  last : ∃ s c, t = s ++ [c] ∧ c.IsFirm

def Blunt (t : Text) : Prop :=
  ∃ c s, t = c :: s ∧ c.IsBlunt

/-- A text that can stand in a script for another one: sealed, and with a blunt beginning. -/
structure IsPassage (t : Text) : Prop extends Sealed t where
  blunt : Blunt t

/-- Two texts begin with the same space, or each with a blunt code point. -/
inductive Alike : Text → Text → Prop where
  | space {c : CodePoint} (s t : Text) (h : c.isSpace = true) : Alike (c :: s) (c :: t)
  | blunt {s t : Text} (hs : Blunt s) (ht : Blunt t) : Alike s t

theorem Balanced.no_bracket {t : Text} (h : Balanced t) :
    ∀ c ∈ t, c ≠ .scalar '<' ∧ c ≠ .scalar '>' := by
  induction h with
  | plain h => exact fun c hc => (h c hc).2
  | append _ _ ihs iht => exact List.forall_mem_append.mpr ⟨ihs, iht⟩
  | @quoted q t hq _ ih =>
    have hquote : q ≠ .scalar '<' ∧ q ≠ .scalar '>' := by
      rcases hq with rfl | rfl <;> decide
    exact List.forall_mem_cons.mpr
      ⟨hquote, List.forall_mem_append.mpr ⟨ih, List.forall_mem_singleton.mpr hquote⟩⟩

theorem isPassage_quoted {q : CodePoint} {t : Text} (hq : q.IsQuote) (ht : t.IsPlain) :
    IsPassage (q :: (t ++ [q])) where
  balanced := .quoted hq (.plain ht)
  last := by
    refine ⟨q :: t, q, rfl, ?_⟩
    rcases hq with rfl | rfl
    · decide
    · decide
  blunt := ⟨q, _, rfl, .inr (.inl hq)⟩

theorem Sealed.ne_nil {t : Text} (h : Sealed t) : t ≠ [] := by
  obtain ⟨s, c, rfl, -⟩ := h.last
  exact List.append_ne_nil_of_right_ne_nil s (List.cons_ne_nil c [])

end Text

/-- A passage is kept, or swapped for another that markup takes no more notice of. -/
def Stretch.IsInert : Stretch → Prop
  | .kept _ => True
  | .swapped old new => Text.Sealed old ∧ Text.Sealed new ∧ Text.Alike old new

/-- Something is kept, or swapped as in a script. -/
def Stretch.IsTight : Stretch → Prop
  | .kept _ => True
  | .swapped old new => old.IsPassage ∧ new.IsPassage

def Draft.IsTight (draft : Draft) : Prop :=
  ∀ s ∈ draft, s.IsTight

/-- Every passage that is swapped makes no difference to markup. -/
def Draft.IsInert (draft : Draft) : Prop :=
  ∀ s ∈ draft, s.IsInert

namespace Draft

theorem IsTight.isInert {draft : Draft} (h : draft.IsTight) : draft.IsInert := by
  intro s hs
  cases s with
  | kept c => trivial
  | swapped old new =>
    obtain ⟨hold, hnew⟩ := h _ hs
    exact ⟨hold.toSealed, hnew.toSealed, .blunt hold.blunt hnew.blunt⟩

theorem isTight_append {draft more : Draft} :
    Draft.IsTight (draft ++ more) ↔ draft.IsTight ∧ more.IsTight :=
  List.forall_mem_append

theorem isTight_cons {s : Stretch} {draft : Draft} :
    Draft.IsTight (s :: draft) ↔ s.IsTight ∧ draft.IsTight :=
  List.forall_mem_cons

theorem isTight_keep (t : Text) : (keep t).IsTight := by
  intro s hs
  obtain ⟨c, -, rfl⟩ := List.mem_map.mp hs
  trivial

theorem isInert_nil : Draft.IsInert [] :=
  List.forall_mem_nil _

theorem isInert_cons {s : Stretch} {draft : Draft} :
    Draft.IsInert (s :: draft) ↔ s.IsInert ∧ draft.IsInert :=
  List.forall_mem_cons

theorem isInert_append {draft more : Draft} :
    Draft.IsInert (draft ++ more) ↔ draft.IsInert ∧ more.IsInert :=
  List.forall_mem_append

theorem isInert_keep (t : Text) : (keep t).IsInert :=
  (isTight_keep t).isInert

/-- What inert drafts begin with. -/
theorem IsInert.cases_head {draft : Draft} (h : draft.IsInert) : draft = [] ∨
    (∃ c rest, draft = .kept c :: rest) ∨ Text.Alike draft.old draft.new := by
  cases draft with
  | nil => exact .inl rfl
  | cons s rest =>
    cases s with
    | kept c => exact .inr (.inl ⟨c, rest, rfl⟩)
    | swapped old new =>
      refine .inr (.inr ?_)
      obtain ⟨-, -, halike⟩ := (isInert_cons.mp h).1
      cases halike with
      | space s t hc => exact .space _ _ hc
      | blunt hs ht =>
        obtain ⟨a, s, rfl, ha⟩ := hs
        obtain ⟨b, t, rfl, hb⟩ := ht
        exact .blunt ⟨a, _, rfl, ha⟩ ⟨b, _, rfl, hb⟩

/-- Nothing is swapped where no passage can begin. -/
theorem IsTight.exists_first {draft : Draft} (h : draft.IsTight) {s t : Text}
    (hold : draft.old = s ++ t) (hs : ∀ c ∈ s, ¬ c.IsBlunt) :
    ∃ more : Draft, draft = keep s ++ more ∧ more.IsTight ∧ more.old = t := by
  induction s generalizing draft with
  | nil => exact ⟨draft, rfl, h, hold⟩
  | cons c s ih =>
    obtain ⟨hc, hrest⟩ := List.forall_mem_cons.mp hs
    cases draft with
    | nil => cases hold
    | cons stretch draft =>
      obtain ⟨hstretch, hdraft⟩ := isTight_cons.mp h
      cases stretch with
      | kept d =>
        obtain ⟨rfl, hafter⟩ := List.cons.inj hold
        obtain ⟨more, rfl, hmore⟩ := ih hdraft hafter hrest
        exact ⟨more, rfl, hmore⟩
      | swapped old new =>
        obtain ⟨d, rest, rfl, hd⟩ := hstretch.1.blunt
        obtain ⟨rfl, -⟩ := List.cons.inj hold
        exact absurd hd hc

/-- Nothing is swapped where no passage can end. -/
theorem IsTight.exists_last {draft : Draft} (h : draft.IsTight) {t : Text} {c : CodePoint}
    (hold : draft.old = t ++ [c]) (hc : ¬ c.IsFirm) :
    ∃ more : Draft, draft = more ++ keep [c] ∧ more.IsTight ∧ more.old = t := by
  rcases List.eq_nil_or_concat draft with rfl | ⟨more, stretch, rfl⟩
  · exact absurd hold.symm (List.append_ne_nil_of_right_ne_nil t (List.cons_ne_nil c []))
  · rw [List.concat_eq_append] at h hold ⊢
    obtain ⟨hmore, hstretch⟩ := isTight_append.mp h
    rw [old_append, old_cons, old_nil, List.append_nil] at hold
    cases stretch with
    | kept d =>
      obtain ⟨hfirst, hd⟩ := List.append_inj' hold rfl
      obtain rfl := (List.cons.inj hd).1
      exact ⟨more, rfl, hmore, hfirst⟩
    | swapped old new =>
      obtain ⟨s, d, rfl, hd⟩ := (isTight_cons.mp hstretch).1.1.last
      rw [Stretch.old, ← List.append_assoc] at hold
      obtain rfl := (List.cons.inj (List.append_inj' hold rfl).2).1
      exact absurd hd hc

/-- The beginning of a draft is told by how much old text it takes, if no passage is empty. -/
theorem append_inj_of_length {a b c d : Draft} (h : a ++ b = c ++ d)
    (hlength : a.old.length = c.old.length) (hne : ∀ s ∈ a ++ b, s.old ≠ []) : a = c ∧ b = d := by
  have hnil {e : Draft} (he : ∀ s ∈ e, s.old ≠ []) (hlen : e.old.length = 0) : e = [] := by
    cases e with
    | nil => rfl
    | cons s e =>
      have hs := List.length_pos_iff.mpr (he s (List.mem_cons_self ..))
      rw [old_cons, List.length_append] at hlen
      omega
  rcases List.append_eq_append_iff.mp h with ⟨e, rfl, rfl⟩ | ⟨e, rfl, rfl⟩
  · rw [old_append, List.length_append] at hlength
    have he := hnil (e := e) (fun s hs => hne s (by simp [hs])) (by omega)
    rw [he]
    simp
  · rw [old_append, List.length_append] at hlength
    have he := hnil (e := e) (fun s hs => hne s (by simp [hs])) (by omega)
    rw [he]
    simp

theorem IsInert.old_ne_nil {draft : Draft} (h : draft.IsInert) : ∀ s ∈ draft, s.old ≠ [] := by
  intro s hs
  cases s with
  | kept c => exact List.cons_ne_nil c []
  | swapped old new => exact (h _ hs).1.ne_nil

end Draft

/-- A text is revised by inert drafts, one after the other. -/
def Text.Revised : Text → Text → Prop :=
  Relation.ReflTransGen fun s t => ∃ draft : Draft, draft.IsInert ∧ draft.old = s ∧ draft.new = t

end LocaleLift
