import LocaleLift.Text
import Mathlib.Data.List.Basic

/-! Texts with some passages in two versions, the old one and the one that takes its place. -/
namespace LocaleLift

/-- Two texts are the same up to a place at which they have different code points. -/
def Text.Diverges (s t : Text) : Prop :=
  ∃ first c d more rest, s = first ++ c :: more ∧ t = first ++ d :: rest ∧ c ≠ d

namespace Text.Diverges

variable {s t : Text}

theorem cons {c d : CodePoint} (h : c ≠ d) (s t : Text) : Diverges (c :: s) (d :: t) :=
  ⟨[], c, d, s, t, rfl, rfl, h⟩

theorem behind (h : s.Diverges t) (first : Text) : Diverges (first ++ s) (first ++ t) := by
  obtain ⟨u, c, d, more, rest, rfl, rfl, hne⟩ := h
  exact ⟨first ++ u, c, d, more, rest, (List.append_assoc ..).symm, (List.append_assoc ..).symm,
    hne⟩

end Text.Diverges

/-- A stretch of a text under revision: a code point that is kept, or a passage with the one that
takes its place. -/
inductive Stretch where
  | kept (c : CodePoint)
  | swapped (old new : Text)
  deriving DecidableEq, Repr

namespace Stretch

def old : Stretch → Text
  | kept c => [c]
  | swapped old _ => old

def new : Stretch → Text
  | kept c => [c]
  | swapped _ new => new

end Stretch

/-- A text under revision, stretch by stretch. -/
abbrev Draft := List Stretch

/-- A passage with the one that takes its place, and all that stood in front of it. -/
structure Swap where
  before : Text
  old : Text
  new : Text
  deriving DecidableEq, Repr

namespace Draft

def old (draft : Draft) : Text :=
  draft.flatMap Stretch.old

def new (draft : Draft) : Text :=
  draft.flatMap Stretch.new

def keep (t : Text) : Draft :=
  t.map .kept

/-- The passages that are swapped behind a given text, in order. -/
def swapsFrom (before : Text) : Draft → List Swap
  | [] => []
  | .kept c :: draft => swapsFrom (before ++ [c]) draft
  | .swapped old new :: draft => ⟨before, old, new⟩ :: swapsFrom (before ++ old) draft

def swaps (draft : Draft) : List Swap :=
  draft.swapsFrom []

variable (draft more : Draft)

@[simp] theorem old_nil : Draft.old [] = [] := rfl

@[simp] theorem new_nil : Draft.new [] = [] := rfl

@[simp] theorem old_cons (s : Stretch) : Draft.old (s :: draft) = s.old ++ draft.old := rfl

@[simp] theorem new_cons (s : Stretch) : Draft.new (s :: draft) = s.new ++ draft.new := rfl

@[simp] theorem old_append : Draft.old (draft ++ more) = draft.old ++ more.old :=
  List.flatMap_append

@[simp] theorem new_append : Draft.new (draft ++ more) = draft.new ++ more.new :=
  List.flatMap_append

theorem keep_nil : keep [] = [] := rfl

theorem keep_cons (c : CodePoint) (t : Text) : keep (c :: t) = .kept c :: keep t := rfl

theorem keep_append (s t : Text) : keep (s ++ t) = keep s ++ keep t :=
  List.map_append

@[simp] theorem old_keep (t : Text) : (keep t).old = t := by
  induction t with
  | nil => rfl
  | cons c t ih => exact congrArg (c :: ·) ih

@[simp] theorem new_keep (t : Text) : (keep t).new = t := by
  induction t with
  | nil => rfl
  | cons c t ih => exact congrArg (c :: ·) ih

@[simp] theorem swapsFrom_append (before : Text) :
    swapsFrom before (draft ++ more) =
      draft.swapsFrom before ++ more.swapsFrom (before ++ draft.old) := by
  induction draft generalizing before with
  | nil => simp [swapsFrom]
  | cons s draft ih => cases s <;> simp [swapsFrom, ih, Stretch.old]

@[simp] theorem swapsFrom_keep (before t : Text) : (keep t).swapsFrom before = [] := by
  induction t generalizing before with
  | nil => rfl
  | cons c t ih => exact ih (before ++ [c])

@[simp] theorem swaps_keep (t : Text) : (keep t).swaps = [] :=
  swapsFrom_keep [] t

/-- Which passages are swapped does not depend on what stands in front of them. -/
theorem map_old_swapsFrom (before : Text) :
    (draft.swapsFrom before).map Swap.old = draft.swaps.map Swap.old := by
  rw [swaps]
  induction draft generalizing before with
  | nil => rfl
  | cons s draft ih =>
    cases s with
    | kept c => exact (ih (before ++ [c])).trans (ih [c]).symm
    | swapped old new => exact congrArg (old :: ·) ((ih (before ++ old)).trans (ih old).symm)

theorem map_old_swaps_append :
    (draft ++ more).swaps.map Swap.old = draft.swaps.map Swap.old ++ more.swaps.map Swap.old := by
  rw [swaps, swapsFrom_append, List.map_append, map_old_swapsFrom, map_old_swapsFrom]

private theorem prefix_of_mem_swapsFrom {draft : Draft} {before : Text} {s : Swap}
    (h : s ∈ draft.swapsFrom before) : before <+: s.before := by
  induction draft generalizing before with
  | nil => cases h
  | cons stretch draft ih =>
    cases stretch with
    | kept c => exact (List.prefix_append before [c]).trans (ih h)
    | swapped old new =>
      rcases List.mem_cons.mp h with rfl | h
      · exact List.prefix_refl before
      · exact (List.prefix_append before old).trans (ih h)

private theorem old_of_mem_swapsFrom {draft : Draft} {before : Text} {s : Swap}
    (h : s ∈ draft.swapsFrom before) : s.before ++ s.old <+: before ++ draft.old := by
  induction draft generalizing before with
  | nil => cases h
  | cons stretch draft ih =>
    rw [old_cons, ← List.append_assoc]
    cases stretch with
    | kept c => exact ih h
    | swapped old new =>
      rcases List.mem_cons.mp h with rfl | h
      · exact List.prefix_append ..
      · exact ih h

/-- A passage stands in the old text where the draft says. -/
theorem old_of_mem_swaps {draft : Draft} {s : Swap} (h : s ∈ draft.swaps) :
    s.before ++ s.old <+: draft.old :=
  old_of_mem_swapsFrom h

/-- Passages lie in order, each in front of the ones that come later. -/
theorem pairwise_swapsFrom (before : Text) :
    (draft.swapsFrom before).Pairwise fun s t => s.before ++ s.old <+: t.before := by
  induction draft generalizing before with
  | nil => exact .nil
  | cons stretch draft ih =>
    cases stretch with
    | kept c => exact ih (before ++ [c])
    | swapped old new =>
      exact List.pairwise_cons.mpr ⟨fun t ht => prefix_of_mem_swapsFrom ht, ih (before ++ old)⟩

private theorem exists_behind_from {draft : Draft} {before first rest : Text}
    (hold : draft.old = first ++ rest)
    (h : ∀ s ∈ draft.swapsFrom before, before ++ first <+: s.before) :
    ∃ more : Draft, draft = keep first ++ more ∧ more.old = rest := by
  induction first generalizing before draft with
  | nil => exact ⟨draft, rfl, hold⟩
  | cons c first ih =>
    cases draft with
    | nil => cases hold
    | cons stretch draft =>
      cases stretch with
      | kept d =>
        obtain ⟨rfl, hafter⟩ := List.cons.inj hold
        rw [List.append_cons] at h
        obtain ⟨more, rfl, hmore⟩ := ih hafter h
        exact ⟨more, rfl, hmore⟩
      | swapped old new =>
        have hlength := (h ⟨before, old, new⟩ (List.mem_cons_self ..)).length_le
        rw [List.length_append, List.length_cons] at hlength
        dsimp only at hlength
        omega

/-- A first part is kept if every passage that is swapped stands behind it. -/
theorem exists_behind {draft : Draft} {first rest : Text} (hold : draft.old = first ++ rest)
    (h : ∀ s ∈ draft.swaps, first <+: s.before) :
    ∃ more : Draft, draft = keep first ++ more ∧ more.old = rest :=
  exists_behind_from hold h

private theorem new_ne_old_from {draft : Draft} {before : Text} (h : draft.swapsFrom before ≠ [])
    (hdiverge : ∀ s ∈ draft.swapsFrom before, s.old.Diverges s.new) : draft.new ≠ draft.old := by
  induction draft generalizing before with
  | nil => exact absurd rfl h
  | cons stretch draft ih =>
    cases stretch with
    | kept c => exact fun heq => ih h hdiverge (List.cons.inj heq).2
    | swapped old new =>
      obtain ⟨s, c, d, t, u, hold, hnew, hne⟩ := hdiverge ⟨before, old, new⟩ (List.mem_cons_self ..)
      dsimp only at hold hnew
      rw [new_cons, old_cons, Stretch.new, Stretch.old, hold, hnew, List.append_assoc,
        List.append_assoc]
      exact fun heq => hne (List.cons.inj (List.append_cancel_left heq)).1.symm

/-- A text is changed if something in it is swapped, and never for what it was. -/
theorem new_ne_old {draft : Draft} (h : draft.swaps ≠ [])
    (hdiverge : ∀ s ∈ draft.swaps, s.old.Diverges s.new) : draft.new ≠ draft.old :=
  new_ne_old_from h hdiverge

end Draft
end LocaleLift
