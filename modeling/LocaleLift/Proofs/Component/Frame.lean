import LocaleLift.Proofs.Component.Splice
import LocaleLift.Proofs.Extract
import Mathlib.Data.List.Pairwise
import Mathlib.Data.List.Perm.Basic

/-! The at most two blocks of a component that are localized, and the replacements for them. -/
namespace LocaleLift.Component

/-- The set-up script of a component, if it is localized, with its dialect. -/
def setup? (text : Text) : Option (Block × Dialect) := do
  let b ← (layout text).scriptSetup
  let d ← dialectOf? b.lang
  if Text.isBlank b.content then none else some (b, d)

/-- The style in which set-up scripts are localized. -/
def setupStyle (d : Dialect) (scope : Scope) : Script.Style :=
  Script.Style.ofDialect d scope "\x22" true true

/-- The template of a component, if it is localized. -/
def markup? (text : Text) : Option Block :=
  (layout text).template.filter isLocalizable

section Replacements

variable {scope : Scope} {text : Text}

/-- Either no set-up script is localized, and all that can come of it is a warning, or it is. -/
theorem localizeSetup_cases [Script.Parser] (scope : Scope) (text : Text) :
    (setup? text = none ∧ (localizeSetup scope (layout text)).texts = [] ∧
      (localizeSetup scope (layout text)).result = .ok []) ∨
    ∃ b d, setup? text = some (b, d) ∧ localizeSetup scope (layout text) = do
      return [.ofBlock b (← Script.localize d (setupStyle d scope) b.content)] := by
  rw [setup?, localizeSetup]
  cases (layout text).scriptSetup with
  | none => exact .inl ⟨rfl, rfl, rfl⟩
  | some b =>
    dsimp only [Option.bind_eq_bind, Option.bind_some]
    cases dialectOf? b.lang with
    | none =>
      left
      split <;> exact ⟨rfl, rfl, rfl⟩
    | some d =>
      dsimp only [Option.bind_some]
      split
      · exact .inl ⟨rfl, rfl, rfl⟩
      · exact .inr ⟨b, d, rfl, rfl⟩

/-- Either no template is localized, and all that can come of it is a warning, or it is. -/
theorem localizeTemplate_cases [Script.Parser] (scope : Scope) (text : Text) :
    (markup? text = none ∧ (localizeTemplate scope (layout text)).texts = [] ∧
      (localizeTemplate scope (layout text)).result = .ok []) ∨
    ∃ b, markup? text = some b ∧ localizeTemplate scope (layout text) = do
      return [.ofBlock b (← Markup.localize scope b.content)] := by
  rw [markup?, localizeTemplate]
  cases (layout text).template with
  | none => exact .inl ⟨rfl, rfl, rfl⟩
  | some b =>
    dsimp only
    rw [Option.filter_some]
    split
    · exact .inr ⟨b, rfl, rfl⟩
    · left
      split <;> exact ⟨rfl, rfl, rfl⟩

end Replacements

theorem setup?_eq_some {text : Text} {b : Block} {d : Dialect} : setup? text = some (b, d) ↔
    (layout text).scriptSetup = some b ∧ dialectOf? b.lang = some d ∧
      Text.isBlank b.content = false := by
  rw [setup?]
  constructor
  · intro h
    obtain ⟨b', hb, h⟩ := Option.bind_eq_some_iff.mp h
    obtain ⟨d', hd, h⟩ := Option.bind_eq_some_iff.mp h
    split at h
    · cases h
    · rename_i hblank
      cases h
      exact ⟨hb, hd, by simpa using hblank⟩
  · rintro ⟨hb, hd, hblank⟩
    rw [hb, Option.bind_eq_bind, Option.bind_some, hd, Option.bind_eq_bind, Option.bind_some,
      if_neg (by simp [hblank])]

theorem markup?_eq_some {text : Text} {b : Block} : markup? text = some b ↔
    (layout text).template = some b ∧ isMarkup b = true ∧ Text.isBlank b.content = false := by
  rw [markup?, Option.filter_eq_some_iff, isLocalizable, Bool.and_eq_true, Bool.not_eq_true',
    and_comm (a := Text.isBlank b.content = false)]

theorem mem_blocks_of_setup? {text : Text} {b : Block} {d : Dialect}
    (h : setup? text = some (b, d)) :
    (∃ offset, (offset, b) ∈ blocks text) ∧ b.kind = "script" ∧ b.content ≠ [] := by
  obtain ⟨hb, -, hblank⟩ := setup?_eq_some.mp h
  obtain ⟨⟨offset, b'⟩, hmem, hsecond⟩ := List.mem_map.mp (List.mem_of_find?_eq_some hb)
  obtain ⟨hmem, hkind⟩ := List.mem_filter.mp hmem
  cases hsecond
  refine ⟨⟨offset, hmem⟩, by simpa using hkind, fun hnil => ?_⟩
  rw [hnil] at hblank
  cases hblank

theorem mem_blocks_of_markup? {text : Text} {b : Block} (h : markup? text = some b) :
    (∃ offset, (offset, b) ∈ blocks text) ∧ b.kind = "template" ∧ b.content ≠ [] := by
  obtain ⟨hb, -, hblank⟩ := markup?_eq_some.mp h
  obtain ⟨⟨offset, b'⟩, hhead, hsecond⟩ := Option.map_eq_some_iff.mp hb
  obtain ⟨hmem, hkind⟩ := List.mem_filter.mp (List.mem_of_head? hhead)
  cases hsecond
  refine ⟨⟨offset, hmem⟩, by simpa using hkind, fun hnil => ?_⟩
  rw [hnil] at hblank
  cases hblank

/-- A block with content takes a range inside the component, and holds what stands there. -/
theorem range_of_mem_blocks {text : Text} {offset : Nat} {b : Block}
    (h : (offset, b) ∈ blocks text) (hne : b.content ≠ []) :
    b.start < b.stop ∧ b.stop ≤ text.length ∧ (text.take b.stop).drop b.start = b.content := by
  obtain ⟨before, after, htext, hstart, hstop⟩ := (blocks_spec text).1 _ h
  have hlength := congrArg List.length htext
  have hpos := List.length_pos_iff.mpr hne
  rw [List.length_append, List.length_append] at hlength
  dsimp only at hlength hstart hstop
  refine ⟨by omega, by omega, ?_⟩
  have hb : b.start = before.length := by omega
  have hc : b.stop = (before ++ b.content).length := by
    rw [List.length_append]
    omega
  rw [hc, hb, htext, List.take_left, List.drop_left]

/-- Blocks of different kinds stand apart. -/
theorem blocks_apart {text : Text} {m n : Nat} {a b : Block} (ha : (m, a) ∈ blocks text)
    (hb : (n, b) ∈ blocks text) (hne : a.kind ≠ b.kind) : a.stop ≤ b.start ∨ b.stop ≤ a.start := by
  have hpairwise := (blocks_spec text).2.imp (S := fun a b : Nat × Block =>
    a.2.stop ≤ b.2.start ∨ b.2.stop ≤ a.2.start) fun h => .inl h
  have : Std.Symm fun a b : Nat × Block =>
      a.2.stop ≤ b.2.start ∨ b.2.stop ≤ a.2.start := ⟨fun _ _ => Or.symm⟩
  exact hpairwise.forall ha hb fun h => hne (by cases h; rfl)

/-- The replacements for a set-up script and a template, if there are any, stand apart. -/
theorem apart_replacements {text : Text} {script template : List Replacement}
    (hscript : script = [] ∨ ∃ b d t, setup? text = some (b, d) ∧ script = [.ofBlock b t])
    (htemplate : template = [] ∨ ∃ b t, markup? text = some b ∧ template = [.ofBlock b t]) :
    Apart text.length (script ++ template) := by
  have hone {b : Block} {t : Text} (h : (∃ offset, (offset, b) ∈ blocks text))
      (hne : b.content ≠ []) : Apart text.length [.ofBlock b t] := by
    obtain ⟨offset, h⟩ := h
    obtain ⟨hlt, hle, -⟩ := range_of_mem_blocks h hne
    exact ⟨List.forall_mem_singleton.mpr ⟨hlt, hle⟩, List.pairwise_singleton ..⟩
  rcases hscript with rfl | ⟨a, d, t, ha, rfl⟩
  · rcases htemplate with rfl | ⟨b, u, hb, rfl⟩
    · exact ⟨List.forall_mem_nil _, .nil⟩
    · obtain ⟨hmem, -, hne⟩ := mem_blocks_of_markup? hb
      exact hone hmem hne
  · obtain ⟨hmem, hkind, hne⟩ := mem_blocks_of_setup? ha
    rcases htemplate with rfl | ⟨b, u, hb, rfl⟩
    · exact hone hmem hne
    · obtain ⟨hmem', hkind', hne'⟩ := mem_blocks_of_markup? hb
      obtain ⟨m, hm⟩ := hmem
      obtain ⟨n, hn⟩ := hmem'
      refine ⟨List.forall_mem_cons.mpr ⟨(hone ⟨m, hm⟩ hne).inside _ (List.mem_singleton.mpr rfl),
        (hone ⟨n, hn⟩ hne').inside⟩, List.pairwise_cons.mpr ⟨?_, List.pairwise_singleton ..⟩⟩
      refine List.forall_mem_singleton.mpr (blocks_apart hm hn ?_)
      rw [hkind, hkind']
      decide

/-- A block that is localized: the set-up script in its dialect, or the template. -/
inductive Target where
  | script (b : Block) (d : Dialect)
  | template (b : Block)
  deriving DecidableEq, Repr

namespace Target

def block : Target → Block
  | script b _ => b
  | template b => b

/-- Localize the content of the block, which is all that is looked at. -/
def localize [Script.Parser] (scope : Scope) : Target → Extract Text
  | script b d => Script.localize d (setupStyle d scope) b.content
  | template b => Markup.localize scope b.content

/-- The replacement of the content by what it is localized to. -/
def replace [Script.Parser] (scope : Scope) (t : Target) : Extract (List Replacement) := do
  return [.ofBlock t.block (← t.localize scope)]

end Target

/-- The blocks of a component that are localized: the first script marked as set-up, if it has
content in a language with a dialect, and the template, if it has content and is markup. -/
def targets (text : Text) : List Target :=
  ((setup? text).map fun (b, d) => Target.script b d).toList ++
    ((markup? text).map Target.template).toList

/-- Warnings of further templates find nothing. -/
theorem quiet_extraTemplates (offsets : List Nat) :
    Extract.Quiet () (offsets.forM fun offset => Extract.warn (.extraTemplate offset)) := by
  induction offsets with
  | nil => exact ⟨rfl, rfl⟩
  | cons offset offsets ih => exact Extract.quiet_bind.mpr ⟨(), ⟨rfl, rfl⟩, ih⟩

/-- A component comes to its text with the contents of its targets replaced, and the texts found in
it are those found in its targets. -/
theorem finds_localize [Script.Parser] {scope : Scope} {text out : Text} {ts : List Text} :
    Extract.Finds ts out (localize scope text) ↔
      ∃ rs, Extract.Finds ts rs (Extract.gather (Target.replace scope) (targets text)) ∧
        out = splice text rs := by
  rw [localize, (quiet_extraTemplates _).finds_bind, ← Extract.finds_map, targets,
    Extract.gather_append]
  rcases localizeSetup_cases scope text with ⟨hnone, hsetup⟩ | ⟨b, d, hb, hsetup⟩
  · rw [Extract.Quiet.finds_bind hsetup, hnone]
    rcases localizeTemplate_cases scope text with ⟨hnone', htemplate⟩ | ⟨b', hb', htemplate⟩
    · rw [Extract.Quiet.finds_bind htemplate, hnone']
      rfl
    · rw [htemplate, hb']
      simp [Extract.gather, Target.replace, Target.localize, Target.block]
  · rw [hsetup, hb]
    rcases localizeTemplate_cases scope text with ⟨hnone', htemplate⟩ | ⟨b', hb', htemplate⟩
    · rw [hnone', Extract.finds_bind]
      simp only [Extract.Quiet.finds_bind htemplate]
      rw [← Extract.finds_bind]
      simp [Extract.gather, Target.replace, Target.localize, Target.block]
    · rw [htemplate, hb']
      simp [Extract.gather, Target.replace, Target.localize, Target.block]

/-- A replacement puts what a block is localized to in the place of its content. -/
def Target.Becomes [Script.Parser] (scope : Scope) (t : Target) (r : Replacement) : Prop :=
  ∃ new, (t.localize scope).result = .ok new ∧ r = .ofBlock t.block new

theorem result_gather_replace [Script.Parser] {scope : Scope} {ts : List Target}
    {rs : List Replacement} :
    (Extract.gather (Target.replace scope) ts).result = .ok rs ↔
      List.Forall₂ (Target.Becomes scope) ts rs := by
  induction ts generalizing rs with
  | nil =>
    rw [List.forall₂_nil_left_iff]
    exact ⟨fun h => (Except.ok.inj h).symm, fun h => h ▸ rfl⟩
  | cons t ts ih =>
    rw [Extract.gather, List.forall₂_cons_left_iff, Extract.bind_eq_ok]
    constructor
    · rintro ⟨first, hfirst, hrest⟩
      obtain ⟨rest, hall, hrs⟩ := Extract.bind_eq_ok.mp hrest
      obtain ⟨new, hnew, hone⟩ := Extract.bind_eq_ok.mp hfirst
      cases hone
      cases hrs
      exact ⟨_, rest, ⟨new, hnew, rfl⟩, ih.mp hall, rfl⟩
    · rintro ⟨_, rest, ⟨new, hnew, rfl⟩, hall, rfl⟩
      exact ⟨_, Extract.bind_eq_ok.mpr ⟨new, hnew, rfl⟩,
        Extract.bind_eq_ok.mpr ⟨rest, ih.mpr hall, rfl⟩⟩

/-- The replacements for the blocks that are localized stand apart. -/
theorem apart_targets [Script.Parser] {scope : Scope} {text : Text} {rs : List Replacement}
    (h : List.Forall₂ (Target.Becomes scope) (targets text) rs) : Apart text.length rs := by
  have hmarkup {rest : List Replacement}
      (h : List.Forall₂ (Target.Becomes scope) ((markup? text).map Target.template).toList rest) :
      rest = [] ∨ ∃ b t, markup? text = some b ∧ rest = [.ofBlock b t] := by
    cases hb : markup? text with
    | none =>
      rw [hb] at h
      cases h
      exact .inl rfl
    | some b =>
      rw [hb] at h
      obtain ⟨_, _, ⟨new, -, rfl⟩, hnil, rfl⟩ := List.forall₂_cons_left_iff.mp h
      cases hnil
      exact .inr ⟨b, new, rfl, rfl⟩
  rw [targets] at h
  cases hb : setup? text with
  | none =>
    rw [hb] at h
    exact apart_replacements (.inl rfl) (hmarkup h)
  | some target =>
    rw [hb] at h
    obtain ⟨_, rest, ⟨new, -, rfl⟩, hrest, rfl⟩ := List.forall₂_cons_left_iff.mp h
    exact apart_replacements (.inr ⟨target.1, target.2, new, hb, rfl⟩) (hmarkup hrest)

theorem mem_blocks_of_targets {text : Text} {t : Target} (h : t ∈ targets text) :
    (∃ offset, (offset, t.block) ∈ blocks text) ∧ t.block.content ≠ [] := by
  rcases List.mem_append.mp h with h | h
  · obtain ⟨⟨b, d⟩, hb, rfl⟩ := Option.map_eq_some_iff.mp (Option.mem_toList.mp h)
    obtain ⟨hmem, -, hne⟩ := mem_blocks_of_setup? hb
    exact ⟨hmem, hne⟩
  · obtain ⟨b, hb, rfl⟩ := Option.map_eq_some_iff.mp (Option.mem_toList.mp h)
    obtain ⟨hmem, -, hne⟩ := mem_blocks_of_markup? hb
    exact ⟨hmem, hne⟩

/-- A swap puts what a block is localized to in the place of its content. -/
def Target.SwappedBy [Script.Parser] (scope : Scope) (t : Target) (s : Swap) : Prop :=
  s.before.length = t.block.start ∧ s.old = t.block.content ∧
    (t.localize scope).result = .ok s.new

private theorem swappedBy_iff_becomes [Script.Parser] {scope : Scope} {draft : Draft} {t : Target}
    {s : Swap}
    (ht : t ∈ targets draft.old) (hs : s ∈ draft.swaps) :
    t.SwappedBy scope s ↔ t.Becomes scope (.ofSwap s) := by
  obtain ⟨⟨offset, hmem⟩, hne⟩ := mem_blocks_of_targets ht
  constructor
  · rintro ⟨hstart, hold, hnew⟩
    obtain ⟨-, -, -, -, hstop⟩ := (blocks_spec draft.old).1 _ hmem
    refine ⟨s.new, hnew, ?_⟩
    rw [Replacement.ofSwap, Replacement.ofBlock, List.length_append, hold, hstart, hstop]
  · rintro ⟨new, hnew, hswap⟩
    obtain ⟨hstart, hstop, rfl⟩ := Replacement.mk.injEq .. ▸ hswap
    obtain ⟨-, -, hcontent⟩ := range_of_mem_blocks hmem hne
    obtain ⟨after, hold⟩ := Draft.old_of_mem_swaps hs
    refine ⟨hstart, ?_, hnew⟩
    rw [← hcontent, ← hstart, ← hstop, ← hold, List.take_left, List.drop_left]

private theorem forall₂_swappedBy_iff [Script.Parser] {scope : Scope} {draft : Draft}
    {ss : List Swap}
    (hperm : ss.Perm draft.swaps) :
    List.Forall₂ (Target.SwappedBy scope) (targets draft.old) ss ↔
      List.Forall₂ (Target.Becomes scope) (targets draft.old) (ss.map .ofSwap) := by
  rw [List.forall₂_map_right_iff, List.forall₂_iff_get, List.forall₂_iff_get]
  refine and_congr_right fun _ => forall₃_congr fun i ht hs => ?_
  exact swappedBy_iff_becomes (List.get_mem ..) (hperm.mem_iff.mp (List.get_mem ..))

theorem localize_eq_splice [Script.Parser] {scope : Scope} {text out : Text} :
    (localize scope text).result = .ok out ↔
      ∃ rs, List.Forall₂ (Target.Becomes scope) (targets text) rs ∧ out = splice text rs := by
  rw [← Extract.exists_finds]
  simp only [finds_localize]
  rw [exists_comm]
  simp only [exists_and_right, Extract.exists_finds, result_gather_replace]

/-- A component comes to a text exactly if each block that is localized does, and that text is the
component with their contents swapped for what they come to, and everything else kept. -/
theorem localize_eq_ok [Script.Parser] {scope : Scope} {text out : Text} :
    (localize scope text).result = .ok out ↔
      ∃ draft : Draft, draft.old = text ∧ draft.new = out ∧ ∃ ss, ss.Perm draft.swaps ∧
        List.Forall₂ (Target.SwappedBy scope) (targets text) ss := by
  have hne {draft : Draft} {rs : List Replacement} (hperm : rs.Perm (draft.swaps.map .ofSwap))
      (hrs : List.Forall₂ (Target.Becomes scope) (targets draft.old) rs) :
      ∀ s ∈ draft.swaps, s.old ≠ [] := by
    rintro s hs hnil
    have hlt := (apart_targets hrs).inside _ (hperm.mem_iff.mpr (List.mem_map_of_mem hs))
    rw [Replacement.ofSwap, hnil, List.append_nil] at hlt
    exact Nat.lt_irrefl _ hlt.1
  rw [localize_eq_splice]
  constructor
  · rintro ⟨rs, hrs, rfl⟩
    obtain ⟨draft, rfl, hperm⟩ := exists_draft (apart_targets hrs)
    have hmap : List.Forall₂ (fun r s => r = Replacement.ofSwap s)
        (draft.swaps.map .ofSwap) draft.swaps :=
      List.forall₂_map_left_iff.mpr (List.forall₂_same.mpr fun _ _ => rfl)
    obtain ⟨ss, hss, hswaps⟩ := List.perm_comp_forall₂ hperm hmap
    obtain rfl : rs = ss.map .ofSwap :=
      List.forall₂_eq_eq_eq ▸ List.forall₂_map_right_iff.mpr hss
    exact ⟨draft, rfl, (splice_swaps hperm (hne hperm hrs)).symm, ss, hswaps,
      (forall₂_swappedBy_iff hswaps).mpr hrs⟩
  · rintro ⟨draft, rfl, rfl, ss, hswaps, hss⟩
    have hrs := (forall₂_swappedBy_iff hswaps).mp hss
    have hperm := hswaps.map Replacement.ofSwap
    exact ⟨_, hrs, (splice_swaps hperm (hne hperm hrs)).symm⟩

end LocaleLift.Component
