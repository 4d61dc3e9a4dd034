import LocaleLift.Dictionary
import LocaleLift.Proofs.Registry.Filing
import Mathlib.Data.Finset.Card
import Mathlib.Data.List.Forall2
import Mathlib.Data.List.Sort

/-! Registries that are filled, forked and merged in any order, against plain sets of pairs. -/
namespace LocaleLift

/-- One act on a row of things that texts are filed in; each is named by its place. -/
inductive FilingAct where
  | record (i : Nat) (ns text : Text)
  | fork (i : Nat)
  | merge (i j : Nat)
  deriving DecidableEq, Repr

/-- A kind of thing that texts are filed in. -/
structure FilingKind (α : Type) where
  record : α → Text → Text → α
  fork : α → α
  merge : α → α → α

namespace FilingKind

variable {α β : Type}

/-- Carry out one act. A fork comes last in the row; an act on what is not there does nothing. -/
def step (k : FilingKind α) (row : List α) : FilingAct → List α
  | .record i ns text => row.modify i (k.record · ns text)
  | .fork i => row ++ (row[i]?.map k.fork).toList
  | .merge i j =>
    match row[j]? with
    | some other => row.modify i (k.merge · other)
    | none => row

def run (k : FilingKind α) (row : List α) (acts : List FilingAct) : List α :=
  acts.foldl k.step row

def registries : FilingKind Registry :=
  ⟨fun r ns text => (r.enter ns text).1, Registry.fork, Registry.merge⟩

/-- Sets of pairs with the same shared terms: what is filed is added, a fork is empty, a merge is a
union. -/
def sets (terms : List Text) (common : Text) : FilingKind (Finset (Text × Text)) where
  record s ns text :=
    insert (if Text.trim text ∈ terms.map Text.trim then common else ns, text) s
  fork _ := ∅
  merge s t := s ∪ t

private theorem forall₂_modify {R : α → β → Prop} {f : α → α} {g : β → β}
    (hfg : ∀ a b, R a b → R (f a) (g b)) {row : List α} {row' : List β}
    (h : List.Forall₂ R row row') (i : Nat) :
    List.Forall₂ R (row.modify i f) (row'.modify i g) := by
  induction h generalizing i with
  | nil => simp
  | @cons a b row row' hab htl ih =>
    cases i with
    | zero => simpa using ⟨hfg a b hab, htl⟩
    | succ i => simpa using ⟨hab, ih i⟩

private theorem forall₂_getElem? {R : α → β → Prop} {row : List α} {row' : List β}
    (h : List.Forall₂ R row row') (i : Nat) : Option.Rel R row[i]? row'[i]? := by
  induction h generalizing i with
  | nil => exact .none
  | cons hab _ ih =>
    cases i with
    | zero => exact .some hab
    | succ i => simpa using ih i

/-- Two kinds of things are in step if a relation between them survives each single act. -/
theorem forall₂_run {R : α → β → Prop} {k : FilingKind α} {l : FilingKind β}
    (hrecord : ∀ a b ns text, R a b → R (k.record a ns text) (l.record b ns text))
    (hfork : ∀ a b, R a b → R (k.fork a) (l.fork b))
    (hmerge : ∀ a b a' b', R a b → R a' b' → R (k.merge a a') (l.merge b b'))
    (acts : List FilingAct) {row : List α} {row' : List β} (h : List.Forall₂ R row row') :
    List.Forall₂ R (k.run row acts) (l.run row' acts) := by
  induction acts generalizing row row' with
  | nil => exact h
  | cons act acts ih =>
    refine ih ?_
    cases act with
    | record i ns text => exact forall₂_modify (fun a b => hrecord a b ns text) h i
    | fork i =>
      have hi := forall₂_getElem? h i
      simp only [step]
      generalize row[i]? = x at hi ⊢
      generalize row'[i]? = y at hi ⊢
      refine List.rel_append h ?_
      cases hi with
      | none => exact .nil
      | some hab => exact .cons (hfork _ _ hab) .nil
    | merge i j =>
      have hj := forall₂_getElem? h j
      simp only [step]
      generalize row[j]? = x at hj ⊢
      generalize row'[j]? = y at hj ⊢
      cases hj with
      | none => exact h
      | some hab => exact forall₂_modify (fun _ _ h' => hmerge _ _ _ _ h' hab) h i

/-- No act takes a place away, and what stands there is kept, as far as each single act keeps it. -/
theorem getElem?_run {K : α → α → Prop} {k : FilingKind α}
    (hrefl : ∀ a, K a a) (htrans : ∀ {a b c}, K c b → K b a → K c a)
    (hrecord : ∀ a ns text, K (k.record a ns text) a) (hmerge : ∀ a b, K (k.merge a b) a)
    (acts : List FilingAct) {row : List α} {i : Nat} {a : α} (h : row[i]? = some a) :
    ∃ b, (k.run row acts)[i]? = some b ∧ K b a := by
  induction acts generalizing row a with
  | nil => exact ⟨a, h, hrefl a⟩
  | cons act acts ih =>
    have hmodify (f : α → α) (hf : ∀ x, K (f x) x) (m : Nat) :
        ∃ b, (row.modify m f)[i]? = some b ∧ K b a := by
      rw [List.getElem?_modify, h]
      by_cases him : m = i
      · exact ⟨f a, by simp [him], hf a⟩
      · exact ⟨a, by simp [him], hrefl a⟩
    have hstep : ∃ b, (k.step row act)[i]? = some b ∧ K b a := by
      cases act with
      | record m ns text => exact hmodify _ (fun x => hrecord x ns text) m
      | fork m =>
        refine ⟨a, ?_, hrefl a⟩
        rw [step, List.getElem?_append_left (List.getElem?_eq_some_iff.mp h).1, h]
      | merge m j =>
        simp only [step]
        split
        · exact hmodify _ (fun x => hmerge x _) m
        · exact ⟨a, h, hrefl a⟩
    obtain ⟨b, hb, hba⟩ := hstep
    obtain ⟨c, hc, hcb⟩ := ih hb
    exact ⟨c, hc, htrans hcb hba⟩

end FilingKind

namespace Registry

/-- The tables that a set of pairs is written as: no namespace without texts, namespaces and texts
in increasing order, each once. -/
structure IsRendering (s : Finset (Text × Text)) (out : List Bucket) : Prop where
  namespaces : out.Pairwise fun a b => Text.lt a.1 b.1 = true
  texts : ∀ e ∈ out, e.2 ≠ [] ∧ e.2.Pairwise fun t u => Text.lt t u = true
  mem_iff : ∀ ns t, (∃ ts, (ns, ts) ∈ out ∧ t ∈ ts) ↔ (ns, t) ∈ s

/-- Everything that can be read from a registry, when all that it holds is a set of pairs. -/
structure IsSet (r : Registry) (s : Finset (Text × Text)) : Prop where
  mem_iff : ∀ p, p ∈ r.toList ↔ p ∈ s
  once : r.toList.Nodup
  size : r.size = s.card
  lookup : ∀ ns t,
    Assoc.get? (Dictionary.table (r.texts ns)) t = if (ns, t) ∈ s then some t else none
  contains : ∀ ns t, r.contains ns t = true ↔ (ns, t) ∈ s
  filled : ∀ e ∈ r.entries, e.2 ≠ []
  rendering : ∀ out, IsRendering s out ↔ out = r.serialize

private theorem mem_texts {r : Registry} {ns t : Text} : t ∈ r.texts ns ↔ (ns, t) ∈ r.toList := by
  rw [mem_toList, texts]
  cases h : r.entries.lookup ns with
  | none =>
    have habsent : ∀ e ∈ r.entries, (ns == e.1) = false := by
      simpa using List.lookup_eq_none_iff.mp h
    refine ⟨fun ht => by simp at ht, ?_⟩
    rintro ⟨ts, hts, -⟩
    simpa using habsent _ hts
  | some us =>
    obtain ⟨before, after, hsplit, -⟩ := List.lookup_eq_some_iff.mp h
    have hus : (ns, us) ∈ r.entries := by rw [hsplit]; simp
    refine ⟨fun ht => ⟨us, hus, ht⟩, ?_⟩
    rintro ⟨ts, hts, ht⟩
    rwa [mem_bucket_unique hts hus] at ht

private theorem get?_table (ts : List Text) (t : Text) :
    Assoc.get? (Dictionary.table ts) t = if t ∈ ts then some t else none := by
  induction ts with
  | nil => rfl
  | cons u ts ih =>
    have ih : Assoc.get? (ts.map fun t => (t, t)) t = if t ∈ ts then some t else none := ih
    by_cases h : u = t
    · simp [Dictionary.table, Assoc.get?, h]
    · have h' : ¬ t = u := fun e => h e.symm
      simp [Dictionary.table, Assoc.get?, h, h', ih]

private theorem pairwise_lt_of_le {α : Type} {f : α → Text} {l : List α}
    (hle : l.Pairwise fun a b => Text.le (f a) (f b) = true) (hnd : (l.map f).Nodup) :
    l.Pairwise fun a b => Text.lt (f a) (f b) = true := by
  refine (hle.and (List.pairwise_map.mp hnd)).imp fun {a b} ⟨hab, hne⟩ => ?_
  by_contra hlt
  exact hne (Text.le_antisymm hab (by simpa [Text.le] using hlt))

/-- What a registry is written as is a rendering of all that it holds. -/
theorem isRendering_serialize {r : Registry} {s : Finset (Text × Text)}
    (h : ∀ p, p ∈ r.toList ↔ p ∈ s) : IsRendering s r.serialize where
  namespaces := by
    refine pairwise_lt_of_le r.pairwise_serialize ?_
    have hperm : (r.serialize.map (·.1)).Perm (r.entries.map (·.1)) := by
      rw [serialize, List.map_map]
      exact (List.mergeSort_perm r.entries _).map (·.1)
    exact hperm.nodup_iff.mpr r.nodup
  texts e he := by
    simp only [serialize, List.mem_map, List.mem_mergeSort] at he
    obtain ⟨⟨ns, ts⟩, hts, rfl⟩ := he
    obtain ⟨hne, hnd⟩ := r.sound _ hts
    have hperm := Text.sort_perm ts
    refine ⟨fun hnil => hne ?_, ?_⟩
    · exact List.nil_perm.mp (hnil ▸ hperm)
    · have hnd' : ((Text.sort ts).map id).Nodup := by
        rw [List.map_id]
        exact hperm.nodup_iff.mpr hnd
      exact pairwise_lt_of_le (Text.pairwise_sort ts) hnd'
  mem_iff ns t := by
    rw [← h, mem_toList]
    simp only [serialize, List.mem_map, List.mem_mergeSort, Prod.mk.injEq, Prod.exists]
    constructor
    · rintro ⟨us, ⟨n, ts, hts, rfl, rfl⟩, ht⟩
      exact ⟨ts, hts, (Text.sort_perm ts).mem_iff.mp ht⟩
    · rintro ⟨ts, hts, ht⟩
      exact ⟨_, ⟨ns, ts, hts, rfl, rfl⟩, (Text.sort_perm ts).mem_iff.mpr ht⟩

namespace IsRendering

variable {s : Finset (Text × Text)} {out out' : List Bucket}

private theorem ts_unique (h : IsRendering s out) {ns : Text} {ts us : List Text}
    (ht : (ns, ts) ∈ out) (hu : (ns, us) ∈ out) : ts = us := by
  have hnd : (out.map (·.1)).Nodup := by
    refine List.pairwise_map.mpr (h.namespaces.imp fun {a b} hab he => ?_)
    rw [he] at hab
    exact Text.lt_irrefl _ hab
  exact congrArg Prod.snd (List.inj_on_of_nodup_map hnd ht hu rfl)

private theorem subset (h : IsRendering s out) (h' : IsRendering s out') : out ⊆ out' := by
  intro e he
  obtain ⟨ns, ts⟩ := e
  obtain ⟨hne, hsorted⟩ := h.texts _ he
  obtain ⟨t, ht⟩ := List.exists_mem_of_ne_nil _ hne
  obtain ⟨us, hus, -⟩ := (h'.mem_iff ns t).mpr ((h.mem_iff ns t).mp ⟨ts, he, ht⟩)
  have hmem (u : Text) : u ∈ ts ↔ u ∈ us := by
    constructor
    · intro hu
      obtain ⟨vs, hvs, hv⟩ := (h'.mem_iff ns u).mpr ((h.mem_iff ns u).mp ⟨ts, he, hu⟩)
      rwa [h'.ts_unique hus hvs]
    · intro hu
      obtain ⟨vs, hvs, hv⟩ := (h.mem_iff ns u).mpr ((h'.mem_iff ns u).mp ⟨us, hus, hu⟩)
      rwa [h.ts_unique he hvs]
  have : Std.Irrefl fun t u => Text.lt t u = true := ⟨Text.lt_irrefl⟩
  have : Std.Antisymm fun t u => Text.lt t u = true :=
    ⟨fun t u htu hut => absurd hut (Text.lt_asymm htu)⟩
  obtain rfl : ts = us := hsorted.eq_of_mem_iff (h'.texts _ hus).2 hmem
  exact hus

/-- A set has one rendering only. -/
theorem unique (h : IsRendering s out) (h' : IsRendering s out') : out = out' := by
  have : Std.Irrefl fun a b : Bucket => Text.lt a.1 b.1 = true := ⟨fun a => Text.lt_irrefl a.1⟩
  have : Std.Antisymm fun a b : Bucket => Text.lt a.1 b.1 = true :=
    ⟨fun a b hab hba => absurd hba (Text.lt_asymm hab)⟩
  exact h.namespaces.eq_of_mem_iff h'.namespaces fun e => ⟨(h.subset h' ·), (h'.subset h ·)⟩

end IsRendering

/-- A registry is read like the set of all that it holds. -/
theorem isSet_of_mem_iff {r : Registry} {s : Finset (Text × Text)}
    (h : ∀ p, p ∈ r.toList ↔ p ∈ s) : r.IsSet s where
  mem_iff := h
  once := nodup_toList r
  size := by
    have hs : r.toList.toFinset = s := by
      ext p
      rw [List.mem_toFinset, h]
    rw [size_eq_length, ← List.toFinset_card_of_nodup (nodup_toList r), hs]
  lookup ns t := by
    rw [get?_table]
    exact if_congr (mem_texts.trans (h (ns, t))) rfl rfl
  contains ns t := by
    rw [Registry.contains, List.contains_iff_mem, mem_texts, h]
  filled e he := (r.sound e he).1
  rendering out := by
    refine ⟨fun hout => hout.unique (isRendering_serialize h), ?_⟩
    rintro rfl
    exact isRendering_serialize h

/-- Merging is a union as far as the tables that are written show. -/
theorem serialize_merge_comm (r s : Registry) : (r.merge s).serialize = (s.merge r).serialize :=
  serialize_congr fun p => by rw [mem_toList_merge, mem_toList_merge, or_comm]

theorem serialize_merge_assoc (r s u : Registry) :
    ((r.merge s).merge u).serialize = (r.merge (s.merge u)).serialize :=
  serialize_congr fun p => by simp only [mem_toList_merge, or_assoc]

theorem serialize_merge_self (r : Registry) : (r.merge r).serialize = r.serialize :=
  serialize_congr fun p => by rw [mem_toList_merge, or_self]

/-- A registry in step with a set: what it holds is the set, and a shared term only under the
namespace of the shared terms. -/
private structure Mirrors (c : CommonTerms) (r : Registry) (s : Finset (Text × Text)) : Prop where
  common : r.common = c
  mem_iff : ∀ p, p ∈ r.toList ↔ p ∈ s
  resolved : ∀ p ∈ r.toList, c.isCommon p.2 = true → p.1 = c.ns

private theorem isCommon_ofList {terms : List Text} {common t : Text} :
    (CommonTerms.ofList terms common).isCommon t = true ↔ Text.trim t ∈ terms.map Text.trim := by
  rw [CommonTerms.isCommon, CommonTerms.ofList, List.contains_iff_mem, List.mem_eraseDups]

private theorem resolve_ofList (terms : List Text) (common ns t : Text) :
    (CommonTerms.ofList terms common).resolve ns t =
      if Text.trim t ∈ terms.map Text.trim then common else ns := by
  rw [CommonTerms.resolve]
  exact if_congr isCommon_ofList rfl rfl

variable (terms : List Text) (common : Text)

private theorem mirrors_run (acts : List FilingAct) :
    List.Forall₂ (Mirrors (.ofList terms common))
      (FilingKind.registries.run [.empty (.ofList terms common)] acts)
      ((FilingKind.sets terms common).run [∅] acts) := by
  refine FilingKind.forall₂_run ?record ?fork ?merge acts (.cons ⟨rfl, by simp, by simp⟩ .nil)
  case record =>
    intro r s ns t h
    have hns := resolve_ofList terms common ns t
    refine ⟨h.common, fun p => ?_, fun p hp hc => ?_⟩
    · simp only [FilingKind.registries, FilingKind.sets, enter, h.common, hns, mem_toList_insert,
        h.mem_iff, Finset.mem_insert]
      exact or_comm
    · simp only [FilingKind.registries, enter, mem_toList_insert, h.common] at hp
      obtain hp | rfl := hp
      · exact h.resolved p hp hc
      · rw [CommonTerms.resolve, if_pos hc]
  case fork =>
    intro r s h
    simp only [FilingKind.registries, FilingKind.sets, fork_eq]
    exact ⟨h.common, by simp, by simp⟩
  case merge =>
    intro r s r' s' h h'
    simp only [FilingKind.registries, FilingKind.sets]
    refine ⟨(Keeps.merge r r').common.trans h.common, fun p => ?_, fun p hp hc => ?_⟩
    · rw [mem_toList_merge, h.mem_iff, h'.mem_iff, Finset.mem_union]
    · exact (mem_toList_merge.mp hp).elim (h.resolved p · hc) (h'.resolved p · hc)

private theorem mirrors_of_mem {c : CommonTerms} {row : List Registry}
    {sets : List (Finset (Text × Text))} (h : List.Forall₂ (Mirrors c) row sets) {r : Registry}
    (hr : r ∈ row) : ∃ s, Mirrors c r s := by
  induction h with
  | nil => cases hr
  | cons hab _ ih =>
    obtain rfl | hr := List.mem_cons.mp hr
    · exact ⟨_, hab⟩
    · exact ih hr

/-- After any acts on registries that all come from one, each is read like the set of pairs that the
same acts make. Shared terms stay in their namespace, keys do not depend on what is filed, merging
is a union as far as the tables that are written show, and later acts neither take nor move what is
filed. -/
theorem run_isSet (acts : List FilingAct) :
    let row := FilingKind.registries.run [.empty (.ofList terms common)] acts
    let sets := (FilingKind.sets terms common).run [∅] acts
    List.Forall₂ IsSet row sets ∧
    (∀ r ∈ row, ∀ ns t,
      (Text.trim t ∈ terms.map Text.trim → (ns, t) ∈ r.toList → ns = common) ∧
      (r.enter ns t).2 = r.common.keyFor ns t ∧
      (r.enter ns t).2 = (r.enter ns t).1.common.keyFor ns t ∧
      (r.enter ns t).2 =
        (if Text.trim t ∈ terms.map Text.trim then common else ns) ++ "." ++ t) ∧
    (∀ r ∈ row, ∀ s ∈ row, ∀ u ∈ row,
      (r.merge s).serialize = (s.merge r).serialize ∧
      ((r.merge s).merge u).serialize = (r.merge (s.merge u)).serialize ∧
      (r.merge r).serialize = r.serialize) ∧
    ∀ (i : Nat) (r : Registry), row[i]? = some r → ∀ later,
      ∃ s : Registry, (FilingKind.registries.run row later)[i]? = some s ∧ s.Keeps r := by
  have hrun := mirrors_run terms common acts
  refine ⟨hrun.imp fun r s h => isSet_of_mem_iff h.mem_iff, fun r hr ns t => ?_,
    fun r _ s _ u _ => ?_, fun i r hi later => ?_⟩
  · obtain ⟨s, hs⟩ := mirrors_of_mem hrun hr
    have hkey : (r.enter ns t).2 = r.common.keyFor ns t := rfl
    refine ⟨fun ht hmem => ?_, hkey, hkey, ?_⟩
    · exact hs.resolved _ hmem (isCommon_ofList.mpr ht)
    · rw [hkey, CommonTerms.keyFor, hs.common, resolve_ofList]
  · exact ⟨serialize_merge_comm r s, serialize_merge_assoc r s u, serialize_merge_self r⟩
  · exact FilingKind.getElem?_run Keeps.refl Keeps.trans (fun r ns t => Keeps.insert r _ t)
      Keeps.merge later hi

example :
    (FilingKind.registries.run [.empty (.ofList ["好 "] "common")]
      [.record 0 "a" "乙", .fork 0, .record 1 "a" " 好", .merge 0 1, .merge 1 1]).map toList =
      ([[("a", "乙"), ("common", " 好")], [("common", " 好")]] : List (List (Text × Text))) := by
  cbv

end Registry
end LocaleLift
