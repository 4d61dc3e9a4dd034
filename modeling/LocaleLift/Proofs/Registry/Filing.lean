import LocaleLift.Registry
import LocaleLift.Proofs.Text.Order
import Mathlib.Data.List.Nodup
import Mathlib.Data.List.Perm.Subperm

/-! What filing does to a registry: the set of filed texts, the places of the old ones, and the
sorted tables, which depend on that set alone. -/
namespace LocaleLift

namespace Bucket

private theorem mem_file {ns text n t : Text} {es : List Bucket} :
    (∃ ts, (n, ts) ∈ file ns text es ∧ t ∈ ts) ↔
      (∃ ts, (n, ts) ∈ es ∧ t ∈ ts) ∨ (n = ns ∧ t = text) := by
  induction es with
  | nil => simp [file]
  | cons e es ih =>
    obtain ⟨m, us⟩ := e
    by_cases hm : m = ns
    · subst hm
      have hus : (t ∈ if us.contains text then us else us ++ [text]) ↔ t ∈ us ∨ t = text := by
        split
        · rename_i hin
          have hin : text ∈ us := by simpa using hin
          exact ⟨Or.inl, fun h => h.elim id (fun e => e ▸ hin)⟩
        · simp
      rw [file, if_pos rfl]
      simp only [List.mem_cons, Prod.mk.injEq, or_and_right, exists_or, and_assoc]
      by_cases hn : n = m
      · simp only [hn, true_and, exists_eq_left, hus]
        exact or_right_comm
      · simp [hn]
    · rw [file, if_neg hm]
      simp only [List.mem_cons, or_and_right, exists_or, ih, or_assoc]

private theorem getElem?_file {ns text : Text} {es : List Bucket} {i : Nat} {e : Bucket}
    (h : es[i]? = some e) : ∃ more, (file ns text es)[i]? = some (e.1, e.2 ++ more) := by
  induction es generalizing i with
  | nil => simp at h
  | cons b es ih =>
    obtain ⟨m, us⟩ := b
    by_cases hm : m = ns
    · rw [file, if_pos hm]
      cases i with
      | zero =>
        obtain rfl : (m, us) = e := by simpa using h
        by_cases hin : text ∈ us
        · exact ⟨[], by simp [hin]⟩
        · exact ⟨[text], by simp [hin]⟩
      | succ i => exact ⟨[], by simpa using h⟩
    · rw [file, if_neg hm]
      cases i with
      | zero =>
        obtain rfl : (m, us) = e := by simpa using h
        exact ⟨[], by simp⟩
      | succ i => simpa using ih (by simpa using h)

end Bucket

namespace Registry

theorem mem_toList {r : Registry} {ns t : Text} :
    (ns, t) ∈ r.toList ↔ ∃ ts, (ns, ts) ∈ r.entries ∧ t ∈ ts := by
  simp only [toList, List.mem_flatMap, List.mem_map, Prod.mk.injEq, Prod.exists]
  constructor
  · rintro ⟨n, ts, hb, u, hu, rfl, rfl⟩
    exact ⟨ts, hb, hu⟩
  · rintro ⟨ts, hb, ht⟩
    exact ⟨ns, ts, hb, t, ht, rfl, rfl⟩

@[simp] theorem mem_toList_empty {c : CommonTerms} {p : Text × Text} :
    p ∈ (empty c).toList ↔ False := by
  simp [empty, toList]

@[simp] theorem mem_toList_insert {r : Registry} {ns t : Text} {p : Text × Text} :
    p ∈ (r.insert ns t).toList ↔ p ∈ r.toList ∨ p = (ns, t) := by
  obtain ⟨n, u⟩ := p
  rw [mem_toList, mem_toList, insert, Bucket.mem_file, Prod.mk.injEq]

theorem mem_toList_foldl_insert {ps : List (Text × Text)} {r : Registry} {p : Text × Text} :
    p ∈ (ps.foldl (fun r (ns, t) => r.insert ns t) r).toList ↔ p ∈ r.toList ∨ p ∈ ps := by
  induction ps generalizing r with
  | nil => simp
  | cons q ps ih => simp only [List.foldl_cons, ih, mem_toList_insert, List.mem_cons, or_assoc]

/-- A merge is a union. -/
theorem mem_toList_merge {r s : Registry} {p : Text × Text} :
    p ∈ (r.merge s).toList ↔ p ∈ r.toList ∨ p ∈ s.toList :=
  mem_toList_foldl_insert

/-- Texts are filed under the namespaces they resolve to. -/
theorem mem_toList_recordAll {ns : Text} {ts : List Text} {r : Registry} {p : Text × Text} :
    p ∈ (r.recordAll ns ts).toList ↔
      p ∈ r.toList ∨ p.2 ∈ ts ∧ p.1 = r.common.resolve ns p.2 := by
  induction ts generalizing r with
  | nil => simp [recordAll]
  | cons t ts ih =>
    have hstep : r.recordAll ns (t :: ts) = (r.record ns t).recordAll ns ts := rfl
    have hcommon : (r.record ns t).common = r.common := rfl
    obtain ⟨n, u⟩ := p
    rw [hstep, ih, hcommon, record, mem_toList_insert, List.mem_cons, Prod.mk.injEq, or_assoc]
    refine or_congr_right ⟨?_, ?_⟩
    · rintro (⟨rfl, rfl⟩ | ⟨hu, hn⟩)
      · exact ⟨Or.inl rfl, rfl⟩
      · exact ⟨Or.inr hu, hn⟩
    · rintro ⟨rfl | hu, hn⟩
      · exact Or.inl ⟨hn, rfl⟩
      · exact Or.inr ⟨hu, hn⟩

theorem nodup_toList (r : Registry) : r.toList.Nodup := by
  refine List.nodup_flatMap.mpr ⟨fun e he => ?_, ?_⟩
  · exact (r.sound e he).2.map fun t u h => congrArg Prod.snd h
  · refine (List.pairwise_map.mp r.nodup).imp fun {a b} hab p ha hb => ?_
    obtain ⟨t, -, rfl⟩ := List.mem_map.mp ha
    obtain ⟨u, -, hu⟩ := List.mem_map.mp hb
    exact hab (congrArg Prod.fst hu).symm

theorem size_eq_length (r : Registry) : r.size = r.toList.length := by
  rw [size, toList]
  induction r.entries with
  | nil => rfl
  | cons e es ih => simp [ih]

/-- One registry keeps all of another in place: the same common terms, every bucket where it was,
and in it the old texts before the new ones. -/
structure Keeps (s r : Registry) : Prop where
  common : s.common = r.common
  entries : ∀ (i : Nat) (e : Bucket), r.entries[i]? = some e →
    ∃ more, s.entries[i]? = some (e.1, e.2 ++ more)

namespace Keeps

theorem refl (r : Registry) : r.Keeps r :=
  ⟨rfl, fun _ e h => ⟨[], by simpa using h⟩⟩

theorem trans {r s t : Registry} (hts : t.Keeps s) (hsr : s.Keeps r) : t.Keeps r := by
  refine ⟨hts.common.trans hsr.common, fun i e h => ?_⟩
  obtain ⟨more, hs⟩ := hsr.entries i e h
  obtain ⟨most, ht⟩ := hts.entries i _ hs
  exact ⟨more ++ most, by rw [ht, List.append_assoc]⟩

theorem insert (r : Registry) (ns t : Text) : (r.insert ns t).Keeps r :=
  ⟨rfl, fun _ _ h => Bucket.getElem?_file h⟩

theorem foldl_insert (ps : List (Text × Text)) (r : Registry) :
    (ps.foldl (fun r (ns, t) => r.insert ns t) r).Keeps r := by
  induction ps generalizing r with
  | nil => exact refl r
  | cons p ps ih => exact (ih (r.insert p.1 p.2)).trans (insert r p.1 p.2)

/-- A merge adds at the ends only. -/
theorem merge (r s : Registry) : (r.merge s).Keeps r :=
  foldl_insert s.toList r

/-- What keeps all of a registry is not smaller. -/
theorem size_le {r s : Registry} (h : s.Keeps r) : r.size ≤ s.size := by
  rw [size_eq_length, size_eq_length]
  refine (List.Nodup.subperm (nodup_toList r) fun (ns, t) hp => ?_).length_le
  obtain ⟨ts, hts, ht⟩ := mem_toList.mp hp
  obtain ⟨i, hi⟩ := List.mem_iff_getElem?.mp hts
  obtain ⟨more, hmore⟩ := h.entries i _ hi
  exact mem_toList.mpr ⟨ts ++ more, List.mem_of_getElem? hmore, List.mem_append_left _ ht⟩

end Keeps

theorem mem_bucket_unique {r : Registry} {ns : Text} {ts us : List Text}
    (ht : (ns, ts) ∈ r.entries) (hu : (ns, us) ∈ r.entries) : ts = us :=
  congrArg Prod.snd (List.inj_on_of_nodup_map r.nodup ht hu rfl)

private theorem bucket_perm {r s : Registry} (h : ∀ p, p ∈ r.toList ↔ p ∈ s.toList)
    {ns : Text} {ts : List Text} (ht : (ns, ts) ∈ r.entries) :
    ∃ us, (ns, us) ∈ s.entries ∧ ts.Perm us := by
  obtain ⟨hne, hnd⟩ := r.sound _ ht
  obtain ⟨t, hmem⟩ := List.exists_mem_of_ne_nil _ hne
  obtain ⟨us, hus, -⟩ := mem_toList.mp ((h (ns, t)).mp (mem_toList.mpr ⟨ts, ht, hmem⟩))
  refine ⟨us, hus, (List.perm_ext_iff_of_nodup hnd (s.sound _ hus).2).mpr fun u => ?_⟩
  constructor
  · intro hu
    obtain ⟨vs, hvs, hv⟩ := mem_toList.mp ((h (ns, u)).mp (mem_toList.mpr ⟨ts, ht, hu⟩))
    rwa [mem_bucket_unique hus hvs]
  · intro hu
    obtain ⟨vs, hvs, hv⟩ := mem_toList.mp ((h (ns, u)).mpr (mem_toList.mpr ⟨us, hus, hu⟩))
    rwa [mem_bucket_unique ht hvs]

private theorem mem_serialize {r : Registry} {e : Bucket} :
    e ∈ r.serialize ↔ ∃ ts, (e.1, ts) ∈ r.entries ∧ Text.sort ts = e.2 := by
  simp only [serialize, List.mem_map, List.mem_mergeSort]
  constructor
  · rintro ⟨⟨n, ts⟩, hb, rfl⟩
    exact ⟨ts, hb, rfl⟩
  · rintro ⟨ts, hb, hs⟩
    exact ⟨(e.1, ts), hb, Prod.ext rfl hs⟩

private theorem map_fst_serialize (r : Registry) :
    r.serialize.map (·.1) = (r.entries.mergeSort fun a b => Text.le a.1 b.1).map (·.1) := by
  simp [serialize]

theorem namespaces_perm (r : Registry) : r.namespaces.Perm (r.serialize.map (·.1)) := by
  rw [map_fst_serialize]
  exact (Text.sort_perm _).trans ((List.mergeSort_perm r.entries _).map _).symm

theorem nodup_serialize (r : Registry) : (r.serialize.map (·.1)).Nodup := by
  rw [map_fst_serialize]
  exact ((List.mergeSort_perm r.entries _).map _).nodup_iff.mpr r.nodup

/-- A namespace of a sorted table does not come again. -/
theorem not_mem_of_serialize {r : Registry} {before after : List Bucket} {d : Bucket}
    (h : r.serialize = before ++ d :: after) : d.1 ∉ before.map (·.1) := by
  have hnodup := r.nodup_serialize
  rw [h, List.map_append, List.nodup_append] at hnodup
  exact fun hmem => hnodup.2.2 d.1 hmem d.1 (by simp) rfl

/-- The namespaces of a sorted table come in increasing order. -/
theorem pairwise_serialize (r : Registry) :
    r.serialize.Pairwise fun a b => Text.le a.1 b.1 = true := by
  have hsorted : (r.entries.mergeSort fun a b => Text.le a.1 b.1).Pairwise
      fun a b => Text.le a.1 b.1 = true :=
    List.pairwise_mergeSort (fun a b c => Text.le_trans a.1 b.1 c.1)
      (fun a b => Text.le_total a.1 b.1) r.entries
  exact List.pairwise_map.mpr hsorted

/-- The sorted tables depend on the set of filed texts alone, not on the order of filing. -/
theorem serialize_congr {r s : Registry} (h : ∀ p, p ∈ r.toList ↔ p ∈ s.toList) :
    r.serialize = s.serialize := by
  have hmem (e : Bucket) : e ∈ r.serialize ↔ e ∈ s.serialize := by
    rw [mem_serialize, mem_serialize]
    constructor
    · rintro ⟨ts, ht, hs⟩
      obtain ⟨us, hu, hp⟩ := bucket_perm h ht
      exact ⟨us, hu, by rw [← Text.sort_eq_of_perm hp, hs]⟩
    · rintro ⟨us, hu, hs⟩
      obtain ⟨ts, ht, hp⟩ := bucket_perm (fun p => (h p).symm) hu
      exact ⟨ts, ht, by rw [← Text.sort_eq_of_perm hp, hs]⟩
  have hperm : r.serialize.Perm s.serialize :=
    (List.perm_ext_iff_of_nodup (nodup_serialize r).of_map (nodup_serialize s).of_map).mpr hmem
  refine hperm.eq_of_pairwise (fun a b ha hb hab hba => ?_) (pairwise_serialize r)
    (pairwise_serialize s)
  exact List.inj_on_of_nodup_map (nodup_serialize s) ((hmem a).mp ha) hb (Text.le_antisymm hab hba)

end Registry
end LocaleLift
