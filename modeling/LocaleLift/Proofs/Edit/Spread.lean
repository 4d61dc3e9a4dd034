import LocaleLift.Script.Localize
import LocaleLift.Proofs.Ranges
import LocaleLift.Proofs.Text.Boundary
import LocaleLift.Proofs.Text.Draft

/-! Edits apart from each other at the boundaries of a text can be carried out, and what comes of
them is a text again. -/
namespace LocaleLift

open Utf8 (Boundary)

namespace Edit

/-- Edits between two offsets and apart from each other, each of a range that is not empty and
lies between two places of a given kind. -/
structure Spread (place : Nat → Prop) (a b : Nat) (es : List Edit) : Prop where
  inside : ∀ e ∈ es, ∃ x y : Nat, e.start = x ∧ e.stop = y ∧ place x ∧ place y ∧
    a ≤ x ∧ x < y ∧ y ≤ b
  apart : es.Pairwise fun e f => e.stop ≤ f.start ∨ f.stop ≤ e.start

namespace Spread

variable {place : Nat → Prop} {a b c : Nat} {es fs : List Edit}

theorem nil : Spread place a b [] :=
  ⟨by simp, .nil⟩

theorem single {x y : Nat} {text : Text} (hx : place x) (hy : place y) (ha : a ≤ x) (h : x < y)
    (hb : y ≤ b) : Spread place a b [.ofRange x y text] := by
  refine ⟨fun e he => ?_, List.pairwise_singleton _ _⟩
  rw [List.mem_singleton.mp he]
  exact ⟨x, y, rfl, rfl, hx, hy, ha, h, hb⟩

theorem mono {a' b' : Nat} (h : Spread place a b es) (ha : a' ≤ a) (hb : b ≤ b') :
    Spread place a' b' es := by
  refine ⟨fun e he => ?_, h.apart⟩
  obtain ⟨x, y, hx, hy, px, py, hax, hxy, hyb⟩ := h.inside e he
  exact ⟨x, y, hx, hy, px, py, by omega, hxy, by omega⟩

theorem append (he : Spread place a b es) (hf : Spread place b c fs) (hab : a ≤ b) (hbc : b ≤ c) :
    Spread place a c (es ++ fs) := by
  refine ⟨fun e h => ?_, List.pairwise_append.mpr ⟨he.apart, hf.apart, fun e h f h' => ?_⟩⟩
  · rcases List.mem_append.mp h with h | h
    · exact (he.mono (Nat.le_refl a) hbc).inside e h
    · exact (hf.mono hab (Nat.le_refl c)).inside e h
  · obtain ⟨x, y, hx, hy, -, -, hax, hxy, hyb⟩ := he.inside e h
    obtain ⟨u, v, hu, hv, -, -, hau, huv, hvb⟩ := hf.inside f h'
    exact .inl (by omega)

theorem perm (h : Spread place a b es) (hp : es.Perm fs) : Spread place a b fs :=
  ⟨fun e he => h.inside e (hp.mem_iff.mpr he), h.apart.perm hp Or.symm⟩

/-- From the last to the first, each edit lies before the one that was carried out before it. -/
theorem pairwise_mergeSort (h : Spread place a b es) :
    (es.mergeSort fun e f => f.start ≤ e.start).Pairwise fun e f => f.stop ≤ e.start := by
  refine pairwise_mergeSort_of_apart (fun _ _ => decide_eq_true_iff) (fun e he => ?_) h.apart
  obtain ⟨x, y, hx, hy, -, -, -, hxy, -⟩ := h.inside e he
  omega

end Spread

theorem place_ofNat {length x : Nat} (h : x ≤ length) : place length (x : Int) = x := by
  rw [place, if_neg (by omega), Int.toNat_natCast, Nat.min_eq_left h]

/-- What one edit at two boundaries does to a text. -/
private theorem apply_encode {s u v after : Text} {bytes new : List UInt8} {e : Edit}
    (h : Utf8.encode (s ++ u ++ v ++ after) = some bytes) (hstart : e.start = Utf8.size s)
    (hstop : e.stop = Utf8.size (s ++ u)) (hnew : Utf8.encode e.text = some new) :
    ∃ out, e.apply bytes = .ok out ∧ Utf8.encode (s ++ (e.text ++ v ++ after)) = some out := by
  rw [List.append_assoc, Utf8.encode_append] at h
  obtain ⟨head, tail, hhead, htail, rfl⟩ := h
  obtain ⟨start, mid, hs, hu, rfl⟩ := Utf8.encode_append.mp hhead
  obtain ⟨rest, last, hv, hafter, rfl⟩ := Utf8.encode_append.mp htail
  have hls := Utf8.length_encode hs
  have hlu := Utf8.length_encode hhead
  refine ⟨start ++ (new ++ rest ++ last), ?_, ?_⟩
  · have hx : place (start ++ mid ++ (rest ++ last)).length e.start = start.length := by
      have : Utf8.size s ≤ (start ++ mid ++ (rest ++ last)).length := by
        simp only [List.length_append]
        omega
      rw [hstart, place_ofNat this, hls]
    have hy : place (start ++ mid ++ (rest ++ last)).length e.stop = (start ++ mid).length := by
      have : Utf8.size (s ++ u) ≤ (start ++ mid ++ (rest ++ last)).length := by
        rw [List.length_append, hlu]
        omega
      rw [hstop, place_ofNat this, hlu]
    rw [apply, hnew]
    simp only [hx, hy]
    rw [List.append_assoc start mid, List.take_left, ← List.append_assoc start mid,
      List.drop_left]
    simp only [List.append_assoc]
  · exact Utf8.encode_append.mpr ⟨start, _, hs, Utf8.encode_append.mpr
      ⟨new ++ rest, last, Utf8.encode_append.mpr ⟨new, rest, hnew, hv, rfl⟩, hafter, rfl⟩, rfl⟩

/-- The edit that swaps a passage for the one that takes its place. -/
def ofSwap (s : Swap) : Edit :=
  .ofRange (Utf8.size s.before) (Utf8.size (s.before ++ s.old)) s.new

private theorem applyDown_encode (before after : Text) {bytes : List UInt8} (bound : Int)
    {es : List Edit} (h : Utf8.encode (before ++ after) = some bytes)
    (hin : ∀ e ∈ es, ∃ x y : Nat, e.start = x ∧ e.stop = y ∧ Boundary before x ∧
      Boundary before y ∧ x < y)
    (hbound : ∀ e ∈ es, e.stop ≤ bound) (hdown : es.Pairwise fun e f => f.stop ≤ e.start)
    (htexts : ∀ e ∈ es, e.text.isEncodable = true) :
    ∃ out, ∃ draft : Draft, applyDown bytes bound es = .ok out ∧ draft.old = before ∧
      draft.swaps.map ofSwap = es.reverse ∧ Utf8.encode (draft.new ++ after) = some out := by
  induction es generalizing before after bytes bound with
  | nil =>
    refine ⟨bytes, Draft.keep before, rfl, Draft.old_keep before, ?_, ?_⟩
    · rw [Draft.swaps_keep]
      rfl
    · rwa [Draft.new_keep]
  | cons e es ih =>
    obtain ⟨x, y, hx, hy, bx, byy, hxy⟩ := hin e (List.mem_cons_self ..)
    obtain ⟨s, u, v, rfl, rfl, rfl⟩ := bx.split byy (Nat.le_of_lt hxy)
    obtain ⟨new, hencode⟩ := Utf8.exists_encode.mpr (htexts e (List.mem_cons_self ..))
    obtain ⟨out, happly, hout⟩ := apply_encode h hx hy hencode
    have hle : ¬ e.stop > bound := by
      have := hbound e (List.mem_cons_self ..)
      omega
    obtain ⟨hbefore, hdown⟩ := List.pairwise_cons.mp hdown
    have hinside : ∀ f ∈ es, ∃ x y : Nat, f.start = x ∧ f.stop = y ∧ Boundary s x ∧
        Boundary s y ∧ x < y := by
      intro f hf
      obtain ⟨x', y', hx', hy', bx', by', hxy'⟩ := hin f (List.mem_cons_of_mem e hf)
      have hstop := hbefore f hf
      rw [List.append_assoc] at bx' by'
      exact ⟨x', y', hx', hy', bx'.of_append (by omega), by'.of_append (by omega), hxy'⟩
    obtain ⟨last, draft, hlast, rfl, hswaps, ht⟩ := ih s _ _ hout hinside hbefore hdown
      fun f hf => htexts f (List.mem_cons_of_mem e hf)
    refine ⟨last, draft ++ .swapped u e.text :: Draft.keep v, ?_, ?_, ?_, ?_⟩
    · rw [applyDown, if_neg hle, happly]
      exact hlast
    · simp [Stretch.old]
    · have hfirst : ofSwap ⟨draft.old, u, e.text⟩ = e := by
        rw [ofSwap, ofRange, ← hx, ← hy]
      rw [Draft.swaps, Draft.swapsFrom_append, Draft.swapsFrom, Draft.swapsFrom_keep,
        List.nil_append, List.map_append, List.map_singleton, hfirst, List.reverse_cons, ← hswaps]
      rfl
    · simpa [Stretch.new] using ht

private theorem applyEdits_eq {source : Text} {es : List Edit} {bytes : List UInt8}
    (h : Utf8.encode source = some bytes) : Script.applyEdits source es =
      applyAll bytes es >>= fun out => (Utf8.decode out).elim (.error .notEncodable) .ok := by
  rw [Script.applyEdits, h]
  refine congrArg (applyAll bytes es >>= ·) (funext fun out => ?_)
  cases Utf8.decode out with
  | none => rfl
  | some t => rfl

/-- Edits at boundaries of the first part of a source and apart from each other, with texts that can
be encoded, are the swaps of a draft of that part. -/
private theorem Spread.exists_applyEdits {before after : Text} {es : List Edit} {a b : Nat}
    (h : Spread (Boundary before) a b es) (hsource : (before ++ after).isEncodable = true)
    (htexts : ∀ e ∈ es, e.text.isEncodable = true) :
    ∃ draft : Draft, draft.old = before ∧ (draft.swaps.map ofSwap).Perm es ∧
      Script.applyEdits (before ++ after) es = .ok (draft.new ++ after) ∧
      (draft.new ++ after).isEncodable = true := by
  obtain ⟨bytes, hbytes⟩ := Utf8.exists_encode.mpr hsource
  have hperm := List.mergeSort_perm es fun e f => f.start ≤ e.start
  have hmem {e : Edit} (he : e ∈ es.mergeSort fun e f => f.start ≤ e.start) : e ∈ es :=
    hperm.mem_iff.mp he
  have hlength := Utf8.length_encode hbytes
  rw [Utf8.size_append] at hlength
  obtain ⟨out, draft, hdown, hold, hswaps, ht⟩ := applyDown_encode before after
    (bytes.length + 1) hbytes
    (fun e he => by
      obtain ⟨x, y, hx, hy, px, py, -, hxy, -⟩ := h.inside e (hmem he)
      exact ⟨x, y, hx, hy, px, py, hxy⟩)
    (fun e he => by
      obtain ⟨x, y, hx, hy, px, py, -, hxy, -⟩ := h.inside e (hmem he)
      have := py.le_size
      omega)
    h.pairwise_mergeSort (fun e he => htexts e (hmem he))
  refine ⟨draft, hold, ?_, ?_, Utf8.exists_encode.mp ⟨out, ht⟩⟩
  · rw [hswaps]
    exact (List.reverse_perm _).trans hperm
  have hall : applyAll bytes es = .ok out := hdown
  rw [applyEdits_eq hbytes, hall]
  change (Utf8.decode out).elim (Except.error Failure.notEncodable) Except.ok = _
  rw [Utf8.decode_encode ht, Option.elim_some]

/-- Edits at boundaries and apart from each other, with texts that can be encoded, turn a text into
one that can be encoded. -/
theorem Spread.applyEdits {source : Text} {es : List Edit} {a b : Nat}
    (h : Spread (Boundary source) a b es) (hsource : source.isEncodable = true)
    (htexts : ∀ e ∈ es, e.text.isEncodable = true) :
    ∃ t, Script.applyEdits source es = .ok t ∧ t.isEncodable = true := by
  rw [← List.append_nil source] at hsource ⊢
  obtain ⟨draft, -, -, happly, hnew⟩ := h.exists_applyEdits hsource htexts
  exact ⟨_, happly, hnew⟩

private theorem applyDown_ok {bytes out : List UInt8} {bound : Int} {es : List Edit}
    (h : applyDown bytes bound es = .ok out) : ∀ e ∈ es, e.text.isEncodable = true := by
  induction es generalizing bytes bound with
  | nil => simp
  | cons e es ih =>
    rw [applyDown] at h
    split at h
    · cases h
    · cases hnew : Utf8.encode e.text with
      | none =>
        rw [apply, hnew] at h
        cases h
      | some new =>
        rw [apply, hnew] at h
        exact List.forall_mem_cons.mpr ⟨Utf8.exists_encode.mp ⟨new, hnew⟩, ih h⟩

/-- Edits with a text that cannot be encoded are never carried out. -/
theorem isEncodable_of_applyEdits {source out : Text} {es : List Edit}
    (h : Script.applyEdits source es = .ok out) : ∀ e ∈ es, e.text.isEncodable = true := by
  rw [Script.applyEdits] at h
  split at h
  · cases h
  · rename_i bytes hbytes
    cases hall : applyAll bytes es with
    | error e =>
      rw [hall] at h
      cases h
    | ok last =>
      have hdown := applyDown_ok hall
      intro e he
      exact hdown e ((List.mergeSort_perm es _).mem_iff.mpr he)

/-- What comes of edits in the first part of a source is that part with exactly their ranges
swapped for their texts. -/
theorem Spread.exists_swaps {before after out : Text} {es : List Edit} {a b : Nat}
    (h : Spread (Boundary before) a b es) (hsource : (before ++ after).isEncodable = true)
    (hout : Script.applyEdits (before ++ after) es = .ok out) :
    ∃ draft : Draft, draft.old = before ∧ draft.new ++ after = out ∧
      (draft.swaps.map ofSwap).Perm es := by
  obtain ⟨draft, hold, hswaps, hnew, -⟩ :=
    h.exists_applyEdits hsource (isEncodable_of_applyEdits hout)
  exact ⟨draft, hold, Except.ok.inj (hnew.symm.trans hout), hswaps⟩

/-- What an edit replaces in a source, stretch by stretch, each of a given kind. -/
def HasDraft (kind : Stretch → Prop) (source : Text) (e : Edit) : Prop :=
  ∀ x y : Nat, e.start = x → e.stop = y → ∃ draft : Draft, (∀ s ∈ draft, kind s) ∧
    draft.old = Utf8.slice x y source ∧ draft.new = e.text

theorem hasDraft_ofRange {kind : Stretch → Prop} {source text : Text} {a b : Nat} (draft : Draft)
    (hkind : ∀ s ∈ draft, kind s) (hold : draft.old = Utf8.slice a b source)
    (hnew : draft.new = text) : HasDraft kind source (.ofRange a b text) := by
  intro x y hx hy
  obtain rfl := Int.ofNat.inj hx
  obtain rfl := Int.ofNat.inj hy
  exact ⟨draft, hkind, hold, hnew⟩

private theorem exists_refined {kind : Stretch → Prop} (hkeep : ∀ c, kind (.kept c))
    (before : Text) (draft : Draft)
    (h : ∀ s ∈ draft.swapsFrom before, (ofSwap s).HasDraft kind (before ++ draft.old)) :
    ∃ fine : Draft, (∀ s ∈ fine, kind s) ∧ fine.old = draft.old ∧ fine.new = draft.new := by
  induction draft generalizing before with
  | nil => exact ⟨[], List.forall_mem_nil _, rfl, rfl⟩
  | cons stretch draft ih =>
    rw [Draft.old_cons, ← List.append_assoc] at h
    cases stretch with
    | kept c =>
      obtain ⟨fine, hkind, hold, hnew⟩ := ih (before ++ [c]) h
      refine ⟨.kept c :: fine, List.forall_mem_cons.mpr ⟨hkeep c, hkind⟩, ?_, ?_⟩
      · rw [Draft.old_cons, Draft.old_cons, hold]
      · rw [Draft.new_cons, Draft.new_cons, hnew]
    | swapped old new =>
      obtain ⟨hfirst, hrest⟩ := List.forall_mem_cons.mp h
      obtain ⟨here, hhere, hhold, hhnew⟩ := hfirst _ _ rfl rfl
      obtain ⟨fine, hkind, hold, hnew⟩ := ih (before ++ old) hrest
      rw [Stretch.old, Utf8.slice_append] at hhold
      refine ⟨here ++ fine, List.forall_mem_append.mpr ⟨hhere, hkind⟩, ?_, ?_⟩
      · rw [Draft.old_append, Draft.old_cons, hhold, hold, Stretch.old]
      · rw [Draft.new_append, Draft.new_cons, hhnew, hnew, Stretch.new]
        rfl

/-- What comes of edits is the source with each range replaced stretch by stretch. -/
theorem Spread.exists_draft {kind : Stretch → Prop} (hkeep : ∀ c, kind (.kept c))
    {source out : Text} {es : List Edit} {a b : Nat} (h : Spread (Boundary source) a b es)
    (hsource : source.isEncodable = true) (hdrafts : ∀ e ∈ es, e.HasDraft kind source)
    (hout : Script.applyEdits source es = .ok out) :
    ∃ draft : Draft, (∀ s ∈ draft, kind s) ∧ draft.old = source ∧ draft.new = out := by
  rw [← List.append_nil source] at hsource hout
  obtain ⟨draft, rfl, rfl, hswaps⟩ := h.exists_swaps hsource hout
  obtain ⟨fine, hkind, hold, hnew⟩ := exists_refined hkeep [] draft fun s hs =>
    hdrafts _ (hswaps.mem_iff.mp (List.mem_map_of_mem hs))
  exact ⟨fine, hkind, hold, hnew.trans (List.append_nil _).symm⟩

private theorem applyDown_error {bytes : List UInt8} {bound : Int} {es : List Edit} {d : Dialect} :
    applyDown bytes bound es ≠ .error (.unparsable d) := by
  induction es generalizing bytes bound with
  | nil => exact nofun
  | cons e es ih =>
    rw [applyDown]
    split
    · exact nofun
    · cases hnew : Utf8.encode e.text with
      | none =>
        rw [apply, hnew]
        exact nofun
      | some new =>
        rw [apply, hnew]
        exact ih

theorem applyEdits_error {source : Text} {es : List Edit} {d : Dialect} :
    Script.applyEdits source es ≠ .error (.unparsable d) := by
  intro h
  cases hbytes : Utf8.encode source with
  | none =>
    rw [Script.applyEdits, hbytes] at h
    cases h
  | some bytes =>
    rw [applyEdits_eq hbytes] at h
    cases hall : applyAll bytes es with
    | error e =>
      rw [hall] at h
      obtain rfl := Except.error.inj h
      exact applyDown_error hall
    | ok last =>
      rw [hall] at h
      change (Utf8.decode last).elim (Except.error Failure.notEncodable) Except.ok = _ at h
      cases hlast : Utf8.decode last with
      | none =>
        rw [hlast] at h
        cases h
      | some t =>
        rw [hlast] at h
        cases h

end Edit
end LocaleLift
