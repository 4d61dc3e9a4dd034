import LocaleLift.Proofs.Literal.Escape
import LocaleLift.Proofs.Literal.Spelling
import LocaleLift.Proofs.Text.Entry

/-! Code points that cooking neither loses nor brings in: no escape hides one that stands in a body,
and only a number spelled in hexadecimal digits stands for one that does not. -/
namespace LocaleLift.Literal

/-- A code point that belongs to no escape but the one of a backslash before it, which stands for
it. -/
structure IsVerbatim (c : CodePoint) : Prop where
  itself : simpleEscape c = [c]
  digit : Text.hexDigit? c = none
  spelling : c ∉ ("\\ux\x7b\x7d" : Text)

instance : DecidablePred IsVerbatim := fun c =>
  decidable_of_iff (simpleEscape c = [c] ∧ Text.hexDigit? c = none ∧ c ∉ ("\\ux\x7b\x7d" : Text))
    ⟨fun ⟨h, h', h''⟩ => ⟨h, h', h''⟩, fun h => ⟨h.itself, h.digit, h.spelling⟩⟩

theorem isVerbatim_of_isHan {c : CodePoint} (h : c.isHan = true) : IsVerbatim c := by
  have hrange := h
  simp only [CodePoint.isHan, CodePoint.inRange, Bool.and_eq_true, decide_eq_true_eq] at hrange
  refine ⟨?_, ?_, ?_⟩
  · unfold simpleEscape
    split <;> first | rfl | cases h
  · simp only [Text.hexDigit?, CodePoint.inRange, Bool.and_eq_true, decide_eq_true_eq]
    rw [if_neg (by omega), if_neg (by omega), if_neg (by omega)]
  · intro hmem
    have hnone : ∀ d ∈ ("\\ux\x7b\x7d" : Text), d.isHan = false := by decide
    rw [hnone c hmem] at h
    cases h

section Verbatim

variable {c : CodePoint} (hc : IsVerbatim c)

include hc in
/-- In an escape such a code point stands for itself. -/
private theorem escape?_verbatim {t : Text} {e : Escape} {n : Nat} (h : escape? t = some (e, n))
    (hmem : c ∈ t.take n) : e = .text [c] := by
  have hne {d : Char} (hd : .scalar d ∈ ("\\ux\x7b\x7d" : Text)) : c ≠ .scalar d :=
    fun he => hc.spelling (he ▸ hd)
  obtain ⟨r, rest, rfl, rfl, hr⟩ := spelling_of_escape? h
  rw [List.take_left] at hmem
  cases hr with
  | braced hnil hhex =>
    simp only [List.mem_cons, List.mem_append, List.not_mem_nil, or_false] at hmem
    rcases hmem with hmem | hmem | hmem | hmem
    · exact absurd hmem (hne (by decide))
    · exact absurd hmem (hne (by decide))
    · exact absurd hmem (Text.not_mem_of_hexNumber? hhex hc.digit)
    · exact absurd hmem (hne (by decide))
  | unit hlength hhex =>
    rcases List.mem_cons.mp hmem with hmem | hmem
    · exact absurd hmem (hne (by decide))
    · exact absurd hmem (Text.not_mem_of_hexNumber? hhex hc.digit)
  | byte hlength hhex =>
    rcases List.mem_cons.mp hmem with hmem | hmem
    · exact absurd hmem (hne (by decide))
    · exact absurd hmem (Text.not_mem_of_hexNumber? hhex hc.digit)
  | lineEnd =>
    have hitself := hc.itself
    rcases List.mem_cons.mp hmem with rfl | hmem
    · cases hitself
    · obtain rfl := List.mem_singleton.mp hmem
      cases hitself
  | single d =>
    obtain rfl := List.mem_singleton.mp hmem
    rw [hc.itself]

include hc in
/-- A verbatim code point of a body stands in its value. -/
theorem mem_cook {body v : Text} (h : cook body = .ok v) (hmem : c ∈ body) : c ∈ v := by
  obtain ⟨vs, hvs, rfl⟩ := cook_eq_ok.mp h
  -- What is found is an escape, and only those that stand for such a code point hold it.
  have hpart (p : Part Escape) (w : Text) (hp : p ∈ Text.parts matchEscape body)
      (hw : cookPart p = .ok w) (hmem : c ∈ p.text) : c ∈ w := by
    cases p with
    | plain d =>
      obtain rfl := Except.ok.inj hw
      exact hmem
    | found e spelling =>
      obtain ⟨_, d, after, n, -, hm, rfl⟩ := Text.of_mem_parts hp
      rw [matchEscape] at hm
      split at hm
      · rename_i hd
        subst hd
        rcases List.mem_cons.mp hmem with rfl | hmem
        · exact absurd (by decide) hc.spelling
        · obtain rfl := escape?_verbatim hc hm hmem
          obtain rfl := Except.ok.inj hw
          exact List.mem_singleton.mpr rfl
      · cases hm
  rw [← Text.flatten_parts matchEscape body] at hmem
  clear h
  generalize Text.parts matchEscape body = ps at hvs hpart hmem
  induction hvs with
  | nil => exact hmem
  | cons hw _ ih =>
    rw [List.flatMap_cons] at hmem
    rw [List.flatten_cons]
    rcases List.mem_append.mp hmem with hmem | hmem
    · exact List.mem_append_left _ (hpart _ _ (List.mem_cons_self ..) hw hmem)
    · exact List.mem_append_right _ (ih (fun p w hp => hpart p w (List.mem_cons_of_mem _ hp)) hmem)

end Verbatim

/-- Cooking loses no Chinese. -/
theorem hasHan_cook {body v : Text} (h : cook body = .ok v) (hbody : body.hasHan = true) :
    v.hasHan = true := by
  obtain ⟨c, hc, hhan⟩ := List.any_eq_true.mp hbody
  exact List.any_eq_true.mpr ⟨c, mem_cook (isVerbatim_of_isHan hhan) h hc, hhan⟩

/-- A text that neither holds Chinese nor can spell any by number. -/
structure IsHanless (t : Text) : Prop where
  none : t.hasHan = false
  unspelled : ¬ ("\\u" : Text) <:+: t

theorem IsHanless.within {s t : Text} (h : IsHanless t) (hs : s <:+: t) : IsHanless s := by
  refine ⟨?_, fun hu => h.unspelled (hu.trans hs)⟩
  exact List.any_eq_false.mpr fun c hc => List.any_eq_false.mp h.none c (hs.subset hc)

private theorem hasHan_simpleEscape {c : CodePoint} (h : c.isHan = false) :
    Text.hasHan (simpleEscape c) = false := by
  have hself : Text.hasHan [c] = false := by simp [Text.hasHan, h]
  unfold simpleEscape
  split <;> first | rfl | exact hself

private theorem cook_small {n : Nat} (h : n < 0x100) (spelling : Text) :
    ∃ w, (Escape.number n).cook spelling = .ok w ∧ w.hasHan = false := by
  obtain ⟨c, hc⟩ := CodePoint.exists_ofNat?.mpr (show n < 0x110000 by omega)
  have hn := CodePoint.toNat_of_ofNat? hc
  refine ⟨[c], ?_, ?_⟩
  · rw [Escape.cook, hc]
  · have hhan : c.isHan = false := by
      simp only [CodePoint.isHan, CodePoint.inRange, Bool.and_eq_false_iff,
        decide_eq_false_iff_not]
      omega
    simp [Text.hasHan, hhan]

/-- Where no number of more than two digits can be spelled, an escape brings in no Chinese. -/
private theorem escape?_hanless {t : Text} {e : Escape} {n : Nat}
    (h : escape? t = some (e, n)) (ht : IsHanless (.scalar '\\' :: t)) (spelling : Text) :
    ∃ w, e.cook spelling = .ok w ∧ w.hasHan = false := by
  obtain ⟨r, rest, rfl, rfl, hr⟩ := spelling_of_escape? h
  cases hr with
  | braced hnil hhex => exact absurd ⟨[], _, rfl⟩ ht.unspelled
  | unit hlength hhex => exact absurd ⟨[], _, rfl⟩ ht.unspelled
  | byte hlength hhex =>
    have hn := Text.lt_of_hexNumber? hhex
    rw [hlength] at hn
    exact cook_small hn spelling
  | lineEnd => exact ⟨_, rfl, rfl⟩
  | single c =>
    have hc := Text.hasHan_eq_false.mp ht.none c (by simp)
    exact ⟨_, rfl, hasHan_simpleEscape hc⟩

/-- A body without Chinese that can spell none by number has a value, and none stands in it. -/
theorem exists_cook_hanless {body : Text} (h : IsHanless body) :
    ∃ v, cook body = .ok v ∧ v.hasHan = false := by
  have hpart (p : Part Escape) (hp : p ∈ Text.parts matchEscape body) :
      ∃ w, cookPart p = .ok w ∧ w.hasHan = false := by
    cases p with
    | plain c =>
      obtain ⟨before, after, hbody, -⟩ := Text.of_mem_parts hp
      refine ⟨[c], rfl, ?_⟩
      simp [Text.hasHan, Text.hasHan_eq_false.mp h.none c (by simp [hbody])]
    | found e spelling =>
      obtain ⟨before, c, after, n, hbody, hm, rfl⟩ := Text.of_mem_parts hp
      rw [matchEscape] at hm
      split at hm
      · rename_i hc
        subst hc
        exact escape?_hanless hm (h.within ⟨before, [], by rw [hbody, List.append_nil]⟩) _
      · cases hm
  have hall (ps : List (Part Escape)) (hps : ∀ p ∈ ps, ∃ w, cookPart p = .ok w ∧ w.hasHan = false) :
      ∃ vs, List.Forall₂ (fun p w => cookPart p = .ok w) ps vs ∧
        Text.hasHan vs.flatten = false := by
    induction ps with
    | nil => exact ⟨[], .nil, rfl⟩
    | cons p ps ih =>
      obtain ⟨⟨w, hw, hnone⟩, hrest⟩ := List.forall_mem_cons.mp hps
      obtain ⟨vs, hvs, hnones⟩ := ih hrest
      refine ⟨w :: vs, .cons hw hvs, ?_⟩
      rw [List.flatten_cons, Text.hasHan, List.any_append, Bool.or_eq_false_iff]
      exact ⟨hnone, hnones⟩
  obtain ⟨vs, hvs, hnone⟩ := hall _ hpart
  exact ⟨vs.flatten, cook_eq_ok.mpr ⟨vs, hvs, rfl⟩, hnone⟩

end LocaleLift.Literal
