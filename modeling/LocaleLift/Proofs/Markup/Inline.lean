import LocaleLift.Proofs.Markup.Settle

/-! Text in which every interpolation is closed. It can be read on its own, and it stays so while
its words are localized. -/
namespace LocaleLift.Markup

/-- Text in which every interpolation is closed. -/
inductive Inline : Text → Prop where
  | nil : Inline []
  | plain {c : CodePoint} {s : Text} (h : matchMark c s = none)
      (hopen : ¬ (c = .scalar '\x7b' ∧ s.head? = some (.scalar '\x7b'))) (rest : Inline s) :
      Inline (c :: s)
  | interpolation {w s : Text} (h : IsInterpolation w) (rest : Inline s) : Inline (w ++ s)

/-- Where nothing begins, nothing begins before another text that starts like the one there. -/
theorem matchMark_eq_none_of_head {c : CodePoint} {s t : Text} (h : matchMark c s = none)
    (hopen : ¬ (c = .scalar '\x7b' ∧ t.head? = some (.scalar '\x7b')))
    (hhead : t.head? = s.head? ∨ t.head?.any startsTag = false) : matchMark c t = none := by
  by_cases hc : c = .scalar '<'
  · subst hc
    refine matchMark_angle_eq_none.mpr ?_
    rcases hhead with hhead | hhead
    · rw [hhead, matchMark_angle_eq_none.mp h]
    · exact hhead
  · cases hm : matchMark c t with
    | none => rfl
    | some found =>
      obtain ⟨a, n⟩ := found
      obtain rfl := eq_interpolation_of_matchMark hc hm
      obtain ⟨inside, hinside⟩ := matchMark_eq_interpolation.mp hm
      obtain ⟨rfl, u, rest, rfl, -, -⟩ := matchInterpolation_eq_some.mp hinside
      exact absurd ⟨rfl, rfl⟩ hopen

theorem IsInterpolation.matchMark {c : CodePoint} {r : Text} (h : IsInterpolation (c :: r))
    (t : Text) : matchMark c (r ++ t) = some (.interpolation, r.length) := by
  obtain ⟨inside, hw, hinside⟩ := h
  obtain ⟨rfl, rfl⟩ : c = .scalar '\x7b' ∧ r = .scalar '\x7b' :: (inside ++ ("\x7d\x7d" : Text)) :=
    List.cons.inj hw
  refine matchMark_eq_interpolation.mpr ⟨inside, matchInterpolation_eq_some.mpr
    ⟨rfl, inside ++ "\x7d\x7d" ++ t, t, by simp [Text.ofString], ?_, ?_⟩⟩
  · exact (Text.splitAt?_eq_some_iff (by decide)).mpr ⟨rfl, hinside⟩
  · simp [Text.ofString]

theorem isInterpolation_of_matchMark {c : CodePoint} {r t : Text}
    (h : matchMark c (r ++ t) = some (.interpolation, r.length)) : IsInterpolation (c :: r) := by
  obtain ⟨inside, hinside⟩ := matchMark_eq_interpolation.mp h
  obtain ⟨rfl, u, rest, hu, hsplit, hlength⟩ := matchInterpolation_eq_some.mp hinside
  obtain ⟨rfl, hclosed⟩ := (Text.splitAt?_eq_some_iff (by decide)).mp hsplit
  rw [← List.cons_append] at hu
  obtain ⟨rfl, -⟩ := List.append_inj hu (by
    rw [← hlength, List.length_cons, List.length_append]
    rfl)
  exact ⟨inside, rfl, hclosed⟩

/-- A brace in front of an interpolation belongs to it. -/
theorem IsInterpolation.cons {w : Text} (h : IsInterpolation w) :
    IsInterpolation (.scalar '\x7b' :: w) := by
  obtain ⟨inside, rfl, hinside⟩ := h
  exact ⟨.scalar '\x7b' :: inside, rfl, hinside.cons (by decide)⟩

theorem parts_interpolation {inside : Text} (h : Unclosed (inside ++ "\x7d")) (t : Text) :
    Text.parts matchInterpolation ("\x7b\x7b" ++ inside ++ "\x7d\x7d" ++ t) =
      .found inside ("\x7b\x7b" ++ inside ++ "\x7d\x7d") ::
        Text.parts matchInterpolation t := by
  have hsplit : Text.splitAt? "\x7d\x7d" (inside ++ "\x7d\x7d" ++ t) = some (inside, t) :=
    (Text.splitAt?_eq_some_iff (by decide)).mpr ⟨rfl, h⟩
  refine Text.parts_found (r := .scalar '\x7b' :: (inside ++ "\x7d\x7d")) ?_
  exact matchInterpolation_eq_some.mpr ⟨rfl, _, t, rfl, hsplit, by simp [Text.ofString]⟩

theorem matchInterpolation_of_not_braces {c : CodePoint} {t : Text}
    (h : ¬ (c = .scalar '\x7b' ∧ t.head? = some (.scalar '\x7b'))) :
    matchInterpolation c t = none := by
  rw [matchInterpolation, if_neg (by simpa using h)]

/-- No Chinese stands in a text outside interpolations, and what stands in them has a property. -/
def Filled (q : Text → Prop) (s : Text) : Prop :=
  ∀ p ∈ Text.parts matchInterpolation s, match p with
    | .plain c => c.isHan = false
    | .found inside _ => q inside

section Filled

variable {q : Text → Prop} {s : Text}

theorem filled_nil : Filled q [] :=
  List.forall_mem_nil _

theorem filled_plain {c : CodePoint} (h : matchInterpolation c s = none) :
    Filled q (c :: s) ↔ c.isHan = false ∧ Filled q s := by
  rw [Filled, Text.parts_plain h, List.forall_mem_cons]
  rfl

theorem filled_interpolation {inside : Text} (h : Unclosed (inside ++ "\x7d")) :
    Filled q ("\x7b\x7b" ++ inside ++ "\x7d\x7d" ++ s) ↔ q inside ∧ Filled q s := by
  rw [Filled, parts_interpolation h, List.forall_mem_cons]
  rfl

theorem Filled.inside (h : Filled q s) {inside : Text}
    (hinside : inside ∈ Text.findAll matchInterpolation s) : q inside := by
  obtain ⟨p, hp, hfound⟩ := List.mem_filterMap.mp hinside
  cases p with
  | plain c => cases hfound
  | found a raw =>
    cases hfound
    exact h _ hp

end Filled

namespace Inline

variable {c : CodePoint} {r s t : Text} {a : Mark}

theorem of_mark (h : Inline (c :: (r ++ t))) (hm : matchMark c (r ++ t) = some (a, r.length)) :
    IsInterpolation (c :: r) ∧ Inline t := by
  generalize hw : c :: (r ++ t) = w at h
  cases h with
  | nil => cases hw
  | plain hnone =>
    obtain ⟨rfl, rfl⟩ := List.cons.inj hw
    rw [hm] at hnone
    cases hnone
  | @interpolation w s hinterpolation rest =>
    cases w with
    | nil =>
      obtain ⟨inside, hempty, -⟩ := hinterpolation
      cases hempty
    | cons d w =>
      obtain ⟨rfl, hwhole⟩ : c = d ∧ r ++ t = w ++ s := List.cons.inj hw
      have hmark := hinterpolation.matchMark s
      rw [← hwhole, hm] at hmark
      obtain ⟨rfl, rfl⟩ := List.append_inj hwhole (Prod.mk.inj (Option.some.inj hmark)).2
      exact ⟨hinterpolation, rest⟩

theorem of_plain (h : Inline (c :: s)) (hm : matchMark c s = none) :
    ¬ (c = .scalar '\x7b' ∧ s.head? = some (.scalar '\x7b')) ∧ Inline s := by
  generalize hw : c :: s = w at h
  cases h with
  | nil => cases hw
  | plain _ hopen rest =>
    obtain ⟨rfl, rfl⟩ := List.cons.inj hw
    exact ⟨hopen, rest⟩
  | @interpolation w s' hinterpolation rest =>
    cases w with
    | nil =>
      obtain ⟨inside, hempty, -⟩ := hinterpolation
      cases hempty
    | cons d w =>
      obtain ⟨rfl, rfl⟩ : c = d ∧ s = w ++ s' := List.cons.inj hw
      rw [hinterpolation.matchMark s'] at hm
      cases hm

theorem of_interpolation {w : Text} (h : Inline (w ++ s)) (hw : IsInterpolation w) : Inline s := by
  cases w with
  | nil =>
    obtain ⟨inside, hempty, -⟩ := hw
    cases hempty
  | cons c r => exact (h.of_mark (hw.matchMark s)).2

/-- Its parts, whatever follows that begins with an angle bracket. -/
theorem exists_parts (h : Inline s) (ht : ∀ c ∈ t.head?, c = .scalar '<') :
    ∃ ps, Text.parts matchMark (s ++ t) = ps ++ Text.parts matchMark t ∧
      ps.flatMap Part.text = s ∧ ∀ p ∈ ps, Token.kindOf p = .text := by
  induction h with
  | nil => exact ⟨[], rfl, rfl, List.forall_mem_nil _⟩
  | @plain c s h hopen rest ih =>
    obtain ⟨ps, hps, hflat, htext⟩ := ih
    refine ⟨.plain c :: ps, ?_, congrArg (c :: ·) hflat, List.forall_mem_cons.mpr ⟨rfl, htext⟩⟩
    have hm : matchMark c (s ++ t) = none := by
      cases s with
      | cons d s => exact matchMark_eq_none_of_head h hopen (.inl rfl)
      | nil =>
        rw [List.nil_append]
        refine matchMark_eq_none_of_head h (fun hbraces => ?_) (.inr ?_)
        · exact absurd (ht _ hbraces.2) (by decide)
        · cases t with
          | nil => rfl
          | cons d t =>
            obtain rfl := ht d rfl
            rfl
    rw [List.cons_append, Text.parts_plain hm, hps]
    rfl
  | @interpolation w s h rest ih =>
    obtain ⟨ps, hps, hflat, htext⟩ := ih
    refine ⟨.found .interpolation w :: ps, ?_, ?_, List.forall_mem_cons.mpr ⟨rfl, htext⟩⟩
    · rw [List.append_assoc, h.parts_append, hps]
      rfl
    · rw [List.flatMap_cons, hflat]
      rfl

/-- It is a row of parts. -/
theorem exists_row (h : Inline s) : ∃ ps, Row ps [] ∧ ps.flatMap Part.text = s := by
  induction h with
  | nil => exact ⟨[], .nil, rfl⟩
  | @plain c s h hopen rest ih =>
    obtain ⟨ps, row, rfl⟩ := ih
    exact ⟨.plain c :: ps, .plain (by rwa [List.append_nil]) row, rfl⟩
  | @interpolation w s h rest ih =>
    obtain ⟨ps, row, rfl⟩ := ih
    cases w with
    | nil =>
      obtain ⟨inside, hempty, -⟩ := h
      cases hempty
    | cons c r =>
      refine ⟨.found .interpolation (c :: r) :: ps, .interpolation (h.matchMark _) row, ?_⟩
      rw [List.flatMap_cons]
      rfl

/-- Localizing its words weaves. -/
theorem meets_localizeWords (h : Inline s) (scope : Scope) :
    Extract.Meets (Woven (LooksUp scope) s) (localizeWords scope s) := by
  obtain ⟨ps, row, rfl⟩ := h.exists_row
  refine (Markup.meets_localizeWords row).mono fun new hnew => ?_
  have hwoven := hnew [] .nil
  rwa [List.append_nil, List.append_nil] at hwoven

private theorem of_run (h : Inline (r ++ t)) (hr : Text.IsRun .ideographs r) : Inline t ∧
    Text.findAll matchInterpolation (r ++ t) = Text.findAll matchInterpolation t := by
  obtain ⟨d, r, rfl, hd, hrest⟩ := hr
  have hhan : ∀ e ∈ d :: r, e.isHan = true := List.forall_mem_cons.mpr ⟨hd, hrest⟩
  generalize d :: r = r at h hhan
  induction r with
  | nil => exact ⟨h, rfl⟩
  | cons c r ih =>
    obtain ⟨hc, hhan⟩ := List.forall_mem_cons.mp hhan
    have hbrace : c ≠ .scalar '\x7b' := CodePoint.ne_scalar_of_isHan hc (by decide)
    have hm : matchMark c (r ++ t) = none := by
      rw [matchMark, if_neg (CodePoint.ne_scalar_of_isHan hc (by decide)), if_neg]
      rw [decide_eq_false hbrace]
      exact Bool.false_ne_true
    obtain ⟨hinline, hfound⟩ := ih (h.of_plain hm).2 hhan
    refine ⟨hinline, hfound ▸ ?_⟩
    have hnone := matchInterpolation_of_not_braces (t := r ++ t) fun hopen => hbrace hopen.1
    rw [Text.findAll, List.cons_append, Text.parts_plain hnone]
    rfl

/-- It stays so when its words are turned into interpolations. -/
theorem of_woven {o : Text} (h : Inline s) (hwoven : Woven IsInterpolation s o) : Inline o := by
  induction hwoven with
  | nil => exact .nil
  | @mark c r t o a hm _ ih =>
    obtain ⟨hinterpolation, hrest⟩ := h.of_mark hm
    exact .interpolation hinterpolation (ih hrest)
  | @run r w t o hr hw _ ih =>
    exact .interpolation hw (ih (h.of_run hr).1)
  | @plain c t o hm hc rest ih =>
    obtain ⟨hopen, hrest⟩ := h.of_plain hm
    have ho := ih hrest
    have hsame (hhead : o.head? = t.head?) : Inline (c :: o) := by
      rw [← hhead] at hopen
      exact .plain (matchMark_eq_none_of_head hm hopen (.inl hhead)) hopen ho
    cases rest with
    | nil | mark | plain => exact hsame rfl
    | @run r w t o hr hw _ =>
      -- The code point in front becomes part of the interpolation, if it is a brace.
      by_cases hc : c = .scalar '\x7b'
      · subst hc
        exact .interpolation hw.cons (ho.of_interpolation hw)
      · refine .plain (matchMark_eq_none_of_head hm (fun hbraces => hc hbraces.1) (.inr ?_))
          (fun hbraces => hc hbraces.1) ho
        obtain ⟨inside, rfl, -⟩ := hw
        rfl

/-- When its words are turned into interpolations, no Chinese is left outside these. One of them may
begin with a brace that stood in front of the words. -/
theorem filled {p q : Text → Prop} {o : Text} (h : Inline s) (hwoven : Woven p s o)
    (hp : ∀ w, p w → ∃ inside, w = "\x7b\x7b" ++ inside ++ "\x7d\x7d" ∧
      Unclosed (inside ++ "\x7d") ∧ q inside ∧ q (.scalar '\x7b' :: inside))
    (hs : ∀ inside ∈ Text.findAll matchInterpolation s, q inside) : Filled q o := by
  induction hwoven with
  | nil => exact filled_nil
  | @mark c r t o a hm _ ih =>
    obtain ⟨⟨inside, hw, hclosed⟩, hrest⟩ := h.of_mark hm
    rw [hw, Text.findAll, parts_interpolation hclosed] at hs
    obtain ⟨hinside, hs⟩ := List.forall_mem_cons.mp hs
    rw [hw]
    exact (filled_interpolation hclosed).mpr ⟨hinside, ih hrest hs⟩
  | @run r w t o hr hw _ ih =>
    obtain ⟨inside, rfl, hclosed, hinside, -⟩ := hp w hw
    obtain ⟨hrest, hsame⟩ := h.of_run hr
    exact (filled_interpolation hclosed).mpr ⟨hinside, ih hrest (hsame ▸ hs)⟩
  | @plain c t o hm hc rest ih =>
    obtain ⟨hopen, hrest⟩ := h.of_plain hm
    rw [Text.findAll, Text.parts_plain (matchInterpolation_of_not_braces hopen)] at hs
    have ho := ih hrest hs
    have hsame (hhead : o.head? = t.head?) : Filled q (c :: o) := by
      rw [← hhead] at hopen
      exact (filled_plain (matchInterpolation_of_not_braces hopen)).mpr ⟨hc, ho⟩
    cases rest with
    | nil | mark | plain => exact hsame rfl
    | @run r w t o hr hw _ =>
      by_cases hbrace : c = .scalar '\x7b'
      · subst hbrace
        obtain ⟨inside, rfl, hclosed, -, hinside⟩ := hp w hw
        exact (filled_interpolation (hclosed.cons (by decide))).mpr
          ⟨hinside, ((filled_interpolation hclosed).mp ho).2⟩
      · exact (filled_plain (matchInterpolation_of_not_braces fun hopen => hbrace hopen.1)).mpr
          ⟨hc, ho⟩

end Inline

end LocaleLift.Markup
