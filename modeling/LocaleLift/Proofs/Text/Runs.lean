import LocaleLift.Proofs.Text.Inert

/-! Runs of Chinese that are swapped for passages. -/
namespace LocaleLift.Text

open Draft (keep)

private theorem lt_of_isRun {style : RunStyle} {r : Text} (h : IsRun style r) :
    ∀ d ∈ r, 0x3000 < d.toNat := by
  obtain ⟨c, t, rfl, hc, ht⟩ := h
  have hhan {d : CodePoint} (h : d.isHan = true) : 0x3000 < d.toNat := by
    have := of_decide_eq_true (Bool.and_eq_true_iff.mp h).1
    omega
  refine List.forall_mem_cons.mpr ⟨hhan hc, fun d hd => ?_⟩
  have hjoins := ht d hd
  cases style with
  | ideographs => exact hhan hjoins
  | phrase =>
    rcases Bool.or_eq_true_iff.mp hjoins with h | h
    · exact hhan h
    · simp only [List.contains_eq_mem, List.mem_cons, List.not_mem_nil, or_false,
        decide_eq_true_eq] at h
      omega

private theorem ne_scalar_of_lt {d : CodePoint} (hd : 0x3000 < d.toNat) {e : Char}
    (he : e.toNat ≤ 0x3000) : d ≠ .scalar e := by
  rintro rfl
  exact absurd hd (Nat.not_lt.mpr he)

theorem IsRun.isPlain {style : RunStyle} {r : Text} (h : IsRun style r) : r.IsPlain := by
  intro d hd
  have hlt := lt_of_isRun h d hd
  refine ⟨?_, ne_scalar_of_lt hlt (by decide), ne_scalar_of_lt hlt (by decide)⟩
  rintro (rfl | rfl)
  · exact ne_scalar_of_lt hlt (by decide) rfl
  · exact ne_scalar_of_lt hlt (by decide) rfl

theorem IsRun.isPassage {style : RunStyle} {r : Text} (h : IsRun style r) : IsPassage r where
  balanced := .plain h.isPlain
  last := by
    have hall := lt_of_isRun h
    obtain ⟨c, t, rfl, -, -⟩ := h
    have hlt := hall _ (List.getLast_mem (List.cons_ne_nil c t))
    refine ⟨_, _, (List.dropLast_append_getLast (List.cons_ne_nil c t)).symm, ?_,
      ne_scalar_of_lt hlt (by decide), ne_scalar_of_lt hlt (by decide),
      ne_scalar_of_lt hlt (by decide)⟩
    generalize (c :: t).getLast _ = d at hlt
    simp only [CodePoint.isSpace, CodePoint.inRange, Bool.or_eq_false_iff, Bool.and_eq_false_iff,
      decide_eq_false_iff_not, beq_eq_false_iff_ne]
    omega
  blunt := by
    obtain ⟨c, t, rfl, hc, -⟩ := h
    exact ⟨c, t, rfl, .inl hc⟩

private theorem IsPassage.cons_backslash {t : Text} (h : IsPassage t) :
    IsPassage (.scalar '\\' :: t) where
  balanced := .append (s := [.scalar '\\']) (.plain (by decide)) h.balanced
  last := by
    obtain ⟨s, c, rfl, hc⟩ := h.last
    exact ⟨.scalar '\\' :: s, c, rfl, hc⟩
  blunt := ⟨_, t, rfl, by decide⟩

variable {wrap : Text → Text}

/-- Wrapping the runs of a text swaps each for what it is wrapped to. -/
theorem exists_draft_wrapRuns {ps : List Piece}
    (h : ∀ r, .run r ∈ ps → IsPassage r ∧ IsPassage (wrap r)) :
    ∃ draft : Draft, draft.IsTight ∧ draft.old = ps.flatMap Piece.text ∧
      draft.new = wrapRuns wrap ps := by
  induction ps with
  | nil => exact ⟨[], List.forall_mem_nil _, rfl, rfl⟩
  | cons p ps ih =>
    obtain ⟨draft, hdraft, hold, hnew⟩ := ih fun r hr => h r (List.mem_cons_of_mem p hr)
    rw [List.flatMap_cons]
    cases p with
    | plain t =>
      refine ⟨keep t ++ draft, Draft.isTight_append.mpr ⟨Draft.isTight_keep t, hdraft⟩, ?_, ?_⟩
      · rw [Draft.old_append, Draft.old_keep, hold, Piece.text]
      · rw [Draft.new_append, Draft.new_keep, hnew, wrapRuns]
    | run r =>
      refine ⟨.swapped r (wrap r) :: draft,
        Draft.isTight_cons.mpr ⟨h r (List.mem_cons_self ..), hdraft⟩, ?_, ?_⟩
      · rw [Draft.old_cons, hold]
        rfl
      · rw [Draft.new_cons, hnew]
        rfl

/-- So does wrapping them in a template, where a backslash may be swapped along. -/
theorem exists_draft_wrapTemplateRuns {ps : List Piece}
    (h : ∀ r, .run r ∈ ps → IsPassage r ∧ IsPassage (wrap r)) :
    ∃ draft : Draft, draft.IsTight ∧ draft.old = ps.flatMap Piece.text ∧
      draft.new = wrapTemplateRuns wrap ps := by
  induction ps using wrapTemplateRuns.induct with
  | case1 => exact ⟨[], List.forall_mem_nil _, rfl, rfl⟩
  | case2 t r ps ih =>
    rw [wrapTemplateRuns]
    obtain ⟨hr, hwrap⟩ := h r (by simp)
    obtain ⟨draft, hdraft, hold, hnew⟩ := ih fun r hr => h r (by simp [hr])
    rcases dropOddBackslash_eq t with ht | ht
    · refine ⟨keep t ++ .swapped r (wrap r) :: draft, Draft.isTight_append.mpr
        ⟨Draft.isTight_keep t, Draft.isTight_cons.mpr ⟨⟨hr, hwrap⟩, hdraft⟩⟩, ?_, ?_⟩
      · simp [hold, Stretch.old, Piece.text]
      · simp [hnew, Stretch.new, ht]
    -- The backslash in front goes with the run, since nothing may be swapped for no text at all.
    · refine ⟨keep (dropOddBackslash t) ++ .swapped (.scalar '\\' :: r) (wrap r) :: draft,
        Draft.isTight_append.mpr ⟨Draft.isTight_keep _,
          Draft.isTight_cons.mpr ⟨⟨hr.cons_backslash, hwrap⟩, hdraft⟩⟩, ?_, ?_⟩
      · rw [List.flatMap_cons, List.flatMap_cons, Piece.text, Piece.text]
        conv_rhs => rw [ht]
        simp [hold, Stretch.old]
      · simp [hnew, Stretch.new]
  | case3 t ps hps ih =>
    obtain ⟨draft, hdraft, hold, hnew⟩ := ih fun r hr => h r (by simp [hr])
    refine ⟨keep t ++ draft, Draft.isTight_append.mpr ⟨Draft.isTight_keep t, hdraft⟩, ?_, ?_⟩
    · rw [Draft.old_append, Draft.old_keep, hold]
      rfl
    · rw [Draft.new_append, Draft.new_keep, hnew, wrapTemplateRuns]
      exact hps
  | case4 r ps ih =>
    obtain ⟨draft, hdraft, hold, hnew⟩ := ih fun r hr => h r (by simp [hr])
    refine ⟨.swapped r (wrap r) :: draft, Draft.isTight_cons.mpr ⟨h r (by simp), hdraft⟩, ?_, ?_⟩
    · rw [Draft.old_cons, hold]
      rfl
    · rw [Draft.new_cons, hnew]
      rfl

/-- Substitutions change a text with a run in it: where a run begins, or the backslash in front of it
that goes along, there is no dollar sign. -/
theorem diverges_wrapTemplateRuns {ps : List Piece} (hwrap : ∀ r, ∃ t, wrap r = .scalar '$' :: t)
    (hruns : ∀ r, .run r ∈ ps → ∃ style, IsRun style r)
    (hrun : (ps.any fun p => p.run?.isSome) = true) :
    Diverges (ps.flatMap Piece.text) (wrapTemplateRuns wrap ps) := by
  have hhead {r : Text} (hr : ∃ style, IsRun style r) : ∃ c t, r = c :: t ∧ c ≠ .scalar '$' := by
    obtain ⟨style, hr⟩ := hr
    have hlt := lt_of_isRun hr
    obtain ⟨c, t, rfl, -, -⟩ := hr
    exact ⟨c, t, rfl, ne_scalar_of_lt (hlt c (List.mem_cons_self ..)) (by decide)⟩
  induction ps using wrapTemplateRuns.induct with
  | case1 => cases hrun
  | case2 t r ps ih =>
    obtain ⟨c, rest, rfl, hdollar⟩ := hhead (hruns r (by simp))
    obtain ⟨call, hcall⟩ := hwrap (c :: rest)
    rw [wrapTemplateRuns, hcall, List.flatMap_cons, List.flatMap_cons, Piece.text, Piece.text,
      List.append_assoc]
    rcases dropOddBackslash_eq t with ht | ht
    · rw [ht]
      exact .behind (.cons hdollar _ _) t
    · conv_lhs => rw [ht, List.append_assoc]
      exact .behind (.cons (by decide) _ _) _
  | case3 t ps hps ih =>
    rw [wrapTemplateRuns, List.flatMap_cons, Piece.text]
    · exact (ih (fun r hr => hruns r (List.mem_cons_of_mem _ hr)) hrun).behind t
    · exact hps
  | case4 r ps ih =>
    obtain ⟨c, rest, rfl, hdollar⟩ := hhead (hruns r (List.mem_cons_self ..))
    obtain ⟨call, hcall⟩ := hwrap (c :: rest)
    rw [wrapTemplateRuns, hcall, List.flatMap_cons, Piece.text]
    exact .cons hdollar _ _

end LocaleLift.Text
