import LocaleLift.Proofs.Literal.Seam

/-! Template text whose runs of Chinese are wrapped: it denotes what it did, each run aside, and no
backslash escapes what is wrapped around one. -/
namespace LocaleLift

namespace Text

/-- The matches of a run in a text, from left to right. Each begins at the first ideograph that is
left, and goes on as long as it can. -/
inductive Matches (style : RunStyle) : Text → List Text → Prop where
  | none {t : Text} (ht : hasHan t = false) : Matches style t []
  | run {before r rest : Text} {rs : List Text} (hbefore : hasHan before = false)
      (hr : IsRun style r) (hend : ∀ c ∈ rest.head?, style.joins c = false)
      (hrest : Matches style rest rs) : Matches style (before ++ (r ++ rest)) (r :: rs)

theorem exists_matches (style : RunStyle) (t : Text) : ∃ rs, Matches style t rs := by
  induction hlength : t.length using Nat.strongRecOn generalizing t with
  | ind _ ih =>
  subst hlength
  have hbefore : hasHan (t.takeWhile fun c => !c.isHan) = false := by
    refine hasHan_eq_false.mpr fun c hc => ?_
    simpa using List.all_eq_true.mp List.all_takeWhile c hc
  have hsplit := List.takeWhile_append_dropWhile (p := fun c : CodePoint => !c.isHan) (l := t)
  cases hfirst : t.dropWhile fun c => !c.isHan with
  | nil =>
    rw [hfirst, List.append_nil] at hsplit
    rw [hsplit] at hbefore
    exact ⟨[], .none hbefore⟩
  | cons c u =>
    have hc : c.isHan = true := by
      have hhead : (t.dropWhile fun c => !c.isHan).head? = some c := by rw [hfirst, List.head?_cons]
      simpa using head?_dropWhile hhead
    have hrun := List.takeWhile_append_dropWhile (p := style.joins) (l := u)
    have hgoes : ∀ d ∈ u.takeWhile style.joins, style.joins d = true :=
      List.all_eq_true.mp List.all_takeWhile
    have hends : ∀ d ∈ (u.dropWhile style.joins).head?, style.joins d = false :=
      fun d hd => head?_dropWhile hd
    rw [hfirst] at hsplit
    generalize u.takeWhile style.joins = r at hrun hgoes
    generalize u.dropWhile style.joins = rest at hrun hends
    subst hrun
    have hlt : rest.length < t.length := by
      rw [← hsplit]
      simp only [List.length_append, List.length_cons]
      omega
    obtain ⟨rs, hrs⟩ := ih rest.length hlt rest rfl
    refine ⟨(c :: r) :: rs, ?_⟩
    rw [← hsplit]
    exact .run hbefore ⟨c, r, rfl, hc, hgoes⟩ hends hrs

/-- Wrapping goes on behind a run. -/
theorem wrapTemplateRuns_run {style : RunStyle} {before r rest : Text}
    (hbefore : hasHan before = false) (hr : IsRun style r)
    (hend : ∀ c ∈ rest.head?, style.joins c = false) (wrap : Text → Text) :
    wrapTemplateRuns wrap (pieces style (before ++ (r ++ rest))) =
      dropOddBackslash before ++ wrap r ++ wrapTemplateRuns wrap (pieces style rest) := by
  rw [pieces_run hbefore hr hend]
  by_cases hnil : before = []
  · subst hnil
    rfl
  · rw [if_neg hnil]
    rfl

theorem wrapTemplateRuns_plain {style : RunStyle} {t : Text} (h : hasHan t = false)
    (wrap : Text → Text) : wrapTemplateRuns wrap (pieces style t) = t := by
  rw [pieces_plain h]
  by_cases hnil : t = []
  · rw [if_pos hnil, hnil]
    rfl
  · rw [if_neg hnil]
    exact List.append_nil t

theorem IsRun.not_mem_backslash {style : RunStyle} {r : Text} (h : IsRun style r) :
    .scalar '\\' ∉ r := by
  obtain ⟨c, t, rfl, hc, ht⟩ := h
  intro hmem
  rcases List.mem_cons.mp hmem with rfl | hmem
  · cases hc
  · have := ht _ hmem
    cases style
    · cases this
    · cases this

end Text

namespace Literal

open Text (EndsEven Matches)

/-- The value of a text given by its pieces, where runs stand between that are taken as they are:
each piece but the last is followed by a run. -/
def cookAround : List (Text × Text) → Text → Except Failure Text
  | [], last => cook last
  | (piece, run) :: rest, last => do return (← cook piece) ++ run ++ (← cookAround rest last)

private theorem cook_append_plain {r : Text} (h : .scalar '\\' ∉ r) (t : Text) :
    cook (r ++ t) = do return r ++ (← cook t) := by
  induction r with
  | nil => simp
  | cons c r ih =>
    rw [List.mem_cons, not_or] at h
    rw [List.cons_append, cook_cons (Ne.symm h.1), ih h.2]
    simp only [bind_assoc, pure_bind, List.cons_append]

/-- Before a verbatim code point a backslash means nothing. -/
private theorem cook_backslash {c : CodePoint} (h : IsVerbatim c) (t : Text) :
    cook (.scalar '\\' :: c :: t) = cook (c :: t) := by
  have hne {d : Char} (hd : .scalar d ∈ ("\\ux" : Text)) : c ≠ .scalar d :=
    fun he => h.spelling (he ▸ List.mem_append_left _ hd)
  have hescape : escape? ([c] ++ t) = some (.text [c], [c].length) := by
    rw [List.singleton_append, escape?.eq_6, h.itself]
    · rfl
    · exact fun _ he _ => hne (by decide) he
    · exact hne (by decide)
    · exact hne (by decide)
    · rintro _ rfl _
      exact absurd h.itself (by decide)
  rw [cook_cons (hne (by decide))]
  exact cook_escape hescape

/-- A run and what stands before it and behind it are cooked apart, if a backslash that the run
would take is dropped. -/
private theorem cook_run {style : RunStyle} {r : Text} (hr : Text.IsRun style r)
    (before rest : Text) : cook (before ++ (r ++ rest)) =
      do return (← cook (Text.dropOddBackslash before)) ++ r ++ (← cook rest) := by
  have hbehind := cook_append_plain hr.not_mem_backslash rest
  obtain ⟨c, t, rfl, hc, -⟩ := hr
  have hverbatim := isVerbatim_of_isHan hc
  rcases Text.dropOddBackslash_cases before with ⟨heven, hdrop⟩ | ⟨s, rfl, heven, hdrop⟩
  · have hseam : ∀ d ∈ (c :: t ++ rest).head?, IsSeam d := by
      rintro _ ⟨⟩
      exact hverbatim.isSeam
    rw [hdrop, cook_append hseam heven, hbehind]
    simp only [bind_assoc, pure_bind, List.append_assoc]
  · have hseam : ∀ d ∈ (.scalar '\\' :: (c :: t ++ rest) : Text).head?, IsSeam d := by
      rintro _ ⟨⟩
      exact isSeam_backslash
    rw [hdrop, List.append_assoc, List.singleton_append, cook_append hseam heven,
      List.cons_append, cook_backslash hverbatim, ← List.cons_append, hbehind]
    simp only [bind_assoc, pure_bind, List.append_assoc]

/-- Wrapping the runs of template text, and nothing but these, keeps the rest of it: whatever the
runs are wrapped in, pieces of text stand around them whose values, with the runs between, make up
the value of the whole, and behind each piece a substitution is not escaped. If the text has no
value, neither have the pieces. -/
theorem exists_pieces_wrapTemplateRuns (style : RunStyle) (raw : Text) :
    ∃ (ps : List (Text × Text)) (last : Text),
      (∀ wrap, Text.wrapTemplateRuns wrap (Text.pieces style raw) =
        (ps.flatMap fun p => p.1 ++ wrap p.2) ++ last) ∧
      Matches style raw (ps.map Prod.snd) ∧ cookAround ps last = cook raw ∧
      ∀ p ∈ ps, EndsEven p.1 := by
  obtain ⟨rs, hrs⟩ := Text.exists_matches style raw
  induction hrs with
  | @none t ht =>
    exact ⟨[], t, fun wrap => Text.wrapTemplateRuns_plain ht wrap, .none ht, rfl,
      List.forall_mem_nil _⟩
  | @run before r rest rs hbefore hr hend _ ih =>
    obtain ⟨ps, last, hwrap, hmatches, hcook, heven⟩ := ih
    refine ⟨(Text.dropOddBackslash before, r) :: ps, last, fun wrap => ?_, ?_, ?_, ?_⟩
    · rw [Text.wrapTemplateRuns_run hbefore hr hend, hwrap]
      simp only [List.flatMap_cons, List.append_assoc]
    · exact .run hbefore hr hend hmatches
    · rw [cookAround, hcook, cook_run hr]
    · refine List.forall_mem_cons.mpr ⟨?_, heven⟩
      rcases Text.dropOddBackslash_cases before with ⟨h, hdrop⟩ | ⟨s, -, h, hdrop⟩
      · rwa [hdrop]
      · rwa [hdrop]

end Literal
end LocaleLift
