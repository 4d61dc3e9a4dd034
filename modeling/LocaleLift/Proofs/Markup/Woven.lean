import LocaleLift.Proofs.Markup.Chunk
import LocaleLift.Proofs.Markup.Closing

/-! Markup with its runs of Chinese turned into interpolations. An interpolation that was never
closed may then be closed by one of these; what it swallows ends where one of them ends. -/
namespace LocaleLift.Markup

theorem IsInterpolation.parts_append {w : Text} (h : IsInterpolation w) (t : Text) :
    Text.parts matchMark (w ++ t) = .found .interpolation w :: Text.parts matchMark t := by
  obtain ⟨inside, rfl, hinside⟩ := h
  have hsplit : Text.splitAt? "\x7d\x7d" (inside ++ "\x7d\x7d" ++ t) = some (inside, t) :=
    (Text.splitAt?_eq_some_iff (by decide)).mpr ⟨rfl, hinside⟩
  refine Text.parts_found (r := .scalar '\x7b' :: (inside ++ "\x7d\x7d")) ?_
  refine matchMark_eq_interpolation.mpr ⟨inside, matchInterpolation_eq_some.mpr ?_⟩
  exact ⟨rfl, _, t, rfl, hsplit, by simp [Text.ofString]⟩

/-- Markup, and the same with something in the place of each run of Chinese outside its marks. -/
inductive Woven (p : Text → Prop) : Text → Text → Prop where
  | nil : Woven p [] []
  | mark {c : CodePoint} {r t o : Text} {a : Mark}
      (h : matchMark c (r ++ t) = some (a, r.length)) (rest : Woven p t o) :
      Woven p (c :: r ++ t) (c :: r ++ o)
  | plain {c : CodePoint} {t o : Text} (h : matchMark c t = none) (hc : c.isHan = false)
      (rest : Woven p t o) : Woven p (c :: t) (c :: o)
  | run {r w t o : Text} (hr : Text.IsRun .ideographs r) (hw : p w) (rest : Woven p t o) :
      Woven p (r ++ t) (w ++ o)

/-- An interpolation that is open at the beginning of a text ends somewhere in it, and what follows
is woven from less than a number of code points. -/
def Resumes (n : Nat) (o : Text) : Prop :=
  ∃ before t' o', o = before ++ "\x7d\x7d" ++ o' ∧ Unclosed (before ++ "\x7d") ∧
    Woven IsInterpolation t' o' ∧ t'.length < n

namespace Woven

variable {p q : Text → Prop} {t o : Text}

theorem mono (h : Woven p t o) (hpq : ∀ w, p w → q w) : Woven q t o := by
  induction h with
  | nil => exact .nil
  | mark h _ ih => exact .mark h ih
  | plain h hc _ ih => exact .plain h hc ih
  | run hr hw _ ih => exact .run hr (hpq _ hw) ih

theorem eq_nil (h : Woven p [] o) : o = [] := by
  generalize ht : ([] : Text) = t at h
  cases h with
  | nil => rfl
  | mark | plain => cases ht
  | run hr =>
    obtain ⟨c, r, rfl, -⟩ := hr
    cases ht

private theorem resumes_run {r w : Text} (hr : Text.IsRun .ideographs r) (hw : IsInterpolation w)
    (h : Woven IsInterpolation t o) : Resumes (r ++ t).length (w ++ o) := by
  obtain ⟨inside, rfl, hinside⟩ := hw
  obtain ⟨c, r, rfl, -⟩ := hr
  refine ⟨"\x7b\x7b" ++ inside, t, o, rfl, ?_, h, ?_⟩
  · exact (hinside.cons (by decide)).cons (by decide)
  · rw [List.length_append, List.length_cons]
    omega

/-- What is woven begins as before, or with an interpolation. -/
theorem head (h : Woven IsInterpolation t o) :
    o.head? = t.head? ∨ o.head? = some (.scalar '\x7b') ∧ Resumes t.length o := by
  cases h with
  | nil | mark | plain => exact .inl rfl
  | run hr hw rest =>
    refine .inr ⟨?_, resumes_run hr hw rest⟩
    obtain ⟨inside, rfl, -⟩ := hw
    rfl

private theorem head_close (h : Woven IsInterpolation t o) (ho : o.head? = some (.scalar '\x7d')) :
    t.head? = some (.scalar '\x7d') := by
  rcases h.head with hsame | ⟨hopen, -⟩
  · rw [← hsame, ho]
  · rw [ho] at hopen
    cases hopen

private theorem append_resumes {s : Text} (h : Woven IsInterpolation t o) (hs : Unclosed (s ++ t))
    (ho : Unclosed o ∨ Resumes t.length o) :
    Unclosed (s ++ o) ∨ Resumes (s ++ t).length (s ++ o) := by
  rcases ho with ho | ⟨before, t', o', rfl, hbefore, hwoven, hlength⟩
  · exact .inl (hs.exchange ho h.head_close)
  · refine .inr ⟨s ++ before, t', o', by simp only [List.append_assoc], ?_, hwoven, ?_⟩
    · rw [List.append_assoc]
      refine hs.exchange hbefore fun hfirst => h.head_close ?_
      cases before <;> exact hfirst
    · rw [List.length_append]
      omega

/-- Where nothing is closed, weaving closes something only by an interpolation it puts in. -/
theorem unclosed_or_resumes (h : Woven IsInterpolation t o) (ht : Unclosed t) :
    Unclosed o ∨ Resumes t.length o := by
  induction h with
  | nil => exact .inl ht
  | @mark c r t _ _ _ rest ih =>
    exact rest.append_resumes ht (ih (ht.within (List.suffix_append (c :: r) t).isInfix))
  | @plain c t _ _ _ rest ih =>
    exact rest.append_resumes (s := [c]) ht (ih (ht.within (List.suffix_cons c t).isInfix))
  | run hr hw rest => exact .inr (resumes_run hr hw rest)

/-- A mark that was none before weaving ends where what follows is woven. -/
theorem of_matchMark {c : CodePoint} {a : Mark} {n : Nat} (h : Woven IsInterpolation t o)
    (ht : matchMark c t = none) (ho : matchMark c o = some (a, n)) :
    ∃ r t' o', o = r ++ o' ∧ n = r.length ∧ Woven IsInterpolation t' o' ∧
      t'.length < t.length := by
  by_cases hc : c = .scalar '<'
  · -- The bracket would have begun a tag before, too.
    subst hc
    have hstarts : o.head?.any startsTag = false := by
      rcases h.head with hsame | ⟨hopen, -⟩
      · rw [hsame, matchMark_angle_eq_none.mp ht]
      · rw [hopen]
        rfl
    rw [matchMark_angle_eq_none.mpr hstarts] at ho
    cases ho
  obtain rfl := eq_interpolation_of_matchMark hc ho
  obtain ⟨inside, hinside⟩ := matchMark_eq_interpolation.mp ho
  obtain ⟨rfl, u, rest, rfl, hsplit, rfl⟩ := matchInterpolation_eq_some.mp hinside
  have hresumes : Resumes t.length (.scalar '\x7b' :: u) := by
    rcases h.head with hsame | ⟨-, hresumes⟩
    · obtain ⟨v, rfl⟩ := List.head?_eq_some_iff.mp hsame.symm
      have hv : Unclosed (.scalar '\x7b' :: v) :=
        .cons (by decide) (matchMark_brace_eq_none.mp ht)
      refine (h.unclosed_or_resumes hv).resolve_left fun hclosed => hclosed ?_
      rw [Text.splitAt?_eq_some hsplit]
      exact ⟨.scalar '\x7b' :: inside, rest, rfl⟩
    · exact hresumes
  obtain ⟨before, t', o', hu, hbefore, hwoven, hlength⟩ := hresumes
  cases before with
  | nil => cases hu
  | cons d before =>
    obtain ⟨rfl, hrest⟩ := List.cons.inj hu
    have hagain : Text.splitAt? "\x7d\x7d" u = some (before, o') :=
      (Text.splitAt?_eq_some_iff (by decide)).mpr
        ⟨hrest, hbefore.within (List.suffix_cons _ _).isInfix⟩
    obtain ⟨rfl, -⟩ := Prod.mk.inj (Option.some.inj (hsplit.symm.trans hagain))
    exact ⟨.scalar '\x7b' :: (inside ++ "\x7d\x7d"), t', o', hu,
      by simp [Text.ofString], hwoven, hlength⟩

/-- No Chinese is left outside the marks of what is woven. -/
theorem isHan_of_mem_parts (h : Woven IsInterpolation t o) {c : CodePoint}
    (hc : .plain c ∈ Text.parts matchMark o) : c.isHan = false := by
  -- Not by induction on the weaving: a mark that was none before swallows many of its steps.
  induction hn : t.length using Nat.strong_induction_on generalizing t o with
  | _ n ih =>
  subst hn
  have hfound {a : Mark} {text t' o' : Text}
      (hc : .plain c ∈ Part.found a text :: Text.parts matchMark o')
      (hwoven : Woven IsInterpolation t' o') (hlength : t'.length < t.length) : c.isHan = false := by
    rcases List.mem_cons.mp hc with hc | hc
    · cases hc
    · exact ih t'.length hlength hwoven hc rfl
  cases h with
  | nil => cases hc
  | @mark d r t o _ h rest =>
    rw [Text.parts_found (matchMark_append h fun ht => (ht ▸ rest).eq_nil)] at hc
    exact hfound hc rest (by rw [List.length_append, List.length_cons]; omega)
  | @plain d t o h hd rest =>
    cases ho : matchMark d o with
    | none =>
      rw [Text.parts_plain ho] at hc
      rcases List.mem_cons.mp hc with hc | hc
      · cases hc
        exact hd
      · exact ih t.length (Nat.lt_succ_self _) rest hc rfl
    | some found =>
      obtain ⟨a, n⟩ := found
      obtain ⟨r, t', o', rfl, rfl, hwoven, hlength⟩ := rest.of_matchMark h ho
      rw [← List.cons_append, Text.parts_found ho] at hc
      exact hfound hc hwoven (hlength.trans (Nat.lt_succ_self _))
  | @run r w t o hr hw rest =>
    rw [hw.parts_append] at hc
    obtain ⟨d, r, rfl, -⟩ := hr
    exact hfound hc rest (by rw [List.length_append, List.length_cons]; omega)

end Woven

end LocaleLift.Markup
