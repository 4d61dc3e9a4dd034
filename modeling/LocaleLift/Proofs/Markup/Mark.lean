import LocaleLift.Markup.Words
import LocaleLift.Proofs.Text.Search

/-! What is found at a place in markup depends only on what belongs to it, unless it reaches to the
end. -/
namespace LocaleLift.Markup

variable {c : CodePoint} {r s t u : Text} {a : Mark} {n : Nat}

private theorem tagLength_le (q : Option CodePoint) (t : Text) : tagLength q t ≤ t.length := by
  induction t generalizing q with
  | nil => cases q <;> exact Nat.le_refl 0
  | cons c t ih =>
    rw [List.length_cons, Nat.add_comm]
    cases q with
    | some d =>
      rw [tagLength]
      exact Nat.add_le_add_left (ih _) 1
    | none =>
      rw [tagLength]
      split
      · exact Nat.le_add_right 1 _
      · exact Nat.add_le_add_left (ih _) 1

private theorem through?_eq_some {pattern : Text} : through? pattern t = some n ↔
    ∃ before rest, Text.splitAt? pattern t = some (before, rest) ∧
      before.length + pattern.length = n := by
  rw [through?, Option.map_eq_some_iff]
  exact ⟨fun ⟨(before, rest), h, hn⟩ => ⟨before, rest, h, hn⟩,
    fun ⟨before, rest, h, hn⟩ => ⟨(before, rest), h, hn⟩⟩

private theorem through?_le {pattern : Text} (h : through? pattern t = some n) : n ≤ t.length := by
  obtain ⟨before, rest, hsplit, rfl⟩ := through?_eq_some.mp h
  rw [Text.splitAt?_eq_some hsplit, List.length_append, List.length_append]
  exact Nat.le_add_right _ _

/-- A mark reaches no further than the text. -/
theorem exists_of_matchMark (h : matchMark c t = some (a, n)) :
    ∃ r u, t = r ++ u ∧ n = r.length := by
  suffices hle : n ≤ t.length from
    ⟨t.take n, t.drop n, (List.take_append_drop n t).symm, (List.length_take_of_le hle).symm⟩
  rw [matchMark] at h
  split at h
  · split at h
    · rename_i hcomment
      cases h
      have hlength := (List.isPrefixOf_iff_prefix.mp hcomment).length_le
      cases hthrough : through? "-->" (t.drop 3) with
      | none => exact Nat.le_refl _
      | some m =>
        have := through?_le hthrough
        rw [List.length_drop] at this
        have h3 : 3 ≤ t.length := hlength
        change m + 3 ≤ t.length
        omega
    · split at h
      · cases h
        exact tagLength_le none t
      · cases h
  · split at h
    · rename_i hopen
      obtain ⟨m, hm, h⟩ := Option.map_eq_some_iff.mp h
      cases h
      have := through?_le hm
      rw [List.length_drop] at this
      cases t with
      | nil => simp at hopen
      | cons d t =>
        rw [List.length_cons] at this ⊢
        omega
    · cases h

private theorem through?_append {pattern : Text} (hne : pattern ≠ []) {k : Nat}
    (hk : k ≤ r.length) (h : through? pattern ((r ++ t).drop k) = some n) (hn : n + k = r.length)
    (u : Text) : through? pattern ((r ++ u).drop k) = some n := by
  obtain ⟨before, rest, hsplit, hlength⟩ := through?_eq_some.mp h
  have hsplits := Text.splitAt?_eq_some hsplit
  rw [List.drop_append_of_le_length hk] at hsplits ⊢
  have hdrop : (r.drop k).length = (before ++ pattern).length := by
    rw [List.length_drop, List.length_append]
    omega
  obtain ⟨hr, -⟩ := List.append_inj hsplits hdrop
  rw [hr]
  exact through?_eq_some.mpr ⟨before, u, Text.splitAt?_append hne hsplit u, hlength⟩

/-- A tag that does not reach to the end ends with a bracket. -/
private theorem tagLength_append {q : Option CodePoint} (ht : t ≠ [])
    (h : tagLength q (r ++ t) = r.length) :
    (∃ s, r = s ++ [.scalar '>']) ∧ ∀ u, tagLength q (r ++ u) = r.length := by
  induction r generalizing q with
  | nil =>
    cases t with
    | nil => exact absurd rfl ht
    | cons d t =>
      cases q with
      | some e =>
        rw [List.nil_append, tagLength, List.length_nil] at h
        omega
      | none =>
        rw [List.nil_append, tagLength, List.length_nil] at h
        split at h
        · cases h
        · omega
  | cons d r ih =>
    have hmore {q : Option CodePoint} (h : 1 + tagLength q (r ++ t) = (d :: r).length) :
        (∃ s, d :: r = s ++ [.scalar '>']) ∧
          ∀ u, 1 + tagLength q (r ++ u) = (d :: r).length := by
      rw [List.length_cons, Nat.add_comm] at h
      obtain ⟨⟨s, hs⟩, hu⟩ := ih (Nat.succ.inj h)
      refine ⟨⟨d :: s, by rw [hs]; rfl⟩, fun u => ?_⟩
      rw [hu u, List.length_cons, Nat.add_comm]
    cases q with
    | some e =>
      rw [List.cons_append, tagLength] at h
      exact hmore h
    | none =>
      rw [List.cons_append, tagLength] at h
      simp only [List.cons_append, tagLength]
      split at h
      · rename_i hd
        subst hd
        obtain rfl : r = [] := by simpa using h
        exact ⟨⟨[], rfl⟩, fun u => by simp⟩
      · rename_i hd
        simp only [if_neg hd]
        exact hmore h

/-- A text without the last code point of another one begins that one only inside it. -/
private theorem prefix_of_not_mem {p : Text} {d : CodePoint} (h : p <+: s ++ [d] ++ t)
    (hd : d ∉ p) : p <+: s := by
  rcases List.prefix_or_prefix_of_prefix h (List.prefix_append (s ++ [d]) t) with hp | hp
  · rcases List.prefix_concat_iff.mp hp with rfl | hp
    · exact absurd (by simp) hd
    · exact hp
  · exact absurd (hp.subset (by simp)) hd

/-- What is found at a place is found there whatever follows it, unless it reaches to the end. -/
theorem matchMark_append (h : matchMark c (r ++ t) = some (a, r.length)) (hu : t = [] → u = []) :
    matchMark c (r ++ u) = some (a, r.length) := by
  by_cases ht : t = []
  · rw [hu ht]
    rw [ht] at h
    exact h
  have hlength : r.length ≠ (r ++ t).length := by
    rw [List.length_append]
    have := List.length_pos_iff.mpr ht
    omega
  rw [matchMark] at h ⊢
  split at h
  · rename_i hc
    rw [if_pos hc]
    split at h
    · rename_i hcomment
      obtain ⟨rfl, hend⟩ := Prod.mk.inj (Option.some.inj h)
      cases hthrough : through? "-->" ((r ++ t).drop 3) with
      | none =>
        rw [hthrough] at hend
        exact absurd hend.symm hlength
      | some m =>
        rw [hthrough] at hend
        have hm : m + 3 = r.length := hend
        have hopen : Text.startsWith "!--" (r ++ u) = true := by
          have hr : ("!--" : Text) <+: r :=
            List.prefix_of_prefix_length_le (List.isPrefixOf_iff_prefix.mp hcomment)
              (List.prefix_append r t) (hm ▸ Nat.le_add_left 3 m)
          exact List.isPrefixOf_iff_prefix.mpr (hr.trans (List.prefix_append r u))
        rw [if_pos hopen, through?_append (by decide) (hm ▸ Nat.le_add_left 3 m) hthrough hm u]
        exact congrArg (fun n => some (Mark.comment, n)) hm
    · rename_i hcomment
      split at h
      · rename_i hstarts
        obtain ⟨rfl, hend⟩ := Prod.mk.inj (Option.some.inj h)
        obtain ⟨⟨s, hs⟩, htag⟩ := tagLength_append ht hend
        have hno : ¬ Text.startsWith "!--" (r ++ u) = true := fun hopen => by
          rw [Text.startsWith, List.isPrefixOf_iff_prefix, hs] at hopen
          refine hcomment (List.isPrefixOf_iff_prefix.mpr ?_)
          rw [hs, List.append_assoc]
          exact (prefix_of_not_mem hopen (by decide)).trans (List.prefix_append s _)
        have hhead : (r ++ u).head? = (r ++ t).head? := by
          rw [hs, List.append_assoc, List.append_assoc]
          cases s <;> rfl
        rw [if_neg hno, hhead, if_pos hstarts, htag u]
      · cases h
  · rename_i hc
    rw [if_neg hc]
    split at h
    · rename_i hopen
      obtain ⟨m, hm, h⟩ := Option.map_eq_some_iff.mp h
      obtain ⟨rfl, hend⟩ := Prod.mk.inj h
      have hpos : 1 ≤ r.length := hend ▸ Nat.le_add_left 1 m
      have hhead : (r ++ u).head? = (r ++ t).head? := by
        cases r with
        | nil => cases hpos
        | cons d r => rfl
      rw [hhead, if_pos hopen, through?_append (by decide) hpos hm hend u]
      exact congrArg (fun n => some (Mark.interpolation, n)) hend
    · cases h

/-- An angle bracket begins no mark exactly if no letter, slash or exclamation mark follows it. -/
theorem matchMark_angle_eq_none :
    matchMark (.scalar '<') t = none ↔ t.head?.any startsTag = false := by
  rw [matchMark, if_pos rfl]
  split
  · rename_i hcomment
    obtain ⟨u, rfl⟩ := List.isPrefixOf_iff_prefix.mp hcomment
    exact iff_of_false nofun nofun
  · split <;> simp_all

/-- A text ends with the first occurrence of a pattern in it. -/
def EndsFirst (pattern t : Text) : Prop :=
  pattern <:+ t ∧ ¬ pattern <:+: t.dropLast

/-- A comment ends with the first mark that closes it behind the one that opens it, or with the
text. -/
theorem comment_of_matchMark (h : matchMark c (r ++ t) = some (.comment, r.length)) :
    ∃ body, c :: r = "<!--" ++ body ∧
      (EndsFirst "-->" body ∨ t = [] ∧ ¬ ("-->" : Text) <:+: body) := by
  rw [matchMark] at h
  split at h
  · rename_i hc
    subst hc
    split at h
    · rename_i hopen
      obtain ⟨u, hu⟩ := List.isPrefixOf_iff_prefix.mp hopen
      have hdrop : (r ++ t).drop 3 = u := by rw [← hu]; rfl
      rw [hdrop] at h
      have hend := (Prod.mk.inj (Option.some.inj h)).2
      cases hthrough : through? "-->" u with
      | none =>
        rw [hthrough, Option.map_none, Option.getD_none, List.length_append] at hend
        obtain rfl : t = [] := List.eq_nil_of_length_eq_zero (by omega)
        rw [List.append_nil] at hu
        rw [through?, Option.map_eq_none_iff, Text.splitAt?_eq_none] at hthrough
        exact ⟨u, by rw [← hu]; rfl, .inr ⟨rfl, hthrough⟩⟩
      | some m =>
        obtain ⟨before, rest, hsplit, rfl⟩ := through?_eq_some.mp hthrough
        rw [hthrough] at hend
        obtain ⟨rfl, hfirst⟩ := (Text.splitAt?_eq_some_iff (by decide)).mp hsplit
        rw [← List.append_assoc] at hu
        obtain ⟨rfl, rfl⟩ := List.append_inj hu (by
          rw [← hend, List.length_append, List.length_append, Nat.add_comm]
          rfl)
        refine ⟨before ++ "-->", rfl, .inl ⟨List.suffix_append _ _, ?_⟩⟩
        rwa [List.dropLast_append_of_ne_nil (by decide)]
    · split at h <;> cases h
  · split at h
    · obtain ⟨_, -, h⟩ := Option.map_eq_some_iff.mp h
      cases h
    · cases h

/-- Two braces open an interpolation, as far as two others close it later. -/
theorem matchInterpolation_eq_some {inside : Text} : matchInterpolation c t = some (inside, n) ↔
    c = .scalar '\x7b' ∧ ∃ u rest, t = .scalar '\x7b' :: u ∧
      Text.splitAt? "\x7d\x7d" u = some (inside, rest) ∧ inside.length + 3 = n := by
  rw [matchInterpolation]
  constructor
  · intro h
    split at h
    · rename_i hopen
      obtain ⟨hc, hhead⟩ := Bool.and_eq_true_iff.mp hopen
      obtain ⟨⟨_, rest⟩, hsplit, h⟩ := Option.map_eq_some_iff.mp h
      cases h
      obtain ⟨u, rfl⟩ := List.head?_eq_some_iff.mp (beq_iff_eq.mp hhead)
      exact ⟨of_decide_eq_true hc, u, rest, rfl, hsplit, rfl⟩
    · cases h
  · rintro ⟨rfl, u, rest, rfl, hsplit, rfl⟩
    rw [if_pos (by simp), List.drop_one, List.tail_cons, hsplit]
    rfl

/-- Among the parts of markup they are the same as among the parts of a text. -/
theorem matchMark_eq_interpolation : matchMark c t = some (.interpolation, n) ↔
    ∃ inside, matchInterpolation c t = some (inside, n) := by
  simp only [matchInterpolation_eq_some]
  rw [matchMark]
  constructor
  · intro h
    split at h
    · split at h
      · cases h
      · split at h <;> cases h
    · split at h
      · rename_i hopen
        obtain ⟨hc, hhead⟩ := Bool.and_eq_true_iff.mp hopen
        obtain ⟨m, hm, h⟩ := Option.map_eq_some_iff.mp h
        cases h
        obtain ⟨u, rfl⟩ := List.head?_eq_some_iff.mp (beq_iff_eq.mp hhead)
        obtain ⟨inside, rest, hsplit, rfl⟩ := through?_eq_some.mp hm
        exact ⟨inside, of_decide_eq_true hc, u, rest, rfl, hsplit, rfl⟩
      · cases h
  · rintro ⟨inside, rfl, u, rest, rfl, hsplit, rfl⟩
    have hthrough : through? "\x7d\x7d" u = some (inside.length + 2) :=
      through?_eq_some.mpr ⟨inside, rest, hsplit, rfl⟩
    rw [if_neg (by decide), if_pos (by simp), List.drop_one, List.tail_cons, hthrough]
    rfl

/-- A second opening brace begins an interpolation, unless it is not closed. -/
theorem matchMark_brace_eq_none : matchMark (.scalar '\x7b') (.scalar '\x7b' :: t) = none ↔
    ¬ ("\x7d\x7d" : Text) <:+: t := by
  rw [matchMark, if_neg (by decide), if_pos (by simp), Option.map_eq_none_iff, through?,
    Option.map_eq_none_iff, Text.splitAt?_eq_none, List.drop_one, List.tail_cons]

/-- All marks but interpolations begin with an angle bracket. -/
theorem eq_interpolation_of_matchMark (hc : c ≠ .scalar '<') (h : matchMark c t = some (a, n)) :
    a = .interpolation := by
  rw [matchMark, if_neg hc] at h
  split at h
  · obtain ⟨_, -, h⟩ := Option.map_eq_some_iff.mp h
    exact (Prod.mk.inj h).1.symm
  · cases h

/-- What opens no interpolation in markup opens none in a first part of it. -/
theorem matchInterpolation_eq_none (h : matchMark c (s ++ t) = none) :
    matchInterpolation c s = none := by
  cases hs : matchInterpolation c s with
  | none => rfl
  | some found =>
    obtain ⟨inside, n⟩ := found
    obtain ⟨rfl, u, rest, rfl, hsplit, -⟩ := matchInterpolation_eq_some.mp hs
    cases hmore : Text.splitAt? "\x7d\x7d" (u ++ t) with
    | none =>
      have hnone := Text.splitAt?_eq_none.mp hmore
      rw [Text.splitAt?_eq_none.mpr fun hu => hnone (hu.trans (List.prefix_append u t).isInfix)]
        at hsplit
      cases hsplit
    | some found =>
      obtain ⟨inside', rest'⟩ := found
      have hmark := matchMark_eq_interpolation.mpr ⟨inside',
        matchInterpolation_eq_some.mpr ⟨rfl, u ++ t, rest', rfl, hmore, rfl⟩⟩
      rw [List.cons_append, hmark] at h
      cases h

/-- An interpolation of markup is one of every text that begins with it. -/
theorem exists_matchInterpolation (h : matchMark c (r ++ t) = some (.interpolation, r.length))
    (u : Text) : ∃ inside, matchInterpolation c (r ++ u) = some (inside, r.length) := by
  obtain ⟨inside, hmatch⟩ := matchMark_eq_interpolation.mp h
  obtain ⟨rfl, v, rest, hv, hsplit, hlength⟩ := matchInterpolation_eq_some.mp hmatch
  rw [Text.splitAt?_eq_some hsplit, ← List.cons_append] at hv
  obtain ⟨rfl, -⟩ := List.append_inj hv (by
    rw [← hlength, List.length_cons, List.length_append]
    rfl)
  have hagain := Text.splitAt?_append (by decide) hsplit u
  exact ⟨inside, matchInterpolation_eq_some.mpr ⟨rfl, _, u, rfl, hagain, hlength⟩⟩

/-- Where nothing begins in markup, nothing begins in a first part of it. -/
theorem matchMark_eq_none_of_append (h : matchMark c (s ++ t) = none) : matchMark c s = none := by
  by_cases hc : c = .scalar '<'
  · subst hc
    rw [matchMark_angle_eq_none] at h ⊢
    cases s with
    | nil => rfl
    | cons d s => exact h
  · cases hs : matchMark c s with
    | none => rfl
    | some found =>
      obtain ⟨a, n⟩ := found
      obtain rfl := eq_interpolation_of_matchMark hc hs
      obtain ⟨inside, hinside⟩ := matchMark_eq_interpolation.mp hs
      rw [matchInterpolation_eq_none h] at hinside
      cases hinside

end LocaleLift.Markup
