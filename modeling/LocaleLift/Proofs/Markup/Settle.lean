import LocaleLift.Proofs.Markup.Localized
import LocaleLift.Proofs.Markup.Woven

/-! Localizing words a second time finds nothing, so that it comes to rest at once. -/
namespace LocaleLift.Markup

open Extract (Meets Quiet)

/-- A row without Chinese is left as it is. -/
private theorem Row.woven {p : Text → Prop} {ps : List (Part Mark)} {t o : Text} (row : Row ps t)
    (hhan : ∀ c ∈ ps.flatMap Part.text, c.isHan = false) (rest : Woven p t o) :
    Woven p (ps.flatMap Part.text ++ t) (ps.flatMap Part.text ++ o) := by
  induction row with
  | nil => exact rest
  | @plain c ps _ h _ ih =>
    obtain ⟨hc, hps⟩ := List.forall_mem_cons.mp hhan
    exact .plain h hc (ih hps rest)
  | @interpolation c r ps _ h _ ih =>
    rw [List.flatMap_cons, List.append_assoc, List.append_assoc]
    exact .mark h (ih (fun d hd => hhan d (List.mem_append_right _ hd)) rest)

/-- No mark begins in a text, as it stands before some rest. -/
def Bare : Text → Text → Prop
  | [], _ => True
  | c :: s, t => matchMark c (s ++ t) = none ∧ Bare s t

theorem bare_append {s s' t : Text} : Bare (s ++ s') t ↔ Bare s (s' ++ t) ∧ Bare s' t := by
  induction s with
  | nil => exact (and_iff_right trivial).symm
  | cons c s ih => rw [List.cons_append, Bare, Bare, ih, List.append_assoc, and_assoc]

theorem Bare.woven {p : Text → Prop} {s t o : Text} (h : Bare s t) (hs : Text.hasHan s = false)
    (rest : Woven p t o) : Woven p (s ++ t) (s ++ o) := by
  induction s with
  | nil => exact rest
  | cons c s ih =>
    obtain ⟨hc, hs⟩ := List.forall_mem_cons.mp (Text.hasHan_eq_false.mp hs)
    exact .plain h.1 hc (ih h.2 (Text.hasHan_eq_false.mpr hs))

theorem unclosed_of_isRun {r : Text} (h : Text.IsRun .ideographs r) : Unclosed r := by
  obtain ⟨c, t, rfl, hc, ht⟩ := h
  refine unclosed_of_not_mem fun hmem => ?_
  rcases List.mem_cons.mp hmem with rfl | hmem
  · cases hc
  · cases ht _ hmem

/-- An interpolation in which a run of Chinese is looked up. -/
def LooksUp (scope : Scope) (w : Text) : Prop :=
  ∃ r, Text.IsRun .ideographs r ∧ w = asInterpolation (scope.call "\x27" r)

theorem LooksUp.isInterpolation {scope : Scope} (h : IsUnclosed scope) {w : Text}
    (hw : LooksUp scope w) : IsInterpolation w := by
  obtain ⟨r, hr, rfl⟩ := hw
  exact h.isInterpolation (unclosed_of_isRun hr)

section Weaving

variable {scope : Scope}

private theorem woven_wrapRuns {ps : List Piece} {t o : Text}
    (hruns : ∀ r, .run r ∈ ps → Text.IsRun .ideographs r)
    (hplain : ∀ s, .plain s ∈ ps → Text.hasHan s = false)
    (hbare : Bare (ps.flatMap Piece.text) t) (rest : Woven (LooksUp scope) t o) :
    Woven (LooksUp scope) (ps.flatMap Piece.text ++ t)
      (Text.wrapRuns (fun r => asInterpolation (scope.call "\x27" r)) ps ++ o) := by
  induction ps with
  | nil => exact rest
  | cons p ps ih =>
    rw [List.flatMap_cons] at hbare ⊢
    obtain ⟨hp, hps⟩ := bare_append.mp hbare
    have hmore := ih (fun r hr => hruns r (List.mem_cons_of_mem p hr))
      (fun s hs => hplain s (List.mem_cons_of_mem p hs)) hps
    cases p with
    | plain s =>
      rw [Text.wrapRuns, List.append_assoc, List.append_assoc]
      exact hp.woven (hplain s (List.mem_cons_self ..)) hmore
    | run r =>
      have hr := hruns r (List.mem_cons_self ..)
      rw [Text.wrapRuns, List.append_assoc, List.append_assoc]
      exact .run hr ⟨r, hr, rfl⟩ hmore

private theorem meets_wrapWords {words t : Text} (hbare : Bare words t) :
    Meets (fun new => ∀ o, Woven (LooksUp scope) t o →
      Woven (LooksUp scope) (words ++ t) (new ++ o)) (wrapWords scope words) := by
  refine ⟨_, rfl, fun o rest => ?_⟩
  have hpieces := Text.flatten_pieces .ideographs words
  rw [← hpieces] at hbare
  have hwoven := woven_wrapRuns (fun _ => Text.isRun_of_mem_pieces)
    (fun _ => Text.hasHan_of_mem_pieces) hbare rest
  rwa [hpieces] at hwoven

private theorem meets_localizeBetween {words t : Text}
    {ps : List (Part Mark)} {qs : List (Part Text)} (row : Row ps t)
    (hsame : List.Forall₂ SamePart qs ps) (hbare : Bare words (ps.flatMap Part.text ++ t)) :
    Meets (fun new => ∀ o, Woven (LooksUp scope) t o →
      Woven (LooksUp scope) (words ++ ps.flatMap Part.text ++ t) (new ++ o))
      (localizeBetween scope words qs) := by
  induction row generalizing words qs with
  | nil =>
    cases hsame
    rw [List.flatMap_nil, List.append_nil]
    exact meets_wrapWords hbare
  | @plain c ps t hc _ ih =>
    cases hsame with
    | cons hq hqs =>
    cases hq
    have hmore : Bare (words ++ [c]) (ps.flatMap Part.text ++ t) :=
      bare_append.mpr ⟨hbare, hc, trivial⟩
    have hrest := ih hqs hmore
    rw [List.append_assoc words] at hrest
    exact hrest
  | @interpolation c r ps t hc _ ih =>
    cases hsame with
    | cons hq hqs =>
    cases hq
    refine Extract.meets_bind.mpr ((meets_wrapWords hbare).mono fun head hhead => ?_)
    have hnone : Bare [] (ps.flatMap Part.text ++ t) := trivial
    refine Extract.meets_bind.mpr ((ih hqs hnone).mono fun new hnew => ?_)
    refine Extract.meets_pure.mpr fun o rest => ?_
    have hmark := Woven.mark hc (hnew o rest)
    simpa [Part.text] using hhead (c :: r ++ (new ++ o)) (by simpa [Part.text] using hmark)

theorem meets_localizeWords {ps : List (Part Mark)} {t : Text} (row : Row ps t) :
    Meets (fun new => ∀ o, Woven (LooksUp scope) t o →
      Woven (LooksUp scope) (ps.flatMap Part.text ++ t) (new ++ o))
      (localizeWords scope (ps.flatMap Part.text)) := by
  rw [localizeWords]
  split
  · rename_i hskip
    refine Extract.meets_pure.mpr fun o rest => row.woven (fun c hc => ?_) rest
    rcases Bool.or_eq_true_iff.mp hskip with hblank | hhan
    · exact CodePoint.isHan_of_isSpace (List.all_eq_true.mp hblank c hc)
    · exact Text.hasHan_eq_false.mp (by simpa using hhan) c hc
  · exact meets_localizeBetween row row.samePart trivial

/-- Localizing words weaves. -/
theorem meets_textPass (scope : Scope) (markup : Text) :
    Meets (Woven (LooksUp scope) markup) (textPass scope markup) := by
  rw [textPass]
  have hchunked := chunked_tokens markup
  generalize tokens markup = ts at hchunked
  induction hchunked with
  | nil => exact Extract.meets_pure.mpr .nil
  | mark hmark hk _ ih =>
    rw [localizeTokens, if_neg hk, pure_bind]
    refine Extract.meets_bind.mpr (ih.mono fun new hnew => ?_)
    exact Extract.meets_pure.mpr (.mark hmark hnew)
  | words _ row _ ih =>
    rw [localizeTokens, if_pos rfl]
    refine Extract.meets_bind.mpr ((meets_localizeWords row).mono fun head hhead => ?_)
    refine Extract.meets_bind.mpr (ih.mono fun new hnew => ?_)
    exact Extract.meets_pure.mpr (hhead new hnew)

theorem isWordless_of_woven (h : IsUnclosed scope) {markup new : Text}
    (hwoven : Woven (LooksUp scope) markup new) : IsWordless new :=
  fun _ ht htext _ hc => (hwoven.mono fun _ => LooksUp.isInterpolation h).isHan_of_mem_parts
    (mem_parts_of_token ht htext hc)

/-- Passes over the words of markup come to a text that the next one leaves as it is. The number
bounds all of them, that last one included. -/
inductive RestsWithin (scope : Scope) : Nat → Text → Text → Prop where
  | rest {n : Nat} {markup : Text} (h : (textPass scope markup).result = .ok markup) :
      RestsWithin scope (n + 1) markup markup
  | more {n : Nat} {markup new out : Text} (h : (textPass scope markup).result = .ok new)
      (hne : new ≠ markup) (rest : RestsWithin scope n new out) :
      RestsWithin scope (n + 1) markup out

/-- A limit that allows this many passes cuts nothing off. -/
theorem RestsWithin.settle {n m : Nat} {markup out : Text} (h : RestsWithin scope n markup out)
    (hnm : n ≤ m) : (settle scope m markup).result = .ok out := by
  induction h generalizing m with
  | @rest n markup h =>
    obtain ⟨m, rfl⟩ := Nat.exists_eq_add_of_le' hnm
    refine Extract.bind_eq_ok.mpr ⟨markup, h, ?_⟩
    rw [if_pos rfl]
    rfl
  | @more n markup new out h hne _ ih =>
    obtain ⟨m, rfl⟩ := Nat.exists_eq_add_of_le' hnm
    refine Extract.bind_eq_ok.mpr ⟨new, h, ?_⟩
    rw [if_neg hne]
    exact ih (Nat.le_add_left n m)

private theorem exists_textPass (h : IsUnclosed scope) (markup : Text) :
    ∃ new, (textPass scope markup).result = .ok new ∧ IsWordless new ∧
      Quiet new (textPass scope new) := by
  obtain ⟨new, hnew, hwoven⟩ := meets_textPass scope markup
  have hwordless := isWordless_of_woven h hwoven
  exact ⟨new, hnew, hwordless, (restsAt_textPass new new).mpr ⟨rfl, hwordless⟩⟩

private theorem restsWithin_two {markup new : Text}
    (hnew : (textPass scope markup).result = .ok new)
    (hquiet : Quiet new (textPass scope new)) : RestsWithin scope 2 markup new := by
  by_cases h : new = markup
  · subst h
    exact .rest hnew
  · exact .more hnew h (.rest hquiet.2)

/-- What becomes of a template before its words are settled. -/
def unsettled [Script.Parser] (scope : Scope) (template : Text) : Extract Text := do
  interpolationPass scope (← textPass scope (← attributePass scope template))

private theorem localize_eq_ok [Script.Parser] {template out : Text} :
    (localize scope template).result = .ok out ↔
    ∃ markup, (unsettled scope template).result = .ok markup ∧
      (settle scope 5 markup).result = .ok out := by
  simp only [localize, unsettled, Extract.bind_eq_ok]
  constructor
  · rintro ⟨first, hfirst, second, hsecond, third, hthird, hout⟩
    exact ⟨third, ⟨first, hfirst, second, hsecond, hthird⟩, hout⟩
  · rintro ⟨third, ⟨first, hfirst, second, hsecond, hthird⟩, hout⟩
    exact ⟨first, hfirst, second, hsecond, third, hthird, hout⟩

/-- Localizing words leaves none outside interpolations, so that it finds nothing when it is done
again: the words of every template are settled by the second pass, whatever marks are left open in
it. -/
theorem textPass_settles [Script.Parser] (h : IsUnclosed scope) :
    (∀ markup, ∃ new, (textPass scope markup).result = .ok new ∧ IsWordless new ∧
      Quiet new (textPass scope new) ∧ RestsWithin scope 2 markup new) ∧
    ∀ template out,
      ((localize scope template).result = .ok out ↔
        ∃ markup, (unsettled scope template).result = .ok markup ∧
          RestsWithin scope 2 markup out) ∧
      ((localize scope template).result = .ok out → Quiet out (textPass scope out)) := by
  refine ⟨fun markup => ?_, fun template out => ?_⟩
  · obtain ⟨new, hnew, hwordless, hquiet⟩ := exists_textPass h markup
    exact ⟨new, hnew, hwordless, hquiet, restsWithin_two hnew hquiet⟩
  have hsettle {markup : Text} (hout : (settle scope 5 markup).result = .ok out) :
      RestsWithin scope 2 markup out ∧ Quiet out (textPass scope out) := by
    obtain ⟨new, hnew, -, hquiet⟩ := exists_textPass h markup
    have hrests := restsWithin_two hnew hquiet
    obtain rfl := Except.ok.inj (hout.symm.trans (hrests.settle (by decide)))
    exact ⟨hrests, hquiet⟩
  refine ⟨localize_eq_ok.trans ?_, fun hout => ?_⟩
  · refine exists_congr fun markup => and_congr_right fun _ => ?_
    exact ⟨fun hout => (hsettle hout).1, fun hrests => hrests.settle (by decide)⟩
  · obtain ⟨markup, -, hout⟩ := localize_eq_ok.mp hout
    exact (hsettle hout).2

/-- An interpolation that is left open may swallow a tag once its words are localized. -/
theorem textPass_settles_opened :
    let scope : Scope := ⟨"test", .ofList [] "common", "$t"⟩
    let template : Text := "\x7b\x7b <b>中"
    let new : Text := "\x7b\x7b <b>\x7b\x7b $t('test.中') \x7d\x7d"
    IsUnclosed scope ∧ tokens template = [⟨.text, "\x7b\x7b "⟩, ⟨.tag, "<b>"⟩, ⟨.text, "中"⟩] ∧
      (textPass scope template).result = .ok new ∧ tokens new = [⟨.text, new⟩] ∧
      Quiet new (textPass scope new) ∧ RestsWithin scope 2 template new ∧
      (localize scope template).result = .ok new := by
  intro scope template new
  have hscope : IsUnclosed scope := ⟨by decide, by decide, by decide⟩
  have hnew : (textPass scope template).result = .ok new := by decide
  obtain ⟨hpass, hlocalize⟩ := textPass_settles hscope
  obtain ⟨new', hnew', -, hquiet, hrests⟩ := hpass template
  obtain rfl := Except.ok.inj (hnew.symm.trans hnew')
  have hunsettled : (unsettled scope template).result = .ok new := by decide
  exact ⟨hscope, by decide, hnew, by decide, hquiet, hrests,
    (hlocalize template new).1.mpr ⟨new, hunsettled, .rest hquiet.2⟩⟩

end Weaving

end LocaleLift.Markup
