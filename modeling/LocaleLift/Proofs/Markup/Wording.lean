import LocaleLift.Proofs.Literal.Template
import LocaleLift.Proofs.Markup.Delimited

/-! What localizing words does to a template: each run of Chinese outside its marks is swapped for an
interpolation, and nothing else is touched. -/
namespace LocaleLift.Markup

open Extract (Finds)
open Text (Matches)

/-- The parts of a template with its words localized. Marks are kept, and so is what is no Chinese;
a run of Chinese, as long as it can be, is swapped for a look-up in an interpolation. -/
inductive Worded (scope : Scope) : List (Part Mark) → Draft → Prop where
  | nil : Worded scope [] []
  | mark {a : Mark} {raw : Text} {ps : List (Part Mark)} {draft : Draft}
      (rest : Worded scope ps draft) :
      Worded scope (.found a raw :: ps) (Draft.keep raw ++ draft)
  | plain {c : CodePoint} {ps : List (Part Mark)} {draft : Draft} (hc : c.isHan = false)
      (rest : Worded scope ps draft) : Worded scope (.plain c :: ps) (.kept c :: draft)
  | run {r : Text} {ps : List (Part Mark)} {draft : Draft} (hr : Text.IsRun .ideographs r)
      (hend : ∀ c, ps.head? = some (.plain c) → c.isHan = false)
      (rest : Worded scope ps draft) :
      Worded scope (r.map .plain ++ ps)
        (.swapped r (asInterpolation (scope.call "\x27" r)) :: draft)

private theorem wrapRuns_run {before r rest : Text} (hbefore : Text.hasHan before = false)
    (hr : Text.IsRun .ideographs r) (hend : ∀ c ∈ rest.head?, c.isHan = false)
    (wrap : Text → Text) : Text.wrapRuns wrap (Text.pieces .ideographs (before ++ (r ++ rest))) =
      before ++ wrap r ++ Text.wrapRuns wrap (Text.pieces .ideographs rest) := by
  rw [Text.pieces_run hbefore hr hend]
  by_cases hnil : before = []
  · subst hnil
    rfl
  · rw [if_neg hnil, List.append_assoc]
    rfl

private theorem runs_run {before r rest : Text} (hbefore : Text.hasHan before = false)
    (hr : Text.IsRun .ideographs r) (hend : ∀ c ∈ rest.head?, c.isHan = false) :
    Text.runs .ideographs (before ++ (r ++ rest)) = r :: Text.runs .ideographs rest := by
  rw [Text.runs, Text.pieces_run hbefore hr hend]
  by_cases hnil : before = []
  · subst hnil
    rfl
  · rw [if_neg hnil]
    rfl

private theorem flatten_plain (words : Text) :
    (words.map fun c => (.plain c : Part Mark)).flatMap Part.text = words := by
  rw [List.flatMap_map]
  exact List.flatMap_singleton' words

section Passes

variable {scope : Scope}

namespace Worded

variable {ps : List (Part Mark)} {draft : Draft}

theorem old_eq (h : Worded scope ps draft) : draft.old = ps.flatMap Part.text := by
  induction h with
  | nil => rfl
  | mark _ ih => rw [Draft.old_append, Draft.old_keep, ih, List.flatMap_cons, Part.text]
  | plain _ _ ih => rw [Draft.old_cons, ih, List.flatMap_cons, Stretch.old, Part.text]
  | @run r ps draft _ _ _ ih =>
    rw [Draft.old_cons, ih, List.flatMap_append, flatten_plain, Stretch.old]

/-- What holds no Chinese is kept. -/
private theorem keep {qs : List (Part Mark)}
    (hqs : Text.hasHan (qs.flatMap Part.text) = false) (h : Worded scope ps draft) :
    Worded scope (qs ++ ps) (Draft.keep (qs.flatMap Part.text) ++ draft) := by
  induction qs with
  | nil => exact h
  | cons q qs ih =>
    rw [List.flatMap_cons, Text.hasHan, List.any_append, Bool.or_eq_false_iff] at hqs
    have hrest := ih hqs.2
    rw [List.flatMap_cons, Draft.keep_append, List.append_assoc]
    cases q with
    | found a raw => exact .mark hrest
    | plain c => exact .plain (Text.hasHan_eq_false.mp hqs.1 c (List.mem_singleton.mpr rfl)) hrest

private theorem keep_words {words : Text} (hwords : Text.hasHan words = false)
    (h : Worded scope ps draft) :
    Worded scope (words.map .plain ++ ps) (Draft.keep words ++ draft) := by
  have hplain : Text.hasHan ((words.map fun c => (.plain c : Part Mark)).flatMap Part.text) =
      false := by
    rwa [flatten_plain]
  have hkeep := h.keep hplain
  rwa [flatten_plain] at hkeep

/-- What words before a mark become. -/
private theorem wrapWords (hnext : ∀ c, ps.head? ≠ some (.plain c)) (h : Worded scope ps draft)
    (words : Text) : ∃ more : Draft, Worded scope (words.map .plain ++ ps) (more ++ draft) ∧
      Finds (more.swaps.map Swap.old) more.new (Markup.wrapWords scope words) := by
  suffices hmore : ∃ more : Draft, Worded scope (words.map .plain ++ ps) (more ++ draft) ∧
      Text.runs .ideographs words = more.swaps.map Swap.old ∧
      Text.wrapRuns (fun r => asInterpolation (scope.call "\x27" r))
        (Text.pieces .ideographs words) = more.new by
    obtain ⟨more, hworded, hruns, hnew⟩ := hmore
    refine ⟨more, hworded, ?_⟩
    rw [← hruns, ← hnew]
    exact ⟨List.append_nil _, rfl⟩
  obtain ⟨rs, hrs⟩ := Text.exists_matches .ideographs words
  induction hrs with
  | @none words hwords =>
    refine ⟨Draft.keep words, h.keep_words hwords, ?_, ?_⟩
    · rw [Text.runs_eq_nil.mpr hwords, Draft.swaps_keep, List.map_nil]
    · rw [Text.wrapRuns_pieces hwords, Draft.new_keep]
  | @run before r rest rs hbefore hr hend _ ih =>
    obtain ⟨more, hworded, hruns, hnew⟩ := ih
    let run : Draft := [.swapped r (asInterpolation (scope.call "\x27" r))]
    have hrun : Worded scope (r.map .plain ++ (rest.map .plain ++ ps)) (run ++ (more ++ draft)) := by
      refine .run hr (fun c hc => ?_) hworded
      cases rest with
      | nil => exact absurd hc (hnext c)
      | cons d rest =>
        cases hc
        exact hend _ rfl
    refine ⟨Draft.keep before ++ (run ++ more), ?_, ?_, ?_⟩
    · have hall := hrun.keep_words hbefore
      simpa using hall
    · rw [runs_run hbefore hr hend, hruns, Draft.map_old_swaps_append, Draft.map_old_swaps_append,
        Draft.swaps_keep]
      rfl
    · rw [wrapRuns_run hbefore hr hend, hnew]
      simp [run, Stretch.new]

/-- What the words of a text token become, gathered so far and still to come. -/
private theorem localizeBetween (hnext : ∀ c, ps.head? ≠ some (.plain c))
    (h : Worded scope ps draft) {qs : List (Part Mark)} {qs' : List (Part Text)}
    (hsame : List.Forall₂ SamePart qs' qs) (words : Text) :
    ∃ more : Draft, Worded scope (words.map .plain ++ (qs ++ ps)) (more ++ draft) ∧
      Finds (more.swaps.map Swap.old) more.new (Markup.localizeBetween scope words qs') := by
  induction hsame generalizing words with
  | nil => exact wrapWords hnext h words
  | @cons q' q qs' qs hq _ ih =>
    cases hq with
    | plain c =>
      obtain ⟨more, hworded, hfinds⟩ := ih (words ++ [c])
      refine ⟨more, ?_, hfinds⟩
      simpa using hworded
    | found inside a raw =>
      obtain ⟨behind, hbehind, hrest⟩ := ih []
      have hmark : Worded scope (.found a raw :: (qs ++ ps)) (Draft.keep raw ++ (behind ++ draft)) :=
        .mark hbehind
      obtain ⟨more, hworded, hfinds⟩ := wrapWords (fun c h => by cases h) hmark words
      refine ⟨more ++ (Draft.keep raw ++ behind), ?_, ?_⟩
      · simpa using hworded
      · rw [Markup.localizeBetween, Draft.map_old_swaps_append, Draft.map_old_swaps_append]
        refine Extract.finds_bind.mpr ⟨_, _, _, hfinds, ?_, rfl⟩
        refine Extract.finds_map.mpr ⟨behind.new, ?_, ?_⟩
        · rwa [Draft.swaps_keep]
        · simp

private theorem localizeWords (hnext : ∀ c, ps.head? ≠ some (.plain c))
    (h : Worded scope ps draft) {qs : List (Part Mark)} {t : Text} (row : Row qs t) :
    ∃ more : Draft, Worded scope (qs ++ ps) (more ++ draft) ∧
      Finds (more.swaps.map Swap.old) more.new
        (Markup.localizeWords scope (qs.flatMap Part.text)) := by
  rw [Markup.localizeWords]
  split
  · rename_i hskip
    have hhan : Text.hasHan (qs.flatMap Part.text) = false := by
      rcases Bool.or_eq_true_iff.mp hskip with hblank | hhan
      · exact Text.hasHan_eq_false.mpr fun c hc =>
          CodePoint.isHan_of_isSpace (List.all_eq_true.mp hblank c hc)
      · simpa using hhan
    refine ⟨_, h.keep hhan, Extract.finds_pure.mpr ⟨?_, Draft.new_keep _⟩⟩
    rw [Draft.swaps_keep, List.map_nil]
  · exact h.localizeBetween hnext row.samePart []

end Worded

private theorem head_of_chunked {t : Text} {ts : List Token} (h : Chunked t ts)
    (hnext : ∀ u ∈ ts.head?, u.kind ≠ .text) (c : CodePoint) :
    (Text.parts matchMark t).head? ≠ some (.plain c) := by
  cases h with
  | nil => exact nofun
  | mark hm =>
    rw [Text.parts_found hm]
    exact nofun
  | words => exact absurd rfl (hnext _ rfl)

private theorem exists_worded (scope : Scope) {t : Text} {ts : List Token} (h : Chunked t ts)
    (hchain : ts.IsChain fun t u => ¬ (t.kind = .text ∧ u.kind = .text)) :
    ∃ draft : Draft, Worded scope (Text.parts matchMark t) draft ∧
      Finds (draft.swaps.map Swap.old) draft.new
        (localizeTokens .text (localizeWords scope) ts) := by
  induction h with
  | nil => exact ⟨[], .nil, rfl, rfl⟩
  | @mark c r t a k ts hm hk _ ih =>
    obtain ⟨draft, hworded, hfinds⟩ := ih hchain.of_cons
    refine ⟨Draft.keep (c :: r) ++ draft, ?_, ?_⟩
    · rw [Text.parts_found hm]
      exact .mark hworded
    · rw [localizeTokens, if_neg hk, pure_bind, Draft.map_old_swaps_append, Draft.swaps_keep]
      exact Extract.finds_map.mpr ⟨_, hfinds, by simp⟩
  | @words ps t ts _ row rest ih =>
    obtain ⟨draft, hworded, hfinds⟩ := ih hchain.of_cons
    have hnext : ∀ u ∈ ts.head?, u.kind ≠ .text := by
      cases hchain with
      | singleton => exact fun _ hu => by cases hu
      | cons_cons hboth =>
        rintro _ ⟨⟩ hu
        exact hboth ⟨rfl, hu⟩
    obtain ⟨more, hmore, hhead⟩ := hworded.localizeWords (head_of_chunked rest hnext) row
    refine ⟨more ++ draft, ?_, ?_⟩
    · rwa [row.parts_append]
    · rw [localizeTokens, if_pos rfl, Draft.map_old_swaps_append]
      refine Extract.finds_bind.mpr ⟨_, _, _, hhead, ?_, rfl⟩
      exact Extract.finds_map.mpr ⟨_, hfinds, by simp⟩

/-- Localizing words swaps each run of Chinese that stands outside comments, tags and interpolations
for an interpolation, in which its key is looked up. It keeps all else and finds just these runs. -/
theorem exists_draft_textPass (scope : Scope) (template : Text) :
    ∃ draft : Draft, Worded scope (Text.parts matchMark template) draft ∧
      draft.old = template ∧
      Finds (draft.swaps.map Swap.old) draft.new (textPass scope template) := by
  obtain ⟨draft, hworded, hfinds⟩ :=
    exists_worded scope (chunked_tokens template) (isChain_tokens template)
  refine ⟨draft, hworded, ?_, hfinds⟩
  rw [hworded.old_eq, Text.flatten_parts]

/-- A run ends at an interpolation, and where one is left open it goes by what stands there. -/
example : (textPass ⟨"n", .ofList [] "common", "$t"⟩
      "中\x7b\x7b '文' \x7d\x7d\x7b中国<b a='字'>\x7b\x7b 人").result =
    .ok ("\x7b\x7b $t('n.中') \x7d\x7d\x7b\x7b '文' \x7d\x7d\x7b\x7b\x7b $t('n.中国') \x7d\x7d" ++
      "<b a='字'>\x7b\x7b \x7b\x7b $t('n.人') \x7d\x7d") := by
  decide +kernel

end Passes

end LocaleLift.Markup
