import LocaleLift.Proofs.Glob
import LocaleLift.Proofs.Run.Walk
import LocaleLift.Run.Command

/-! A walk and its own output: what the patterns of the output root leave out. -/
namespace LocaleLift

/-- A name as it stands in a path that is read: it has no slash, and is neither empty nor a single
point. -/
def Path.IsName (n : Text) : Prop :=
  n ≠ [] ∧ n ≠ "." ∧ .scalar '/' ∉ n

instance : DecidablePred Path.IsName :=
  fun n => inferInstanceAs (Decidable (n ≠ [] ∧ n ≠ "." ∧ .scalar '/' ∉ n))

namespace Run

section Output

variable {src : Path} {r s : List Text}

private theorem toText_of_ne_nil {names : List Text} (h : names ≠ []) :
    (⟨0, names⟩ : Path).toText = Text.join "/" names := by
  cases names with
  | nil => exact absurd rfl h
  | cons => rfl

private theorem outputPatterns_below (src : Path) (hr : r ≠ []) :
    outputPatterns src (src.below r) = [Text.join "/" r, Text.join "/" r ++ "/*"] := by
  have hrel : (src.below r).relativeTo? src = some ⟨0, r⟩ := by
    simp [Path.relativeTo?, Path.below]
  rw [outputPatterns, hrel]
  dsimp only
  rw [toText_of_ne_nil hr]

/-- Without backslashes a path is seen as it is written. -/
private theorem withSlashes_toText (h : ∀ n ∈ s, .scalar '\\' ∉ n) :
    (⟨0, s⟩ : Path).toText.withSlashes = (⟨0, s⟩ : Path).toText := by
  by_cases hs : s = []
  · subst hs
    decide
  · rw [toText_of_ne_nil hs, Text.withSlashes]
    refine (List.map_congr_left fun c hc => ?_).trans (List.map_id _)
    rw [if_neg]
    · rfl
    · rintro rfl
      obtain hslash | ⟨n, hn, hmem⟩ := Text.mem_join hc
      · exact absurd hslash (by decide)
      · exact h n hn hmem

private theorem matches_outputPatterns {t : Text} (hliteral : Glob.IsLiteral (Text.join "/" r)) :
    (∃ g ∈ [Text.join "/" r, Text.join "/" r ++ "/*"].map Glob.ofText, g.Matches t) ↔
      t = Text.join "/" r ∨ Text.join "/" r ++ [.scalar '/'] <+: t := by
  have hbelow : Glob.ofText (Text.join "/" r ++ "/*") =
      Glob.literal (Text.join "/" r ++ [.scalar '/']) ++ [.star] := by
    have hstar : Glob.ofText "/*" = Glob.literal [.scalar '/'] ++ [.star] := by decide
    rw [Glob.ofText_literal_append hliteral (by decide), hstar, ← List.append_assoc, Glob.literal,
      Glob.literal, Glob.literal, List.map_append]
  simp only [List.map_cons, List.map_nil, List.mem_cons, List.not_mem_nil, or_false,
    exists_eq_or_imp, exists_eq_left, Glob.ofText_literal hliteral, hbelow, Glob.matches_literal,
    Glob.matches_literal_append, Glob.matches_any, and_true]
  exact or_congr_right (exists_congr fun _ => eq_comm)

/-- The way to the output root does not begin with a slash. -/
private theorem head?_join (hr : r ≠ []) (hnames : ∀ n ∈ r, Path.IsName n) :
    ∃ c t, Text.join "/" r = c :: t ∧ c ≠ .scalar '/' := by
  obtain ⟨n, r, rfl⟩ := List.exists_cons_of_ne_nil hr
  obtain ⟨hne, -, hslash⟩ := hnames n List.mem_cons_self
  obtain ⟨c, n, rfl⟩ := List.exists_cons_of_ne_nil hne
  obtain ⟨rest, hjoin⟩ : ∃ rest, Text.join "/" ((c :: n) :: r) = c :: n ++ rest := by
    by_cases hnil : r = []
    · exact ⟨[], by simp [hnil, Text.join]⟩
    · exact ⟨_, Text.join_cons _ _ hnil⟩
  exact ⟨c, n ++ rest, hjoin, fun hc => hslash (hc ▸ List.mem_cons_self)⟩

/-- The output root stands where the text of a path begins with that of the way to it. -/
private theorem prefix_iff_toText (hr : r ≠ []) (hnames : ∀ n ∈ r, Path.IsName n)
    (hnames' : ∀ n ∈ s, Path.IsName n) :
    r <+: s ↔ (⟨0, s⟩ : Path).toText = Text.join "/" r ∨
      Text.join "/" r ++ [.scalar '/'] <+: (⟨0, s⟩ : Path).toText := by
  have hslash : ∀ n ∈ r, .scalar '/' ∉ n := fun n hn => (hnames n hn).2.2
  by_cases hs : s = []
  · have hpoint : (⟨0, s⟩ : Path).toText = Text.join "/" [("." : Text)] := by
      subst hs
      decide
    rw [hpoint, hs, List.prefix_nil]
    refine iff_of_false hr fun h => ?_
    have hpre := (Text.prefix_iff_join hslash (by decide) hr (List.cons_ne_nil _ _)).mpr h
    obtain ⟨n, r, rfl⟩ := List.exists_cons_of_ne_nil hr
    exact (hnames n List.mem_cons_self).2.1 (List.cons_prefix_cons.mp hpre).1
  · rw [toText_of_ne_nil hs]
    exact Text.prefix_iff_join hslash (fun n hn => (hnames' n hn).2.2) hr hs

end Output

/-- The patterns of the output leave out its root and what lies below it, and nothing else, if the way
to the root stands for itself as a pattern and there is no backslash on the way to the path. -/
theorem isIgnored_outputPatterns (src : Path) {r s : List Text} (hr : r ≠ [])
    (hnames : ∀ n ∈ r, Path.IsName n) (hnames' : ∀ n ∈ s, Path.IsName n)
    (hliteral : Glob.IsLiteral (Text.join "/" r)) (hbackslash : ∀ n ∈ s, .scalar '\\' ∉ n) :
    Path.isIgnored src (src.below s) ((outputPatterns src (src.below r)).map Glob.ofText) = true ↔
      r <+: s := by
  have hpath : src.below s = src.append ⟨0, s⟩ := rfl
  rw [hpath, outputPatterns_below src hr, Path.isIgnored_append rfl, withSlashes_toText hbackslash,
    prefix_iff_toText hr hnames hnames']
  simp only [and_or_left, exists_or, matches_outputPatterns hliteral]
  -- The second text begins with a slash, as the way to the output root does not.
  refine or_iff_left ?_
  obtain ⟨c, t, hjoin, hc⟩ := head?_join hr hnames
  rw [hjoin]
  rintro (heq | ⟨rest, heq⟩)
  · exact hc (List.cons.inj heq).1.symm
  · exact hc (List.cons.inj heq).1

theorem isIgnored_outputPatterns_nested :
    ((∀ n ∈ (["gen", "out"] : List Text), Path.IsName n) ∧
      Glob.IsLiteral (Text.join "/" ["gen", "out"])) ∧
    Path.isIgnored ⟨1, ["src"]⟩ ⟨1, ["src", "gen", "out", "views", "a.vue"]⟩
      ((outputPatterns ⟨1, ["src"]⟩ ⟨1, ["src", "gen", "out"]⟩).map Glob.ofText) = true ∧
    Path.isIgnored ⟨1, ["src"]⟩ ⟨1, ["src", "gen", "outer.vue"]⟩
      ((outputPatterns ⟨1, ["src"]⟩ ⟨1, ["src", "gen", "out"]⟩).map Glob.ofText) = false := by
  have hnames : ∀ n ∈ (["gen", "out"] : List Text), Path.IsName n := by decide
  have hliteral : Glob.IsLiteral (Text.join "/" ["gen", "out"]) := by decide
  refine ⟨⟨hnames, hliteral⟩, ?_, ?_⟩
  · exact (isIgnored_outputPatterns ⟨1, ["src"]⟩ (s := ["gen", "out", "views", "a.vue"])
      (by decide) hnames (by decide) hliteral (by decide)).mpr (by decide)
  · exact Bool.eq_false_iff.mpr (mt (isIgnored_outputPatterns ⟨1, ["src"]⟩
      (s := ["gen", "outer.vue"]) (by decide) hnames (by decide) hliteral (by decide)).mp (by decide))

/-- The way to the output root is read as a pattern: with brackets in it the root is not left out, and
with a star other paths are. -/
theorem isIgnored_outputPatterns_special :
    Path.isIgnored ⟨1, ["src"]⟩ ⟨1, ["src", "o[1]"]⟩
      ((outputPatterns ⟨1, ["src"]⟩ ⟨1, ["src", "o[1]"]⟩).map Glob.ofText) = false ∧
    Path.isIgnored ⟨1, ["src"]⟩ ⟨1, ["src", "a.vue"]⟩
      ((outputPatterns ⟨1, ["src"]⟩ ⟨1, ["src", "*"]⟩).map Glob.ofText) = true := by
  decide

end Run
end LocaleLift
