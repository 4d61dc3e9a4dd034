import LocaleLift.Proofs.Script.Localized

/-! The edits that are due in a tree, read off each node and its ancestors. -/
namespace LocaleLift.Script

open Extract (Yields)
open Node (Ordered)

/-- A node as parsers build it: its children stand in order inside it, and a string has at least its
quotes. -/
structure Node.WellFormed (source : Text) (n : Node) : Prop where
  ordered : Ordered n.start n.stop n.children
  quoted : n.kind = .string → 2 ≤ (n.text source).length

/-- Whether a child is looked at when its parent is: nothing below a string or below the words of an
element is, and in a template the substitutions are, as far as a style localizes these. -/
def Style.Opens (s : Style) (parent child : Node) : Prop :=
  parent.kind ≠ .string ∧ (parent.kind = .elementText → s.elements = false) ∧
    (parent.kind = .template → s.templates = true → child.kind = .substitution)

instance (s : Style) (parent child : Node) : Decidable (s.Opens parent child) :=
  inferInstanceAs (Decidable (_ ∧ _ ∧ _))

/-- Whether a node is looked at below its ancestors. -/
def Style.Visits (s : Style) (n : Node) : List Node → Prop
  | [] => True
  | parent :: above => s.Opens parent n ∧ s.Visits parent above

instance Style.decidableVisits (s : Style) (n : Node) :
    (above : List Node) → Decidable (s.Visits n above)
  | [] => isTrue trivial
  | parent :: above =>
    have := s.decidableVisits parent above
    inferInstanceAs (Decidable (_ ∧ _))

/-- The nodes of a tree that are looked at, each with its ancestors. -/
def visited (s : Style) (root : Node) : List Occurrence :=
  (occurrences [] root).filter fun o => s.Visits o.1 o.2

mutual

private theorem visits_of_mem_occurrences {s : Style} {above : List Node} {n : Node}
    {o : Occurrence} (ho : o ∈ occurrences above n) (h : s.Visits o.1 o.2) :
    s.Visits n above := by
  cases n with
  | mk k f a b cs =>
    rw [occurrences] at ho
    rcases List.mem_cons.mp ho with rfl | ho
    · exact h
    · obtain ⟨c, -, hc⟩ := visits_of_mem_occurrencesOfAll ho h
      exact hc.2

private theorem visits_of_mem_occurrencesOfAll {s : Style} {above ns : List Node}
    {o : Occurrence} (ho : o ∈ occurrencesOfAll above ns) (h : s.Visits o.1 o.2) :
    ∃ n ∈ ns, s.Visits n above := by
  cases ns with
  | nil => cases ho
  | cons n ns =>
    rw [occurrencesOfAll] at ho
    rcases List.mem_append.mp ho with ho | ho
    · exact ⟨n, List.mem_cons_self .., visits_of_mem_occurrences ho h⟩
    · obtain ⟨m, hm, hvisits⟩ := visits_of_mem_occurrencesOfAll ho h
      exact ⟨m, List.mem_cons_of_mem n hm, hvisits⟩

end

section Visited

variable {s : Style} {β : Type} {g : Occurrence → List β}

mutual

private theorem flatMap_visited_from {above : List Node} {n : Node}
    (hg : ∀ o : Occurrence, ¬ IsLiteral s o.1 → g o = []) (h : s.Visits n above) :
    ((occurrences above n).filter fun o => s.Visits o.1 o.2).flatMap g =
      (literals s above n).flatMap g := by
  cases n with
  | mk k f a b cs =>
    have hnone (hclosed : ∀ c ∈ cs, ¬ s.Opens (.mk k f a b cs) c) :
        (occurrencesOfAll (.mk k f a b cs :: above) cs).filter
          (fun o => s.Visits o.1 o.2) = [] := by
      refine List.filter_eq_nil_iff.mpr fun o ho hvisits => ?_
      obtain ⟨c, hc, hopens, -⟩ := visits_of_mem_occurrencesOfAll ho (of_decide_eq_true hvisits)
      exact hclosed c hc hopens
    rw [occurrences, literals, List.filter_cons_of_pos (by simpa using h)]
    rw [List.flatMap_cons]
    split
    · rename_i hk
      rw [hnone fun c _ hopens => hopens.1 (beq_iff_eq.mp hk)]
      rfl
    · rename_i hstring
      rw [beq_iff_eq] at hstring
      split
      · rename_i hk
        rw [List.flatMap_cons]
        rw [Bool.and_eq_true, beq_iff_eq] at hk
        congr 1
        refine flatMap_visited_fromAll hg h fun c _ => ?_
        simp [Style.Opens, Node.kind, hk]
      · rename_i htemplate
        rw [Bool.and_eq_true, beq_iff_eq] at htemplate
        split
        · rename_i hk
          rw [Bool.and_eq_true, beq_iff_eq] at hk
          rw [hnone fun c _ hopens => ?_]
          · rfl
          · have := hopens.2.1 hk.1
            rw [hk.2] at this
            cases this
        · rename_i helement
          rw [Bool.and_eq_true, beq_iff_eq] at helement
          rw [hg _ (by simp [IsLiteral, Node.kind, hstring, htemplate, helement])]
          refine flatMap_visited_fromAll hg h fun c _ => iff_of_true ⟨hstring, ?_, ?_⟩ rfl
          · exact fun hk => Bool.eq_false_iff.mpr fun he => helement ⟨hk, he⟩
          · exact fun hk ht => absurd ⟨hk, ht⟩ htemplate

private theorem flatMap_visited_fromAll {parent : Node} {above ns : List Node}
    {visits : Kind → Bool} (hg : ∀ o : Occurrence, ¬ IsLiteral s o.1 → g o = [])
    (h : s.Visits parent above)
    (hns : ∀ n ∈ ns, s.Opens parent n ↔ visits n.kind = true) :
    ((occurrencesOfAll (parent :: above) ns).filter fun o => s.Visits o.1 o.2).flatMap g =
      (literalsOfAll s (parent :: above) visits ns).flatMap g := by
  cases ns with
  | nil => rfl
  | cons n ns =>
    obtain ⟨hn, hns⟩ := List.forall_mem_cons.mp hns
    rw [occurrencesOfAll, literalsOfAll, List.filter_append, List.flatMap_append,
      List.flatMap_append, flatMap_visited_fromAll hg h hns]
    congr 1
    split
    · rename_i hvisits
      exact flatMap_visited_from hg ⟨hn.mpr hvisits, h⟩
    · rename_i hvisits
      refine (congrArg (List.flatMap g) (List.filter_eq_nil_iff.mpr fun o ho hv => ?_)).trans rfl
      have hboth : s.Visits n (parent :: above) :=
        visits_of_mem_occurrences ho (of_decide_eq_true hv)
      exact hvisits (hn.mp hboth.1)

end

end Visited

/-- An edit that is due: the range it takes and the pieces that are to stand there, of which each
run becomes a call between two given texts. -/
structure Due where
  start : Nat
  stop : Nat
  opening : Text
  closing : Text
  pieces : List Piece
  deriving DecidableEq, Repr

namespace Due

def texts (d : Due) : List Text :=
  d.pieces.filterMap Piece.run?

def edit (s : Style) (d : Due) : Edit :=
  .ofRange d.start d.stop
    (Text.wrapRuns (fun t => d.opening ++ s.scope.call s.quote t ++ d.closing) d.pieces)

end Due

/-- The ranges of a template between its backquotes and its substitutions. -/
def Node.segments (n : Node) : List (Nat × Nat) :=
  let substitutions := n.children.filter fun c => c.kind = .substitution
  ((n.start + 1) :: substitutions.map Node.stop).zip
    (substitutions.map Node.start ++ [n.stop - 1])

/-- Drop the backslashes that would escape what runs become. -/
def unescapeRuns : List Piece → List Piece
  | [] => []
  | .plain t :: .run r :: ps => .plain (Text.dropOddBackslash t) :: .run r :: unescapeRuns ps
  | p :: ps => p :: unescapeRuns ps

namespace Occurrence

/-- A string is a direct argument of the look-up function. -/
def IsArgument (function source : Text) (o : Occurrence) : Prop :=
  (∃ parent ∈ o.2.head?, parent.kind = .arguments) ∧
    ∃ call ∈ o.2[1]?, isLookupCall source function call = true

/-- A string is a type or a member of an enumeration, or it is what names something for its
parent. -/
def IsNoValue (o : Occurrence) : Prop :=
  ∃ parent ∈ o.2.head?, parent.kind = .literalType ∨ parent.kind = .enumBody ∨
    ∃ f ∈ nameFields, parent.child? f = some o.1

def IsTagged (o : Occurrence) : Prop :=
  ∃ parent ∈ o.2.head?, parent.kind = .call ∧ parent.child? .arguments = some o.1

def IsAttribute (o : Occurrence) : Prop :=
  ∃ parent ∈ o.2.head?, parent.kind = .attribute

instance (function source : Text) (o : Occurrence) : Decidable (o.IsArgument function source) :=
  inferInstanceAs (Decidable (_ ∧ _))

instance (o : Occurrence) : Decidable o.IsNoValue :=
  inferInstanceAs (Decidable (∃ _ ∈ _, _))

instance (o : Occurrence) : Decidable o.IsTagged :=
  inferInstanceAs (Decidable (∃ _ ∈ _, _))

instance (o : Occurrence) : Decidable o.IsAttribute :=
  inferInstanceAs (Decidable (∃ _ ∈ _, _))

/-- The edit for a string with a given value, if it holds Chinese and may be replaced. -/
def stringDues (s : Style) (source : Text) (o : Occurrence) (value : Text) : List Due :=
  if Text.hasHan value = true ∧ ¬ o.IsArgument s.scope.function source ∧ ¬ o.IsNoValue then
    [⟨o.1.start, o.1.stop, if o.IsAttribute then "\x7b" else [],
      if o.IsAttribute then "\x7d" else [], [.run (Text.trim value)]⟩]
  else []

/-- The edits due at a node: one for a string to be replaced, one for each segment with Chinese of a
template that is not tagged, and one for the words of an element with Chinese. -/
def dues (s : Style) (source : Text) (o : Occurrence) : List Due :=
  match o.1.kind with
  | .string =>
    match Literal.cook (o.1.body source) with
    | .ok value => o.stringDues s source value
    | .error _ => []
  | .template =>
    if s.templates = true ∧ ¬ o.IsTagged then
      (o.1.segments.filter fun r => Text.hasHan (Utf8.slice r.1 r.2 source)).map fun r =>
        ⟨r.1, r.2, "$\x7b", "\x7d",
          unescapeRuns (Text.pieces .ideographs (Utf8.slice r.1 r.2 source))⟩
    else []
  | .elementText =>
    if s.elements = true ∧ Text.hasHan (o.1.text source) = true then
      [⟨o.1.start, o.1.stop, "\x7b", "\x7d", Text.pieces .ideographs (o.1.text source)⟩]
    else []
  | _ => []

end Occurrence

private theorem staticRanges_eq_zip (stop cursor : Nat) (ns : List Node) :
    staticRanges stop cursor ns =
      (cursor :: (ns.filter fun n => n.kind = .substitution).map Node.stop).zip
        ((ns.filter fun n => n.kind = .substitution).map Node.start ++ [stop]) := by
  induction ns generalizing cursor with
  | nil => rfl
  | cons n ns ih =>
    rw [staticRanges]
    by_cases hk : n.kind = .substitution
    · rw [if_pos (by simpa using hk), ih, List.filter_cons_of_pos (by simpa using hk)]
      rfl
    · rw [if_neg (by simpa using hk), ih, List.filter_cons_of_neg (by simpa using hk)]

theorem Node.staticRanges_eq_segments (n : Node) : n.staticRanges = n.segments :=
  staticRanges_eq_zip ..

theorem inside_of_mem_staticRanges {stop cursor a b : Nat} {ns : List Node}
    (h : ∀ n ∈ ns, a ≤ n.stop ∧ n.start ≤ b) (hcursor : a ≤ cursor) (hstop : stop ≤ b)
    {r : Nat × Nat} (hr : r ∈ staticRanges stop cursor ns) : a ≤ r.1 ∧ r.2 ≤ b := by
  induction ns generalizing cursor with
  | nil =>
    obtain rfl := List.mem_singleton.mp hr
    exact ⟨hcursor, hstop⟩
  | cons n ns ih =>
    obtain ⟨⟨hn, hn'⟩, hns⟩ := List.forall_mem_cons.mp h
    rw [staticRanges] at hr
    split at hr
    · rcases List.mem_cons.mp hr with rfl | hr
      · exact ⟨hcursor, hn'⟩
      · exact ih hns hn hr
    · exact ih hns hcursor hr

private theorem lt_of_hasHan_slice {source : Text} {r : Nat × Nat}
    (h : Text.hasHan (Utf8.slice r.1 r.2 source) = true) : r.1 < r.2 := by
  by_contra hle
  rw [Utf8.slice_eq_nil (Nat.le_of_not_lt hle)] at h
  cases h

theorem wrapTemplateRuns_eq (wrap : Text → Text) (ps : List Piece) :
    Text.wrapTemplateRuns wrap ps = Text.wrapRuns wrap (unescapeRuns ps) := by
  induction ps using unescapeRuns.induct with
  | case1 => rfl
  | case2 t r ps ih =>
    rw [Text.wrapTemplateRuns, unescapeRuns, Text.wrapRuns, Text.wrapRuns, ih, List.append_assoc]
  | case3 p ps hp ih =>
    cases p with
    | plain t =>
      rw [Text.wrapTemplateRuns, unescapeRuns, Text.wrapRuns, ih]
      · exact fun t' r qs ht hps => hp t' r qs ht hps
      · exact fun r qs hps => hp t r qs rfl hps
    | run r =>
      rw [Text.wrapTemplateRuns, unescapeRuns, Text.wrapRuns, ih]
      intro t r qs h
      cases h

theorem runs_unescapeRuns (ps : List Piece) :
    (unescapeRuns ps).filterMap Piece.run? = ps.filterMap Piece.run? := by
  induction ps using unescapeRuns.induct with
  | case1 => rfl
  | case2 t r ps ih =>
    exact congrArg (r :: ·) ih
  | case3 p ps hp ih =>
    rw [unescapeRuns, List.filterMap_cons, List.filterMap_cons, ih]
    exact hp

namespace Occurrence

/-- A node stands among the children of the nearest ancestor given, if there is one. -/
def IsChild (source : Text) (o : Occurrence) : Prop :=
  ∀ parent ∈ o.2.head?, parent.WellFormed source ∧ o.1 ∈ parent.children

section Steps

variable {s : Style} {source : Text} {o : Occurrence} (ho : o.IsChild source)

include ho

theorem isFixed_iff (function : Text) (hlt : o.1.start < o.1.stop) :
    isFixed source function o.1 o.2 = true ↔ o.IsArgument function source ∨ o.IsNoValue := by
  obtain ⟨n, above⟩ := o
  cases above with
  | nil => simp [isFixed, IsArgument, IsNoValue]
  | cons parent above =>
    obtain ⟨hparent, hn⟩ := ho parent rfl
    have hparts : nameFields.any (n.isPart parent) = true ↔
        ∃ f ∈ nameFields, parent.child? f = some n := by
      simp only [List.any_eq_true, Node.isPart_iff hparent.ordered hn hlt]
    have hcall : above.head?.any (isLookupCall source function) = true ↔
        ∃ call ∈ above.head?, isLookupCall source function call = true := by
      simp [Option.any_eq_true]
    rw [isFixed, Bool.or_eq_true, Bool.or_eq_true, Bool.or_eq_true, Bool.and_eq_true, hparts, hcall,
      beq_iff_eq, beq_iff_eq, beq_iff_eq, IsArgument, IsNoValue]
    simp [or_assoc, List.head?_eq_getElem?]

theorem isTagged_iff (hlt : o.1.start < o.1.stop) :
    isTagged o.1 o.2 = true ↔ o.IsTagged := by
  obtain ⟨n, above⟩ := o
  cases above with
  | nil => simp [isTagged, IsTagged]
  | cons parent above =>
    obtain ⟨hparent, hn⟩ := ho parent rfl
    rw [isTagged, Bool.and_eq_true, beq_iff_eq, Node.isPart_iff hparent.ordered hn hlt, IsTagged]
    simp

private theorem yields_stringEdit (hk : o.1.kind = .string)
    (hlen : 2 ≤ (o.1.text source).length) :
    Yields ((o.dues s source).flatMap Due.texts) ((o.dues s source).map (Due.edit s))
      (∃ v, Literal.cook (o.1.body source) = .ok v) (stringEdit s source o.1 o.2) := by
  have hlt : o.1.start < o.1.stop := by
    refine Node.lt_of_text_ne_nil source fun hnil => ?_
    rw [hnil] at hlen
    exact absurd hlen (by decide)
  rw [stringEdit]
  dsimp only
  rw [if_neg (Nat.not_lt.mpr hlen)]
  change Yields _ _ _ (Extract.lift (Literal.cook (o.1.body source)) >>= _)
  cases hcook : Literal.cook (o.1.body source) with
  | error e =>
    refine Extract.yields_fail ?_ e
    rintro ⟨_, h⟩
    cases h
  | ok v =>
    have hdues : o.dues s source = o.stringDues s source v := by
      rw [dues, hk, hcook]
    have hkept : (!Text.hasHan v || isFixed source s.scope.function o.1 o.2) = true ↔
        ¬ (Text.hasHan v = true ∧ ¬ o.IsArgument s.scope.function source ∧ ¬ o.IsNoValue) := by
      rw [Bool.or_eq_true, isFixed_iff ho _ hlt, Bool.not_eq_true', ← Bool.not_eq_true]
      tauto
    refine Yields.congr ?_ (iff_of_true trivial ⟨v, rfl⟩)
    rw [hdues, stringDues]
    change Yields _ _ _ (pure v >>= _)
    rw [pure_bind]
    split
    · rename_i hreplace
      rw [if_neg (mt hkept.mp (not_not.mpr hreplace))]
      have hattribute : (o.2.head?.any fun p => p.kind == .attribute) = true ↔ o.IsAttribute := by
        simp [IsAttribute, Option.any_eq_true]
      have hcall : Yields [Text.trim v] (s.scope.call s.quote (Text.trim v)) True
          (s.call (Text.trim v)) :=
        fun _ _ => ⟨fun h => ⟨trivial, h.1.symm, (Except.ok.inj h.2).symm⟩,
          fun h => ⟨h.2.1.symm, congrArg Except.ok h.2.2.symm⟩⟩
      refine hcall.map ?_
      rw [List.map_singleton, Due.edit]
      simp only [hattribute, Text.wrapRuns, List.append_nil]
      split
      · rfl
      · rw [List.nil_append, List.append_nil]
    · rename_i hkeep
      rw [if_pos (hkept.mpr hkeep)]
      exact Extract.yields_pure []

private theorem dues_template (hn : o.1.WellFormed source) (hk : o.1.kind = .template)
    (htemplates : s.templates = true) :
    o.dues s source = ((if isTagged o.1 o.2 then [] else o.1.staticRanges).filter
      fun r => Text.hasHan (Utf8.slice r.1 r.2 source)).map fun r =>
        ⟨r.1, r.2, "$\x7b", "\x7d",
          unescapeRuns (Text.pieces .ideographs (Utf8.slice r.1 r.2 source))⟩ := by
  rw [dues, hk]
  dsimp only
  rw [o.1.staticRanges_eq_segments]
  by_cases hlt : o.1.start < o.1.stop
  · simp only [htemplates, true_and, ← isTagged_iff ho hlt]
    cases isTagged o.1 o.2 with
    | true => rfl
    | false => rfl
  · -- Without bytes there is no segment with Chinese, whether the template is tagged or not.
    have hnone : (o.1.segments.filter fun r => Text.hasHan (Utf8.slice r.1 r.2 source)) = [] := by
      refine List.filter_eq_nil_iff.mpr fun r hr hhan => hlt ?_
      rw [← o.1.staticRanges_eq_segments] at hr
      have hchildren (c : Node) (hc : c ∈ o.1.children) :
          o.1.start ≤ c.stop ∧ c.start ≤ o.1.stop := by
        have := hn.ordered.inside hc
        omega
      have hinside := inside_of_mem_staticRanges hchildren (Nat.le_succ _) (Nat.sub_le ..) hr
      have := lt_of_hasHan_slice hhan
      omega
    rw [hnone]
    split
    · split
      · rfl
      · rw [hnone]
    · split
      · rfl
      · rw [hnone]
        rfl

private theorem yields_templateEdits (hn : o.1.WellFormed source) (hk : o.1.kind = .template)
    (htemplates : s.templates = true) :
    Yields ((o.dues s source).flatMap Due.texts) ((o.dues s source).map (Due.edit s)) True
      (templateEdits s source o.1 o.2) := by
  rw [dues_template ho hn hk htemplates, templateEdits]
  split
  · exact Extract.yields_pure []
  · simp only [List.filter_map, List.map_map, List.flatMap_map, Function.comp_def,
      Text.any_run_pieces, wrapTemplateRuns_eq, Due.texts, runs_unescapeRuns]
    exact (Extract.yields_found _).map (g := fun _ => _) rfl

omit ho in
private theorem yields_elementEdits (hk : o.1.kind = .elementText) (helements : s.elements = true) :
    Yields ((o.dues s source).flatMap Due.texts) ((o.dues s source).map (Due.edit s)) True
      (elementEdits s source o.1) := by
  rw [dues, hk, elementEdits]
  dsimp only
  cases hhan : Text.hasHan (o.1.text source) with
  | false =>
    rw [if_neg (by simp), if_pos (by rfl)]
    exact Extract.yields_pure []
  | true =>
    rw [if_pos ⟨helements, rfl⟩, if_neg (by simp), List.flatMap_singleton]
    exact (Extract.yields_found _).map (g := fun _ => _) rfl

private theorem yields_literalEdits (hn : o.1.WellFormed source) (hliteral : IsLiteral s o.1) :
    Yields ((o.dues s source).flatMap Due.texts) ((o.dues s source).map (Due.edit s))
      (o.1.kind = .string → ∃ v, Literal.cook (o.1.body source) = .ok v)
      (literalEdits s source o) := by
  rw [literalEdits]
  rcases hliteral with hk | ⟨hk, htemplates⟩ | ⟨hk, helements⟩
  · rw [hk]
    exact (yields_stringEdit ho hk (hn.quoted hk)).congr ⟨fun h _ => h, fun h => h rfl⟩
  · rw [hk]
    exact (yields_templateEdits ho hn hk htemplates).congr (iff_of_true trivial fun h => by cases h)
  · rw [hk]
    exact (yields_elementEdits hk helements).congr (iff_of_true trivial fun h => by cases h)

end Steps

mutual

theorem isChild_of_mem {source : Text} {above : List Node} {n : Node} {o : Occurrence}
    (hn : n.All (Node.WellFormed source)) (hchild : IsChild source (n, above))
    (ho : o ∈ occurrences above n) : o.IsChild source ∧ o.1.WellFormed source := by
  cases n with
  | mk k f a b cs =>
    rw [occurrences] at ho
    rcases List.mem_cons.mp ho with rfl | ho
    · exact ⟨hchild, hn.root⟩
    · exact isChild_of_mem_all (fun c hc => hn.child hc) (fun c hc parent hparent => by
        cases hparent
        exact ⟨hn.root, hc⟩) ho

private theorem isChild_of_mem_all {source : Text} {above ns : List Node} {o : Occurrence}
    (hns : ∀ n ∈ ns, n.All (Node.WellFormed source))
    (hchild : ∀ n ∈ ns, IsChild source (n, above)) (ho : o ∈ occurrencesOfAll above ns) :
    o.IsChild source ∧ o.1.WellFormed source := by
  cases ns with
  | nil => cases ho
  | cons n ns =>
    rw [occurrencesOfAll] at ho
    obtain ⟨hn, hns⟩ := List.forall_mem_cons.mp hns
    obtain ⟨hfirst, hrest⟩ := List.forall_mem_cons.mp hchild
    rcases List.mem_append.mp ho with ho | ho
    · exact isChild_of_mem hn hfirst ho
    · exact isChild_of_mem_all hns hrest ho

end

end Occurrence

private theorem dues_eq_nil {s : Style} {source : Text} {o : Occurrence}
    (h : ¬ IsLiteral s o.1) : o.dues s source = [] := by
  simp only [IsLiteral, not_or, not_and] at h
  rw [Occurrence.dues]
  split
  · exact absurd ‹_› h.1
  · rename_i hk
    rw [if_neg fun hboth => h.2.1 hk hboth.1]
  · rename_i hk
    rw [if_neg fun hboth => h.2.2 hk hboth.1]
  · rfl

/-- Where neither templates nor elements are localized, only strings are edited. -/
theorem Occurrence.string_of_mem_dues {s : Style} {source : Text} {o : Occurrence}
    (htemplates : s.templates = false) (helements : s.elements = false) {d : Due}
    (hd : d ∈ o.dues s source) :
    o.1.kind = .string ∧ ∃ value, Literal.cook (o.1.body source) = .ok value ∧
      d ∈ o.stringDues s source value := by
  rw [dues] at hd
  split at hd
  · rename_i hk
    split at hd
    · exact ⟨hk, _, ‹_›, hd⟩
    · cases hd
  · rw [htemplates, if_neg fun hstyle => Bool.false_ne_true hstyle.1] at hd
    cases hd
  · rw [helements, if_neg fun hstyle => Bool.false_ne_true hstyle.1] at hd
    cases hd
  · cases hd

/-- The edits due in a tree, from left to right. -/
def Style.dues (s : Style) (source : Text) (root : Node) : List Due :=
  (visited s root).flatMap fun o => o.dues s source

/-- The edits come from the literals that the walk is at, in their order. -/
theorem yields_literals {s : Style} {source : Text} {root : Node}
    (hroot : root.All (Node.WellFormed source)) :
    Yields ((s.dues source root).flatMap Due.texts) ((s.dues source root).map (Due.edit s))
      (∀ o ∈ literals s [] root, o.1.kind = .string →
        ∃ v, Literal.cook (o.1.body source) = .ok v)
      (edits s source [] root) := by
  have hdues : s.dues source root = (literals s [] root).flatMap fun o => o.dues s source :=
    flatMap_visited_from (fun _ => dues_eq_nil) trivial
  rw [edits_eq_gather, hdues, List.map_flatMap, List.flatMap_assoc]
  refine Extract.yields_gather fun o ho => ?_
  obtain ⟨ho, hliteral⟩ := mem_literals ho
  obtain ⟨hchild, hn⟩ := Occurrence.isChild_of_mem hroot (fun _ h => by cases h) ho
  exact Occurrence.yields_literalEdits hchild hn hliteral

/-- In a well-formed tree exactly the edits are made that are due at the nodes looked at, unless a
string among these cannot be cooked. The texts found are those of the calls that the edits bring in,
one for each call. -/
theorem yields_edits {s : Style} {source : Text} {root : Node}
    (hroot : root.All (Node.WellFormed source)) :
    Yields ((s.dues source root).flatMap Due.texts) ((s.dues source root).map (Due.edit s))
      (∀ o ∈ visited s root, o.1.kind = .string → ∃ v, Literal.cook (o.1.body source) = .ok v)
      (edits s source [] root) := by
  have hstrings : ((visited s root).flatMap fun o => if o.1.kind = .string then [o] else []) =
      (literals s [] root).flatMap fun o => if o.1.kind = .string then [o] else [] :=
    flatMap_visited_from (fun o ho => if_neg fun hk => ho (.inl hk)) trivial
  have hmem (os : List Occurrence) : (∀ o ∈ os, o.1.kind = .string →
      ∃ v, Literal.cook (o.1.body source) = .ok v) ↔
        ∀ o ∈ os.flatMap fun o => if o.1.kind = .string then [o] else [],
          ∃ v, Literal.cook (o.1.body source) = .ok v := by
    simp [List.mem_flatMap]
  rw [hmem, hstrings, ← hmem]
  exact yields_literals hroot

/-- A string inside a substitution is looked at, and both it and the text around become calls. -/
theorem yields_edits_nested :
    let source : Text := "`中$\x7b'文'\x7d`"
    let string : Node := .mk .string none 6 11 []
    let root : Node := .mk .template none 0 13 [.mk .substitution none 4 12 [string]]
    let style : Style := ⟨⟨"test", .ofList [] "common", "$t"⟩, "\x22", true, true⟩
    root.All (Node.WellFormed source) ∧
      Extract.Finds ["中", "文"]
        [.ofRange 1 4 "$\x7b$t(\x22test.中\x22)\x7d", .ofRange 6 11 "$t(\x22test.文\x22)"]
        (edits style source [] root) := by
  intro source string root style
  have hroot : root.All (Node.WellFormed source) := by
    refine .mk ⟨?_, nofun⟩ (List.forall_mem_singleton.mpr ?_)
    · exact ⟨by decide, by decide, Nat.le_succ 12⟩
    refine .mk ⟨?_, nofun⟩ (List.forall_mem_singleton.mpr ?_)
    · exact ⟨by decide, by decide, Nat.le_succ 11⟩
    exact .mk ⟨Nat.le_add_right 6 5, fun _ => by decide⟩ nofun
  have hcook : ∀ o ∈ visited style root, o.1.kind = .string →
      Literal.cook (o.1.body source) = .ok "文" := by decide +kernel
  refine ⟨hroot, (yields_edits hroot _ _).mpr ⟨fun o ho hk => ⟨_, hcook o ho hk⟩, ?_, ?_⟩⟩
  · decide +kernel
  · decide +kernel

/-- The name that something is exported under is no name by the rules, so it is replaced, and what
comes of the script is no sentence any more. -/
theorem parse?_localize_alias :
    let style := Style.ofDialect .typescript ⟨"test", .ofList [] "common", "$t"⟩ "\x22" true true
    let source : Text := "export \x7b a as '中' \x7d;"
    let out : Text := "export \x7b a as $t(\x22test.中\x22) \x7d;"
    parse? .typescript source ≠ none ∧
      (localize .typescript style source).result = .ok out ∧ parse? .typescript out = none := by
  intro style source out
  have hsource : source = _ := Text.ofString_ofList _
  have hout : out = _ := Text.ofString_ofList _
  refine ⟨?_, ?_, ?_⟩
  · rw [hsource]
    decide +kernel
  · rw [hsource, hout]
    decide +kernel
  · rw [hout]
    decide +kernel

end LocaleLift.Script
