import LocaleLift.Script.Binding
import LocaleLift.Proofs.Extract
import LocaleLift.Proofs.Script.Tree

/-! The nodes that are looked at when a script or a binding is localized, with their ancestors. -/
namespace LocaleLift.Script

/-- A node and its ancestors, nearest first. -/
abbrev Occurrence := Node × List Node

mutual

/-- The literals of a tree that a style looks at, from left to right. -/
def literals (s : Style) (above : List Node) : Node → List Occurrence
  | .mk k f a b cs =>
    let n : Node := .mk k f a b cs
    if k == .string then [(n, above)]
    else if k == .template && s.templates then
      (n, above) :: literalsOfAll s (n :: above) (· == .substitution) cs
    else if k == .elementText && s.elements then [(n, above)]
    else literalsOfAll s (n :: above) (fun _ => true) cs

/-- The literals of several trees, as far as their kinds are looked into. -/
def literalsOfAll (s : Style) (above : List Node) (visits : Kind → Bool) :
    List Node → List Occurrence
  | [] => []
  | n :: ns =>
    (if visits n.kind then literals s above n else []) ++ literalsOfAll s above visits ns

end

def literalEdits (s : Style) (source : Text) (o : Occurrence) : Extract (List Edit) :=
  match o.1.kind with
  | .string => stringEdit s source o.1 o.2
  | .template => templateEdits s source o.1 o.2
  | _ => elementEdits s source o.1

mutual

/-- The edits of a tree are those of its literals. -/
theorem edits_eq_gather (s : Style) (source : Text) (above : List Node) (n : Node) :
    edits s source above n = Extract.gather (literalEdits s source) (literals s above n) := by
  cases n with
  | mk k f a b cs =>
    rw [edits, literals]
    split
    · rename_i hk
      obtain rfl := beq_iff_eq.mp hk
      rw [Extract.gather_singleton]
      rfl
    · split
      · rename_i hk
        obtain rfl := beq_iff_eq.mp (Bool.and_eq_true_iff.mp hk).1
        rw [editsOfAll_eq_gather]
        rfl
      · split
        · rename_i hk
          obtain rfl := beq_iff_eq.mp (Bool.and_eq_true_iff.mp hk).1
          rw [Extract.gather_singleton]
          rfl
        · exact editsOfAll_eq_gather s source _ _ cs

theorem editsOfAll_eq_gather (s : Style) (source : Text) (above : List Node)
    (visits : Kind → Bool) (ns : List Node) :
    editsOfAll s source above visits ns =
      Extract.gather (literalEdits s source) (literalsOfAll s above visits ns) := by
  cases ns with
  | nil => rfl
  | cons n ns =>
    rw [editsOfAll, literalsOfAll, Extract.gather_append, editsOfAll_eq_gather,
      edits_eq_gather]
    split <;> rfl

end

mutual

/-- The nodes of a tree from left to right, each before those below it. -/
def occurrences (above : List Node) : Node → List Occurrence
  | .mk k f a b cs =>
    let n : Node := .mk k f a b cs
    (n, above) :: occurrencesOfAll (n :: above) cs

def occurrencesOfAll (above : List Node) : List Node → List Occurrence
  | [] => []
  | n :: ns => occurrences above n ++ occurrencesOfAll above ns

end

mutual

/-- What holds of all nodes of a tree holds of each that occurs in it and of its ancestors. -/
theorem all_of_mem_occurrences {p : Node → Prop} {above : List Node} {n : Node} {o : Occurrence}
    (hn : n.All p) (habove : ∀ m ∈ above, p m) (ho : o ∈ occurrences above n) :
    p o.1 ∧ ∀ m ∈ o.2, p m := by
  cases n with
  | mk k f a b cs =>
    rw [occurrences] at ho
    rcases List.mem_cons.mp ho with rfl | ho
    · exact ⟨hn.root, habove⟩
    · exact all_of_mem_occurrencesOfAll (fun c hc => hn.child hc)
        (List.forall_mem_cons.mpr ⟨hn.root, habove⟩) ho

private theorem all_of_mem_occurrencesOfAll {p : Node → Prop} {above ns : List Node}
    {o : Occurrence} (hns : ∀ n ∈ ns, n.All p) (habove : ∀ m ∈ above, p m)
    (ho : o ∈ occurrencesOfAll above ns) : p o.1 ∧ ∀ m ∈ o.2, p m := by
  cases ns with
  | nil => cases ho
  | cons n ns =>
    rw [occurrencesOfAll] at ho
    obtain ⟨hn, hns⟩ := List.forall_mem_cons.mp hns
    rcases List.mem_append.mp ho with ho | ho
    · exact all_of_mem_occurrences hn habove ho
    · exact all_of_mem_occurrencesOfAll hns habove ho

end

/-- What a style looks at: strings and, as far as it localizes them, templates and elements. -/
def IsLiteral (s : Style) (n : Node) : Prop :=
  n.kind = .string ∨ n.kind = .template ∧ s.templates = true ∨
    n.kind = .elementText ∧ s.elements = true

mutual

/-- The literals of a tree are nodes that occur in it. -/
theorem mem_literals {s : Style} {above : List Node} {n : Node} {o : Occurrence}
    (ho : o ∈ literals s above n) : o ∈ occurrences above n ∧ IsLiteral s o.1 := by
  cases n with
  | mk k f a b cs =>
    rw [occurrences]
    rw [literals] at ho
    split at ho
    · rename_i hk
      obtain rfl := List.mem_singleton.mp ho
      exact ⟨List.mem_cons_self .., .inl (beq_iff_eq.mp hk)⟩
    · split at ho
      · rename_i hk
        rw [Bool.and_eq_true, beq_iff_eq] at hk
        rcases List.mem_cons.mp ho with rfl | ho
        · exact ⟨List.mem_cons_self .., .inr (.inl hk)⟩
        · obtain ⟨ho, hliteral⟩ := mem_literalsOfAll ho
          exact ⟨List.mem_cons_of_mem _ ho, hliteral⟩
      · split at ho
        · rename_i hk
          rw [Bool.and_eq_true, beq_iff_eq] at hk
          obtain rfl := List.mem_singleton.mp ho
          exact ⟨List.mem_cons_self .., .inr (.inr hk)⟩
        · obtain ⟨ho, hliteral⟩ := mem_literalsOfAll ho
          exact ⟨List.mem_cons_of_mem _ ho, hliteral⟩

private theorem mem_literalsOfAll {s : Style} {above ns : List Node} {visits : Kind → Bool}
    {o : Occurrence} (ho : o ∈ literalsOfAll s above visits ns) :
    o ∈ occurrencesOfAll above ns ∧ IsLiteral s o.1 := by
  cases ns with
  | nil => cases ho
  | cons n ns =>
    rw [occurrencesOfAll]
    rw [literalsOfAll] at ho
    rcases List.mem_append.mp ho with ho | ho
    · split at ho
      · obtain ⟨ho, hliteral⟩ := mem_literals ho
        exact ⟨List.mem_append_left _ ho, hliteral⟩
      · cases ho
    · obtain ⟨ho, hliteral⟩ := mem_literalsOfAll ho
      exact ⟨List.mem_append_right _ ho, hliteral⟩

end

namespace Binding

/-- The ranges of a node whose phrases become calls: those with Chinese around the substitutions of
a template that is not tagged. -/
def phraseRanges (source : Text) (o : Occurrence) : List (Nat × Nat) :=
  (if o.1.kind == .template && !isTagged o.1 o.2 then o.1.staticRanges else []).filter
    fun r => Text.hasHan (Utf8.slice r.1 r.2 source)

def phraseTexts (source : Text) (r : Nat × Nat) : List Text :=
  (Text.runs .phrase (Utf8.slice r.1 r.2 source)).map Text.trim

/-- What takes the place of a segment of a template: each phrase becomes a call. -/
def wrapSegment (scope : Scope) (quote segment : Text) : Text :=
  Text.wrapTemplateRuns (fun t => asSubstitution (scope.call quote (Text.trim t)))
    (Text.pieces .phrase segment)

def phraseEdit (scope : Scope) (quote source : Text) (r : Nat × Nat) : Edit :=
  .ofRange r.1 r.2 (wrapSegment scope quote (Utf8.slice r.1 r.2 source))

variable {source : Text} {o : Occurrence} {r : Nat × Nat}

theorem mem_phraseRanges : r ∈ phraseRanges source o ↔
    (o.1.kind = .template ∧ isTagged o.1 o.2 = false) ∧ r ∈ o.1.staticRanges ∧
      Text.hasHan (Utf8.slice r.1 r.2 source) = true := by
  rw [phraseRanges, List.mem_filter, ← and_assoc]
  refine and_congr_left fun _ => ?_
  split
  · rename_i hlook
    rw [Bool.and_eq_true, beq_iff_eq, Bool.not_eq_true'] at hlook
    exact (and_iff_right hlook).symm
  · rename_i hskip
    rw [Bool.and_eq_true, beq_iff_eq, Bool.not_eq_true'] at hskip
    exact iff_of_false List.not_mem_nil fun h => hskip h.1

theorem phraseTexts_ne_nil (hr : r ∈ phraseRanges source o) : phraseTexts source r ≠ [] := by
  intro hnil
  rw [phraseTexts, List.map_eq_nil_iff, Text.runs_eq_nil] at hnil
  exact Bool.false_ne_true (hnil.symm.trans (mem_phraseRanges.mp hr).2.2)

mutual

/-- The phrases of a tree are those of its nodes. -/
theorem finds_phraseEdits (scope : Scope) (quote source : Text) (above : List Node) (n : Node) :
    Extract.Finds
      ((occurrences above n).flatMap fun o => (phraseRanges source o).flatMap (phraseTexts source))
      ((occurrences above n).flatMap fun o =>
        (phraseRanges source o).map (phraseEdit scope quote source))
      (phraseEdits scope quote source above n) := by
  cases n with
  | mk k f a b cs =>
    have hrest := finds_phraseEditsOfAll scope quote source (.mk k f a b cs :: above) cs
    rw [phraseEdits, occurrences, List.flatMap_cons, List.flatMap_cons]
    dsimp only
    simp only [List.filter_map, List.map_map, List.flatMap_map, Function.comp_def,
      Text.any_run_pieces]
    exact Extract.finds_bind.mpr ⟨_, (), _, ⟨rfl, rfl⟩, Extract.finds_map.mpr ⟨_, hrest, rfl⟩, rfl⟩

private theorem finds_phraseEditsOfAll (scope : Scope) (quote source : Text)
    (above ns : List Node) : Extract.Finds
      ((occurrencesOfAll above ns).flatMap fun o =>
        (phraseRanges source o).flatMap (phraseTexts source))
      ((occurrencesOfAll above ns).flatMap fun o =>
        (phraseRanges source o).map (phraseEdit scope quote source))
      (phraseEditsOfAll scope quote source above ns) := by
  cases ns with
  | nil => exact ⟨rfl, rfl⟩
  | cons n ns =>
    rw [phraseEditsOfAll, occurrencesOfAll, List.flatMap_append, List.flatMap_append]
    exact Extract.finds_bind.mpr ⟨_, _, _, finds_phraseEdits scope quote source above n,
      Extract.finds_map.mpr ⟨_, finds_phraseEditsOfAll scope quote source above ns, rfl⟩, rfl⟩

end

/-- The edits for the phrases of a tree, one by one. -/
theorem exists_of_mem_phraseEdits {scope : Scope} {quote : Text} {above : List Node} {n : Node}
    {es : List Edit} (h : (phraseEdits scope quote source above n).result = .ok es) {e : Edit}
    (he : e ∈ es) : ∃ o ∈ occurrences above n, ∃ r ∈ phraseRanges source o,
      e = phraseEdit scope quote source r := by
  have hfinds := finds_phraseEdits scope quote source above n
  obtain rfl := Except.ok.inj (hfinds.2.symm.trans h)
  obtain ⟨o, ho, he⟩ := List.mem_flatMap.mp he
  obtain ⟨r, hr, rfl⟩ := List.mem_map.mp he
  exact ⟨o, ho, r, hr, rfl⟩

end Binding

end LocaleLift.Script
