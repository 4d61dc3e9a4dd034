import LocaleLift.Proofs.Script.Settle

/-! The strings of a tree in which nothing else is localized: where they stand, how they are written
and what their edits are. -/
namespace LocaleLift.Script

open Extract (Finds)
open Node (Ordered)

/-- A style in which nothing but strings is localized. -/
structure Style.OnlyStrings (s : Style) : Prop where
  templates : s.templates = false
  elements : s.elements = false

variable {s : Style} {source : Text}

mutual

/-- What is looked at in a tree are its strings, and they stand in order. -/
theorem Style.OnlyStrings.ordered (h : s.OnlyStrings) {above : List Node} {n : Node}
    (hn : n.All fun m => Ordered m.start m.stop m.children) :
    Ordered n.start n.stop ((literals s above n).map Prod.fst) := by
  cases n with
  | mk k f a b cs =>
    rw [literals, h.templates, h.elements, Bool.and_false, Bool.and_false]
    split
    · exact ⟨Nat.le_refl a, hn.root.le, Nat.le_refl b⟩
    · exact h.orderedAll hn.root fun c hc => hn.child hc

private theorem Style.OnlyStrings.orderedAll (h : s.OnlyStrings) {above ns : List Node} {a b : Nat}
    (hordered : Ordered a b ns)
    (hns : ∀ n ∈ ns, n.All fun m => Ordered m.start m.stop m.children) :
    Ordered a b ((literalsOfAll s above (fun _ => true) ns).map Prod.fst) := by
  cases ns with
  | nil => exact hordered
  | cons n ns =>
    obtain ⟨hn, hns⟩ := List.forall_mem_cons.mp hns
    obtain ⟨ha, -, hrest⟩ := hordered
    rw [literalsOfAll, List.map_append]
    exact ((h.ordered hn).mono ha).append (h.orderedAll hrest hns)

end

/-- Each of them is a node of the tree, and so are its ancestors. -/
theorem Style.OnlyStrings.of_mem (h : s.OnlyStrings) {p : Node → Prop} {above : List Node}
    {n : Node} (hn : n.All p) (habove : ∀ m ∈ above, p m) {o : Occurrence}
    (ho : o ∈ literals s above n) : o.1.kind = .string ∧ p o.1 ∧ ∀ m ∈ o.2, p m := by
  obtain ⟨ho, hliteral⟩ := mem_literals ho
  refine ⟨?_, all_of_mem_occurrences hn habove ho⟩
  simpa [IsLiteral, h.templates, h.elements] using hliteral

/-- Where there are no elements, a string stands between two quotes, and if no line ends in it, such
a quote stands in it only behind a backslash. -/
theorem Node.Read.exists_body {n : Node} (h : n.Read False source) (hk : n.kind = .string) :
    ∃ before q body after, source = before ++ (q :: (body ++ [q])) ++ after ∧
      Utf8.size before = n.start ∧ Utf8.size (before ++ (q :: (body ++ [q]))) = n.stop ∧
      q.IsQuote ∧ n.text source = q :: (body ++ [q]) ∧ n.body source = body ∧
      ((∀ c ∈ body, c ≠ .scalar '\n' ∧ c ≠ .scalar '\r') → Lexeme.QuotedBody q body) := by
  obtain ⟨s, hs | ⟨hfalse, -⟩, before, rest, k, hsource, hstart, hk, hstop⟩ := h.scanned hk
  · subst hs
    obtain ⟨q, body, hq, htake, hbody⟩ := Lexeme.exists_body_of_string hk
    rw [htake] at hstop
    have hparts : source = before ++ (q :: (body ++ [q])) ++ rest.drop k := by
      rw [List.append_assoc, ← htake, List.take_append_drop, hsource]
    have hend : Utf8.size (before ++ (q :: (body ++ [q]))) = n.stop := by
      rw [Utf8.size_append, hstart, hstop]
    have htext : n.text source = q :: (body ++ [q]) := by
      rw [Node.text, ← hstart, ← hend, hparts, Utf8.slice_append]
    refine ⟨before, q, body, rest.drop k, hparts, hstart, hend, hq, htext, ?_, hbody⟩
    rw [Node.body, htext]
    exact List.dropLast_concat
  · exact hfalse.elim

section Edits

variable {o : Occurrence} {value : Text} (hcook : Literal.cook (o.1.body source) = .ok value)

include hcook in
theorem Occurrence.isReplaced_iff : o.IsReplaced s source ↔
    Text.hasHan value = true ∧ isFixed source s.scope.function o.1 o.2 = false := by
  rw [Occurrence.IsReplaced]
  refine and_congr_left fun _ => ⟨?_, fun h => ⟨value, hcook, h⟩⟩
  rintro ⟨v, hv, hhan⟩
  obtain rfl := Except.ok.inj (hcook.symm.trans hv)
  exact hhan

include hcook in
/-- A string that is to be replaced becomes a call, unless it is the value of an attribute. -/
theorem finds_stringEdit (h : o.IsReplaced s source) (hlength : 2 ≤ (o.1.text source).length)
    (hattribute : ∀ m ∈ o.2, m.kind ≠ .attribute) :
    Finds [Text.trim value]
      [.ofRange o.1.start o.1.stop (s.scope.call s.quote (Text.trim value))]
      (stringEdit s source o.1 o.2) := by
  obtain ⟨hhan, hfixed⟩ := (Occurrence.isReplaced_iff hcook).mp h
  have hparent : (o.2.head?.any fun p => p.kind == .attribute) = false := by
    cases hhead : o.2.head? with
    | none => rfl
    | some p => exact beq_false_of_ne (hattribute p (List.mem_of_mem_head? hhead))
  rw [stringEdit]
  dsimp only
  rw [if_neg (Nat.not_lt.mpr hlength)]
  refine Extract.finds_bind.mpr ⟨[], value, [Text.trim value], ⟨rfl, hcook⟩, ?_, rfl⟩
  rw [hhan, hfixed, hparent]
  exact ⟨rfl, rfl⟩

include hcook in
theorem quiet_stringEdit (h : ¬ o.IsReplaced s source) :
    Extract.Quiet [] (stringEdit s source o.1 o.2) := by
  have hkept : (!Text.hasHan value || isFixed source s.scope.function o.1 o.2) = true := by
    rw [Occurrence.isReplaced_iff hcook, not_and, Bool.not_eq_false] at h
    cases hhan : Text.hasHan value with
    | false => rfl
    | true => exact h hhan
  rw [stringEdit]
  dsimp only
  split
  · exact ⟨rfl, rfl⟩
  · refine Extract.quiet_bind.mpr ⟨value, ⟨rfl, hcook⟩, ?_⟩
    rw [hkept]
    exact ⟨rfl, rfl⟩

end Edits

end LocaleLift.Script
