import LocaleLift.Script.Binding
import LocaleLift.Proofs.Script.Tree
import LocaleLift.Proofs.Edit.Spread

/-! The edits that a tree gives rise to stand apart from each other, if its nodes do. -/
namespace LocaleLift.Script

open Edit (Spread)
open Node (Ordered Spaced)

variable {place : Nat → Prop}

/-- Edits of nodes in a row, those of each inside it. -/
inductive Over (place : Nat → Prop) : List Node → List Edit → Prop where
  | nil : Over place [] []
  | cons {n : Node} {ns : List Node} {es fs : List Edit} (head : Spread place n.start n.stop es)
      (tail : Over place ns fs) : Over place (n :: ns) (es ++ fs)

theorem Over.spread {a b : Nat} {ns : List Node} {es : List Edit} (h : Over place ns es)
    (ho : Ordered a b ns) : Spread place a b es := by
  induction h generalizing a with
  | nil => exact .nil
  | cons head _ ih =>
    obtain ⟨ha, hn, hb⟩ := ho
    exact (head.mono ha (Nat.le_refl _)).append (ih hb) (by omega) hb.le

/-- Only substitutions part the text of a template. -/
private theorem staticRanges_filter (stop cursor : Nat) (ns : List Node) :
    staticRanges stop cursor (ns.filter fun n => n.kind == .substitution) =
      staticRanges stop cursor ns := by
  induction ns generalizing cursor with
  | nil => rfl
  | cons n ns ih =>
    rw [staticRanges]
    by_cases hk : (n.kind == .substitution) = true
    · rw [List.filter_cons_of_pos (p := fun n : Node => n.kind == .substitution) hk, staticRanges,
        if_pos hk, if_pos hk, ih]
    · rw [List.filter_cons_of_neg (p := fun n : Node => n.kind == .substitution) hk, if_neg hk, ih]

private theorem spread_first {x y : Nat} {rs rest : List (Nat × Nat)}
    (hrs : rs.Sublist ((x, y) :: rest)) (hne : ∀ r ∈ rs, r.1 < r.2) (hx : place x) (hy : place y)
    (text : Nat × Nat → Text) :
    ∃ first more, rs = first ++ more ∧ more.Sublist rest ∧
      Spread place x y (first.map fun r => .ofRange r.1 r.2 (text r)) := by
  rcases List.sublist_cons_iff.mp hrs with h | ⟨more, rfl, h⟩
  · exact ⟨[], rs, rfl, h, .nil⟩
  · exact ⟨[(x, y)], more, rfl, h,
      .single hx hy (Nat.le_refl x) (hne (x, y) (List.mem_cons_self ..)) (Nat.le_refl y)⟩

/-- Edits of ranges around substitutions stand apart from those inside the substitutions. -/
theorem Over.spread_around {a b : Nat} {ns : List Node} {fs : List Edit} (h : Over place ns fs)
    (ho : Ordered a b ns) (hk : ∀ n ∈ ns, n.kind = .substitution)
    (hp : ∀ n ∈ ns, place n.start ∧ place n.stop) (ha : place a) (hb : place b)
    {rs : List (Nat × Nat)} (hrs : rs.Sublist (staticRanges b a ns)) (hne : ∀ r ∈ rs, r.1 < r.2)
    (text : Nat × Nat → Text) :
    Spread place a b (rs.map (fun r => .ofRange r.1 r.2 (text r)) ++ fs) := by
  induction h generalizing a rs with
  | nil =>
    obtain ⟨first, more, rfl, hmore, hfirst⟩ := spread_first hrs hne ha hb text
    rw [List.sublist_nil.mp hmore, List.append_nil, List.append_nil]
    exact hfirst
  | @cons n ns es fs head _ ih =>
    obtain ⟨han, hn, hob⟩ := ho
    obtain ⟨hkn, hkns⟩ := List.forall_mem_cons.mp hk
    obtain ⟨⟨hstart, hstop⟩, hpns⟩ := List.forall_mem_cons.mp hp
    rw [staticRanges, if_pos (by simp [hkn])] at hrs
    obtain ⟨first, more, rfl, hmore, hfirst⟩ := spread_first hrs hne ha hstart text
    have hrest := ih hob hkns hpns hstop hmore
      (fun r hr => hne r (List.mem_append_right first hr))
    have hwhole := hfirst.append (head.append hrest hn hob.le) han (Nat.le_trans hn hob.le)
    refine hwhole.perm ?_
    rw [List.map_append, List.append_assoc]
    refine List.Perm.append_left _ ?_
    rw [← List.append_assoc, ← List.append_assoc]
    exact List.Perm.append_right fs List.perm_append_comm

def hanRanges (style : RunStyle) (source : Text) (rs : List (Nat × Nat)) : List (Nat × Nat) :=
  rs.filter fun (a, b) => (Text.pieces style (Utf8.slice a b source)).any fun p => p.run?.isSome

theorem lt_of_mem_hanRanges {style : RunStyle} {source : Text} {rs : List (Nat × Nat)}
    {r : Nat × Nat} (h : r ∈ hanRanges style source rs) : r.1 < r.2 := by
  by_contra hle
  have hnil := Utf8.slice_eq_nil (Nat.le_of_not_lt hle) source
  have hhan := (List.mem_filter.mp h).2
  dsimp only at hhan
  rw [hnil] at hhan
  exact absurd hhan Bool.false_ne_true

private theorem map_filter_pieces (style : RunStyle) (source : Text) (rs : List (Nat × Nat))
    (wrap : List Piece → Text) :
    ((rs.map fun (a, b) => (a, b, Text.pieces style (Utf8.slice a b source))).filter
        fun (_, _, ps) => ps.any fun p => p.run?.isSome).map
      (fun (a, b, ps) => Edit.ofRange a b (wrap ps)) =
    (hanRanges style source rs).map
      fun r => .ofRange r.1 r.2 (wrap (Text.pieces style (Utf8.slice r.1 r.2 source))) := by
  rw [List.filter_map, List.map_map]
  rfl

/-- The edits of the static text of templates, one for each range with Chinese. -/
theorem templateEdits_result (s : Style) (source : Text) (n : Node) (above : List Node) :
    (templateEdits s source n above).result = .ok
      ((hanRanges .ideographs source (if isTagged n above then [] else n.staticRanges)).map fun r =>
        .ofRange r.1 r.2 (Text.wrapTemplateRuns (fun t => asSubstitution (s.scope.call s.quote t))
          (Text.pieces .ideographs (Utf8.slice r.1 r.2 source)))) := by
  rw [templateEdits]
  split
  · rfl
  · exact congrArg Except.ok (map_filter_pieces .ideographs source n.staticRanges _)

theorem Node.lt_of_text_ne_nil (source : Text) {n : Node} (h : n.text source ≠ []) :
    n.start < n.stop := by
  by_contra hle
  exact h (Utf8.slice_eq_nil (Nat.le_of_not_lt hle) source)

theorem stringEdit_spread {s : Style} {source : Text} {n : Node} {above : List Node}
    {es : List Edit} (hn : n.Spaced place) (h : (stringEdit s source n above).result = .ok es) :
    Spread place n.start n.stop es := by
  rw [stringEdit] at h
  dsimp only at h
  split at h
  · cases h
    exact .nil
  · rename_i hlen
    have hlt : n.start < n.stop := by
      refine Node.lt_of_text_ne_nil source fun hnil => hlen ?_
      rw [hnil]
      decide
    obtain ⟨value, -, h⟩ := Extract.bind_eq_ok.mp h
    split at h
    · cases h
      exact .nil
    · obtain ⟨call, -, h⟩ := Extract.bind_eq_ok.mp h
      cases h
      exact .single hn.start hn.stop (Nat.le_refl _) hlt (Nat.le_refl _)

theorem elementEdits_spread {s : Style} {source : Text} {n : Node} {es : List Edit}
    (hn : n.Spaced place) (h : (elementEdits s source n).result = .ok es) :
    Spread place n.start n.stop es := by
  rw [elementEdits] at h
  dsimp only at h
  split at h
  · cases h
    exact .nil
  · rename_i hhan
    have hlt : n.start < n.stop := by
      refine Node.lt_of_text_ne_nil source fun hnil => hhan ?_
      rw [hnil]
      rfl
    cases h
    exact .single hn.start hn.stop (Nat.le_refl _) hlt (Nat.le_refl _)

/-- The edits of a template stand apart, if those of its substitutions do. -/
theorem spread_template {n : Node} {es fs : List Edit} (hn : n.All (Spaced place))
    (hk : n.kind = .template)
    (hfs : Over place (n.children.filter fun c => c.kind == .substitution) fs)
    {rs : List (Nat × Nat)}
    (hrs : rs.Sublist n.staticRanges) (style : RunStyle) (source : Text)
    (text : Nat × Nat → Text)
    (hes : es = (hanRanges style source rs).map fun r => .ofRange r.1 r.2 (text r)) :
    Spread place n.start n.stop (es ++ fs) := by
  obtain ⟨hopen, hclose, hordered⟩ := hn.root.quoted hk
  have hranges : (hanRanges style source rs).Sublist (staticRanges (n.stop - 1) (n.start + 1)
      (n.children.filter fun c => c.kind == .substitution)) := by
    rw [staticRanges_filter]
    exact List.Sublist.trans List.filter_sublist hrs
  have hchildren (c : Node) (hc : c ∈ n.children.filter fun c => c.kind == .substitution) :
      c ∈ n.children ∧ c.kind = .substitution := by simpa using hc
  have hspread := hfs.spread_around (hordered.sublist List.filter_sublist)
    (fun c hc => (hchildren c hc).2) (fun c hc =>
      have hchild := (hn.child (hchildren c hc).1).root
      ⟨hchild.start, hchild.stop⟩) hopen hclose hranges
    (fun r hr => lt_of_mem_hanRanges hr) text
  rw [hes]
  exact hspread.mono (Nat.le_succ _) (Nat.sub_le ..)

private theorem editsOfAll_over {s : Style} {source : Text} {above : List Node}
    {visits : Kind → Bool} {ns : List Node} {fs : List Edit}
    (ih : ∀ n ∈ ns, ∀ es, (edits s source above n).result = .ok es →
      Spread place n.start n.stop es)
    (h : (editsOfAll s source above visits ns).result = .ok fs) :
    Over place (ns.filter fun n => visits n.kind) fs := by
  induction ns generalizing fs with
  | nil =>
    cases h
    exact .nil
  | cons n ns ihs =>
    obtain ⟨hn, hns⟩ := List.forall_mem_cons.mp ih
    rw [editsOfAll] at h
    split at h
    · rename_i hvisits
      obtain ⟨es, hes, h⟩ := Extract.bind_eq_ok.mp h
      obtain ⟨fs', hfs, h⟩ := Extract.bind_eq_ok.mp h
      cases h
      rw [List.filter_cons_of_pos (p := fun n : Node => visits n.kind) hvisits]
      exact .cons (hn es hes) (ihs hns hfs)
    · rename_i hskips
      obtain ⟨es, hes, h⟩ := Extract.bind_eq_ok.mp h
      obtain ⟨fs', hfs, h⟩ := Extract.bind_eq_ok.mp h
      cases hes
      cases h
      rw [List.filter_cons_of_neg (p := fun n : Node => visits n.kind) hskips]
      exact ihs hns hfs

/-- The edits for the literals of a tree stand apart from each other inside it. -/
theorem edits_spread {s : Style} {source : Text} {n : Node} (hn : n.All (Spaced place))
    (above : List Node) (es : List Edit) (h : (edits s source above n).result = .ok es) :
    Spread place n.start n.stop es := by
  induction hn generalizing above es with
  | @mk n root children ih =>
    have hall : n.All (Spaced place) := .mk root children
    cases n with
    | mk k f a b cs =>
      rw [edits] at h
      split at h
      · exact stringEdit_spread root h
      · split at h
        · rename_i hk
          have hk : k = .template := beq_iff_eq.mp (Bool.and_eq_true_iff.mp hk).1
          obtain ⟨statics, hstatics, h⟩ := Extract.bind_eq_ok.mp h
          obtain ⟨inner, hinner, h⟩ := Extract.bind_eq_ok.mp h
          cases h
          rw [templateEdits_result] at hstatics
          refine spread_template hall hk
            (editsOfAll_over (fun n hn es => ih n hn _ es) hinner) ?_ .ideographs source _
            (Except.ok.inj hstatics).symm
          split
          · exact List.nil_sublist _
          · exact List.Sublist.refl _
        · split at h
          · exact elementEdits_spread root h
          · have hover := editsOfAll_over (fun n hn es => ih n hn _ es) h
            rw [List.filter_true] at hover
            exact hover.spread root.ordered

namespace Binding

private theorem phraseEditsOfAll_over {scope : Scope} {quote source : Text} {above : List Node}
    {ns : List Node} {fs : List Edit} (keeps : Node → Bool)
    (ih : ∀ n ∈ ns, ∀ es, (phraseEdits scope quote source above n).result = .ok es →
      Spread place n.start n.stop es ∧ (keeps n = false → es = []))
    (h : (phraseEditsOfAll scope quote source above ns).result = .ok fs) :
    Over place (ns.filter keeps) fs := by
  induction ns generalizing fs with
  | nil =>
    cases h
    exact .nil
  | cons n ns ihs =>
    obtain ⟨hn, hns⟩ := List.forall_mem_cons.mp ih
    rw [phraseEditsOfAll] at h
    obtain ⟨es, hes, h⟩ := Extract.bind_eq_ok.mp h
    obtain ⟨fs', hfs, h⟩ := Extract.bind_eq_ok.mp h
    cases h
    cases hk : keeps n with
    | true =>
      rw [List.filter_cons_of_pos hk]
      exact .cons (hn es hes).1 (ihs hns hfs)
    | false =>
      obtain rfl := (hn es hes).2 hk
      rw [List.filter_cons_of_neg (by simp [hk])]
      exact ihs hns hfs

/-- Without templates there is nothing to edit. -/
private theorem phraseEdits_eq_nil {scope : Scope} {quote source : Text} {n : Node}
    (hn : n.All fun m => m.kind ≠ .template) (above : List Node) (es : List Edit)
    (h : (phraseEdits scope quote source above n).result = .ok es) : es = [] := by
  induction hn generalizing above es with
  | @mk n root children ih =>
    cases n with
    | mk k f a b cs =>
      have hall (ns : List Node) (hns : ns ⊆ cs) (above : List Node) (fs : List Edit)
          (h : (phraseEditsOfAll scope quote source above ns).result = .ok fs) : fs = [] := by
        induction ns generalizing fs with
        | nil =>
          cases h
          rfl
        | cons n ns ihs =>
          obtain ⟨hn, hns⟩ := List.cons_subset.mp hns
          rw [phraseEditsOfAll] at h
          obtain ⟨es, hes, h⟩ := Extract.bind_eq_ok.mp h
          obtain ⟨fs', hfs, h⟩ := Extract.bind_eq_ok.mp h
          cases h
          rw [ih n hn above es hes, ihs hns fs' hfs]
          rfl
      have hk : (k == .template) = false := by simpa [Node.kind] using root
      rw [phraseEdits, hk] at h
      obtain ⟨_, -, h⟩ := Extract.bind_eq_ok.mp h
      obtain ⟨inner, hinner, h⟩ := Extract.bind_eq_ok.mp h
      cases h
      exact hall cs (List.Subset.refl cs) _ inner hinner

/-- So do the edits for the text of its templates alone, if templates stand inside others only in
substitutions. -/
theorem phraseEdits_spread {scope : Scope} {quote source : Text} {n : Node}
    (hn : n.All (Spaced place)) (hflat : n.All Node.IsFlat) (above : List Node) (es : List Edit)
    (h : (phraseEdits scope quote source above n).result = .ok es) :
    Spread place n.start n.stop es := by
  induction hn generalizing above es with
  | @mk n root children ih =>
    have hall : n.All (Spaced place) := .mk root children
    cases n with
    | mk k f a b cs =>
      rw [phraseEdits] at h
      obtain ⟨_, -, h⟩ := Extract.bind_eq_ok.mp h
      obtain ⟨inner, hinner, h⟩ := Extract.bind_eq_ok.mp h
      have hes := (Except.ok.inj h).symm
      dsimp only at hes
      rw [map_filter_pieces] at hes
      subst hes
      by_cases hk : k = .template
      · have hover := phraseEditsOfAll_over (fun c => c.kind == .substitution)
          (fun c hc es hes => ⟨ih c hc (hflat.child hc) _ es hes, fun hkeeps =>
            phraseEdits_eq_nil (hflat.root hk c hc (by simpa using hkeeps)) _ es hes⟩) hinner
        refine spread_template hall hk hover ?_ .phrase source _ rfl
        split
        · exact List.Sublist.refl _
        · exact List.nil_sublist _
      · have hover := phraseEditsOfAll_over (fun _ => true)
          (fun c hc es hes => ⟨ih c hc (hflat.child hc) _ es hes,
            fun hkeeps => by cases hkeeps⟩) hinner
        rw [List.filter_true] at hover
        rw [if_neg (by simp [hk])]
        exact hover.spread root.ordered

end Binding

end LocaleLift.Script
