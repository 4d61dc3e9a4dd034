import LocaleLift.Proofs.Registry.Filing
import LocaleLift.Proofs.Script.Draft

/-! What localizing an expression comes to: the expression as it is, or the expression with some of
its strings swapped for calls or, where no string is to be swapped, with calls in the text of its
templates. Nothing of the script around it is touched. -/
namespace LocaleLift.Script.Binding

open Extract (Finds)
open Utf8 (Boundary)

variable {scope : Scope} {quote source : Text} {value : Node}

/-- An edit puts the call for the value of a string, which is found, in the place of this string. -/
def EditsString (scope : Scope) (quote source : Text) (value : Node) (ts : List Text) (e : Edit) :
    Prop :=
  ∃ o ∈ occurrences [] value, o.1.kind = .string ∧
    ∃ v, Literal.cook (o.1.body source) = .ok v ∧ Text.trim v ∈ ts ∧
      e = .ofRange o.1.start o.1.stop (scope.call quote (Text.trim v))

/-- An edit puts calls in the place of the phrases in a segment of a template that is not tagged. -/
def EditsSegment (scope : Scope) (quote source : Text) (value : Node) (e : Edit) : Prop :=
  ∃ o ∈ occurrences [] value, o.1.kind = .template ∧ ¬ o.IsTagged ∧
    ∃ r ∈ o.1.segments, Text.hasHan (Utf8.slice r.1 r.2 source) = true ∧
      e = .ofRange r.1 r.2 (wrapSegment scope quote (Utf8.slice r.1 r.2 source))

private theorem exists_of_mem_dues (hvalue : value.All (Node.Read False source)) {d : Due}
    (hd : d ∈ (style scope quote).dues source value) :
    ∃ o ∈ occurrences [] value, o.1.kind = .string ∧
      ∃ v, Literal.cook (o.1.body source) = .ok v ∧ d.texts = [Text.trim v] ∧
        d.edit (style scope quote) =
          .ofRange o.1.start o.1.stop (scope.call quote (Text.trim v)) := by
  obtain ⟨o, ho, hd⟩ := List.mem_flatMap.mp hd
  have ho := (List.mem_filter.mp ho).1
  obtain ⟨hk, v, hcook, hd⟩ := Occurrence.string_of_mem_dues rfl rfl hd
  have hattribute : ¬ o.IsAttribute := by
    rintro ⟨parent, hparent, hkind⟩
    have habove := (all_of_mem_occurrences hvalue (List.forall_mem_nil _) ho).2
    exact (habove parent (List.mem_of_mem_head? hparent)).admitted hkind
  rw [Occurrence.stringDues, if_neg hattribute, if_neg hattribute] at hd
  split at hd
  · obtain rfl := List.mem_singleton.mp hd
    refine ⟨o, ho, hk, v, hcook, rfl, ?_⟩
    simp [Due.edit, Text.wrapRuns, style]
  · cases hd

/-- Strings are edited, and for each one text is found. -/
private theorem finds_strings (hvalue : value.All (Node.Read False source)) {ts : List Text}
    {es : List Edit} (h : Finds ts es (edits (style scope quote) source [] value)) :
    (ts = [] ↔ es = []) ∧ ∀ e ∈ es, EditsString scope quote source value ts e := by
  have hwell := hvalue.imp fun _ hn => hn.toParsed.wellFormed
  obtain ⟨-, rfl, rfl⟩ := (yields_literals hwell ts es).mp h
  refine ⟨?_, fun e he => ?_⟩
  · rw [List.flatMap_eq_nil_iff, List.map_eq_nil_iff, List.eq_nil_iff_forall_not_mem]
    refine forall₂_congr fun d hd => iff_of_false (fun hnil => ?_) id
    obtain ⟨o, -, -, v, -, htexts, -⟩ := exists_of_mem_dues hvalue hd
    rw [htexts] at hnil
    cases hnil
  · obtain ⟨d, hd, rfl⟩ := List.mem_map.mp he
    obtain ⟨o, ho, hk, v, hcook, htexts, hedit⟩ := exists_of_mem_dues hvalue hd
    exact ⟨o, ho, hk, v, hcook, List.mem_flatMap.mpr ⟨d, hd, by simp [htexts]⟩, hedit⟩

/-- Segments of templates are edited, and for each one texts are found. -/
private theorem finds_segments (hvalue : value.All (Node.Read False source)) {ts : List Text}
    {es : List Edit} (h : Finds ts es (phraseEdits scope quote source [] value)) :
    (ts = [] ↔ es = []) ∧ ∀ e ∈ es, EditsSegment scope quote source value e := by
  refine ⟨?_, fun e he => ?_⟩
  · have hfinds := finds_phraseEdits scope quote source [] value
    rw [← h.1, hfinds.1, ← Except.ok.inj (hfinds.2.symm.trans h.2), List.flatMap_eq_nil_iff,
      List.flatMap_eq_nil_iff]
    refine forall₂_congr fun o _ => ?_
    rw [List.flatMap_eq_nil_iff, List.map_eq_nil_iff, List.eq_nil_iff_forall_not_mem]
    exact forall₂_congr fun r hr => iff_of_false (phraseTexts_ne_nil hr) id
  · obtain ⟨o, ho, r, hr, rfl⟩ := exists_of_mem_phraseEdits h.2 he
    obtain ⟨⟨hk, huntagged⟩, hr, hhan⟩ := mem_phraseRanges.mp hr
    have hnode := (all_of_mem_occurrences hvalue (List.forall_mem_nil _) ho).1
    have hlt : o.1.start < o.1.stop := by
      have := (hnode.quoted hk).2.2.1.le
      omega
    obtain ⟨hchild, -⟩ := Occurrence.isChild_of_mem
      (hvalue.imp fun _ hn => hn.toParsed.wellFormed) (fun _ h => by cases h) ho
    refine ⟨o, ho, hk, fun htagged => ?_, r, ?_, hhan, rfl⟩
    · rw [(Occurrence.isTagged_iff hchild hlt).mpr htagged] at huntagged
      cases huntagged
    · rwa [← Node.staticRanges_eq_segments]

variable {expression : Text}

/-- An edit of a range that lies in an expression and is not replaced by what it holds. -/
private structure Changes (expression : Text) (e : Edit) : Prop where
  first : Utf8.size opening ≤ e.start
  last : e.stop ≤ Utf8.size (opening ++ expression)
  diverges : ∀ x y : Nat, e.start = x → e.stop = y →
    (Utf8.slice x y (enclose expression)).Diverges e.text

private theorem changes_ofRange {a b : Nat} {text : Text} (hfirst : Utf8.size opening ≤ a)
    (hlast : b ≤ Utf8.size (opening ++ expression))
    (h : (Utf8.slice a b (enclose expression)).Diverges text) :
    Changes expression (.ofRange a b text) := by
  refine ⟨Int.ofNat_le.mpr hfirst, Int.ofNat_le.mpr hlast, fun x y hx hy => ?_⟩
  obtain rfl := Int.ofNat.inj hx
  obtain rfl := Int.ofNat.inj hy
  exact h

/-- A call begins with no quote, if the name of the function does not. -/
private theorem exists_call (hfunction : ∀ c ∈ scope.function.head?, ¬ CodePoint.IsQuote c)
    (quote t : Text) : ∃ c rest, scope.call quote t = c :: rest ∧ ¬ c.IsQuote := by
  rw [Scope.call, lookupCall]
  cases hname : scope.function with
  | nil => exact ⟨.scalar '(', _, rfl, by decide⟩
  | cons c rest => exact ⟨c, _, rfl, hfunction c (by simp [hname])⟩

private theorem changes_string (hvalue : value.All (Node.Read False (enclose expression)))
    (hfunction : ∀ c ∈ scope.function.head?, ¬ CodePoint.IsQuote c) {ts : List Text} {e : Edit}
    (he : EditsString scope quote (enclose expression) value ts e) : Changes expression e := by
  obtain ⟨o, ho, hk, v, -, -, rfl⟩ := he
  have hnode := (all_of_mem_occurrences hvalue (List.forall_mem_nil _) ho).1
  obtain ⟨q, body, hq, htext⟩ := hnode.literal hk
  obtain ⟨before, here, after, hsource, hstart, hstop⟩ :=
    hnode.start.split hnode.stop hnode.ordered.le
  have hhere : here = q :: (body ++ [q]) := by
    rw [← htext, Node.text, ← hstart, ← hstop, hsource, Utf8.slice_append]
  rw [hhere] at hsource hstop
  have hnone : ∀ c ∈ opening ++ closing, ¬ c.IsQuote := by decide
  obtain ⟨hopening, hclosing⟩ := List.forall_mem_append.mp hnone
  have hfirst : enclose expression = before ++ q :: (body ++ [q] ++ after) := by
    rw [hsource, List.append_assoc]
    rfl
  have hlast : enclose expression = before ++ q :: body ++ [q] ++ after := by
    rw [hsource, ← List.cons_append, ← List.append_assoc]
  refine changes_ofRange ?_ ?_ ?_
  · rw [← hstart]
    exact size_opening_le hfirst fun hmem => hopening q hmem hq
  · rw [← hstop, ← List.cons_append, ← List.append_assoc]
    exact size_le_of_not_mem_closing hlast fun hmem => hclosing q hmem hq
  · obtain ⟨c, rest, hcall, hc⟩ := exists_call hfunction quote (Text.trim v)
    change Text.Diverges (o.1.text (enclose expression)) _
    rw [htext, hcall]
    refine .cons ?_ _ _
    rintro rfl
    exact hc hq

private theorem changes_segment (hvalue : value.All (Node.Read False (enclose expression)))
    {e : Edit} (he : EditsSegment scope quote (enclose expression) value e) :
    Changes expression e := by
  obtain ⟨o, ho, hk, -, r, hr, hhan, rfl⟩ := he
  have hnode := (all_of_mem_occurrences hvalue (List.forall_mem_nil _) ho).1
  obtain ⟨hopen, -, hordered, -⟩ := hnode.quoted hk
  have hinside : o.1.start + 1 ≤ r.1 ∧ r.2 ≤ o.1.stop - 1 := by
    rw [← Node.staticRanges_eq_segments] at hr
    refine inside_of_mem_staticRanges (fun c hc => ?_) (Nat.le_refl _) (Nat.le_refl _) hr
    have := hordered.inside hc
    omega
  refine changes_ofRange ?_ ?_ ?_
  · -- The template begins with a backquote, and none stands in front of the expression.
    obtain ⟨before, here, after, hsource, hstart, hstop⟩ :=
      hnode.start.split hopen (Nat.le_succ _)
    have hhere : here = "\x60" := by
      rw [← hnode.backquoted hk, ← hstop, ← hstart, hsource, Utf8.slice_append]
    rw [hhere, List.append_assoc] at hsource
    have := size_opening_le hsource (by decide)
    omega
  · have hle := hnode.stop.le_size
    rw [enclose, Utf8.size_append] at hle
    have hclosing : Utf8.size closing = 1 := rfl
    omega
  · rw [wrapSegment]
    conv_lhs => rw [← Text.flatten_pieces .phrase (Utf8.slice r.1 r.2 (enclose expression))]
    refine Text.diverges_wrapTemplateRuns (fun t => ⟨_, rfl⟩)
      (fun t ht => ⟨.phrase, Text.isRun_of_mem_pieces ht⟩) ?_
    rwa [Text.any_run_pieces]

/-- Edits in an expression come to a draft of it, and the script around it is taken away as it
was. -/
private theorem exists_draft_edits {a b : Nat} {es : List Edit} {out : Text}
    (hexpression : expression.isEncodable = true)
    (hspread : Edit.Spread (Boundary (enclose expression)) a b es)
    (hchanges : ∀ e ∈ es, Changes expression e) (hne : es ≠ [])
    (hout : applyEdits (enclose expression) es = .ok out) :
    ∃ draft : Draft, draft.old = expression ∧ draft.new = disclose out ∧
      draft.new ≠ draft.old ∧ ((draft.swapsFrom opening).map Edit.ofSwap).Perm es := by
  have hinside : Edit.Spread (Boundary (opening ++ expression)) a b es := by
    refine ⟨fun e he => ?_, hspread.apart⟩
    obtain ⟨x, y, hx, hy, px, py, ha, hxy, hb⟩ := hspread.inside e he
    have := (hchanges e he).last
    exact ⟨x, y, hx, hy, px.of_append (by omega), py.of_append (by omega), ha, hxy, hb⟩
  obtain ⟨whole, hold, rfl, hswaps⟩ := hinside.exists_swaps (isEncodable_enclose hexpression) hout
  have hmem {s : Swap} (hs : s ∈ whole.swaps) : Changes expression (.ofSwap s) :=
    hchanges _ (hswaps.mem_iff.mp (List.mem_map_of_mem hs))
  have hbehind : ∀ s ∈ whole.swaps, opening <+: s.before := by
    intro s hs
    have hprefix := (List.prefix_append ..).trans (Draft.old_of_mem_swaps hs)
    rw [hold] at hprefix
    exact Utf8.prefix_of_size_le (List.prefix_append ..) hprefix
      (Int.ofNat_le.mp (hmem hs).first)
  have hdiverge : ∀ s ∈ whole.swaps, s.old.Diverges s.new := by
    intro s hs
    obtain ⟨rest, hrest⟩ := Draft.old_of_mem_swaps hs
    have hslice := (hmem hs).diverges _ _ rfl rfl
    rwa [enclose, ← hold, ← hrest, List.append_assoc _ rest, Utf8.slice_append] at hslice
  have hsome : whole.swaps ≠ [] := fun hnil => hne (by simpa [hnil] using hswaps)
  have hchanged := Draft.new_ne_old hsome hdiverge
  obtain ⟨draft, rfl, rfl⟩ := Draft.exists_behind hold hbehind
  refine ⟨draft, rfl, ?_, fun heq => hchanged ?_, ?_⟩
  · rw [disclose, Draft.new_append, Draft.new_keep, List.append_assoc, List.drop_left]
    exact List.dropLast_concat.symm
  · rw [Draft.new_append, Draft.old_append, Draft.new_keep, Draft.old_keep, heq]
  · rwa [Draft.swaps, Draft.swapsFrom_append, Draft.swapsFrom_keep, Draft.old_keep] at hswaps

/-- Either strings are edited or segments, never both, and whatever is edited is found. -/
private theorem finds_allEdits (hvalue : value.All (Node.Read False source)) {ts : List Text}
    {es : List Edit} (h : Finds ts es (allEdits scope quote source value)) :
    (ts = [] ↔ es = []) ∧ ((∀ e ∈ es, EditsString scope quote source value ts e) ∨
      ∀ e ∈ es, EditsSegment scope quote source value e) := by
  obtain ⟨us, fs, vs, hstrings, hrest, rfl⟩ := Extract.finds_bind.mp h
  obtain ⟨hus, hfs⟩ := finds_strings hvalue hstrings
  split at hrest
  · rename_i hempty
    obtain ⟨hvs, hes⟩ := finds_segments hvalue hrest
    rw [hus.mpr (List.isEmpty_iff.mp hempty), List.nil_append]
    exact ⟨hvs, .inr hes⟩
  · obtain ⟨rfl, rfl⟩ := Extract.finds_pure.mp hrest
    rw [List.append_nil]
    exact ⟨hus, .inl hfs⟩

/-- An expression without a call is changed, and texts are found in it. All of it is kept but ranges
apart from each other: these are strings of its tree, or else segments of its templates. -/
structure Rewritten [Parser] (scope : Scope) (quote expression : Text) (ts : List Text) (out : Text)
    :
    Prop where
  changed : out ≠ expression
  found : ts ≠ []
  swapped : ∃ value draft, parse? expression = some value ∧
    hasLookupCall (enclose expression) scope.function value = false ∧
    Draft.old draft = expression ∧ draft.new = out ∧
      ((∀ s ∈ draft.swapsFrom opening,
          EditsString scope quote (enclose expression) value ts (.ofSwap s)) ∨
        ∀ s ∈ draft.swapsFrom opening,
          EditsSegment scope quote (enclose expression) value (.ofSwap s))

private theorem kept_or_rewritten [Parser] [Parser.IsSound] {ts : List Text} {out : Text}
    (hfunction : ∀ c ∈ scope.function.head?, ¬ CodePoint.IsQuote c)
    (h : Finds ts out (localize scope quote expression)) :
    out = expression ∧ ts = [] ∨ Rewritten scope quote expression ts out := by
  cases hexpression : expression.isEncodable with
  | false =>
    rw [localize, hexpression] at h
    cases h.2
  | true =>
    rw [localize_eq hexpression] at h
    split at h
    · obtain ⟨rfl, hout⟩ := h
      exact .inl ⟨(Except.ok.inj hout).symm, rfl⟩
    · rename_i value hparse
      have hvalue := parse?_read hparse
      split at h
      · obtain ⟨rfl, rfl⟩ := Extract.finds_pure.mp h
        exact .inl ⟨rfl, rfl⟩
      · rename_i hcall
        obtain ⟨us, es, vs, hedits, hfinish, rfl⟩ := Extract.finds_bind.mp h
        obtain ⟨hus, hkinds⟩ := finds_allEdits hvalue hedits
        obtain rfl : vs = [] := hfinish.1.symm.trans (texts_finish ..)
        rw [List.append_nil]
        rw [finish] at hfinish
        split at hfinish
        · rename_i hempty
          exact .inl ⟨(Except.ok.inj hfinish.2).symm, hus.mpr (List.isEmpty_iff.mp hempty)⟩
        · rename_i hsome
          have hne : es ≠ [] := fun hnil => hsome (List.isEmpty_iff.mpr hnil)
          obtain ⟨new, hnew, rfl⟩ := Extract.finds_map.mp hfinish
          have hchanges : ∀ e ∈ es, Changes expression e := by
            rcases hkinds with hstrings | hsegments
            · exact fun e he => changes_string hvalue hfunction (hstrings e he)
            · exact fun e he => changes_segment hvalue (hsegments e he)
          obtain ⟨draft, hold, hdraft, hchanged, hswaps⟩ := exists_draft_edits hexpression
            (allEdits_spread hparse hedits.2) hchanges hne hnew.2
          have hmem {s : Swap} (hs : s ∈ draft.swapsFrom opening) : Edit.ofSwap s ∈ es :=
            hswaps.mem_iff.mp (List.mem_map_of_mem hs)
          refine .inr ⟨?_, mt hus.mp hne, value, draft, hparse, by simpa using hcall, hold, hdraft,
            ?_⟩
          · rwa [← hdraft, ← hold]
          · exact hkinds.imp (fun h s hs => h _ (hmem hs)) fun h s hs => h _ (hmem hs)

/-- Localizing an expression does nothing or changes it, and nothing outside its literals. It stays
as it is, and so does the registry, if it is not exactly one expression or holds a call. If it is
changed, texts have been found, which are then in the registry, and what comes of it is the
expression with ranges of strings, or else of segments of templates, swapped for calls. -/
theorem localize_confined [Parser] [Parser.IsSound] (r : Registry)
    {ns function quote expression out : Text}
    {ts : List Text} (hfunction : ∀ c ∈ function.head?, ¬ CodePoint.IsQuote c)
    (h : Finds ts out (localize ⟨ns, r.common, function⟩ quote expression)) :
    (parse? expression = none ∨ hasCall function expression = .ok true →
      out = expression ∧ r.recordAll ns ts = r) ∧
    (out = expression ∧ r.recordAll ns ts = r ∨
      Rewritten ⟨ns, r.common, function⟩ quote expression ts out ∧
        ∀ t ∈ ts, (r.common.resolve ns t, t) ∈ (r.recordAll ns ts).toList) := by
  rcases kept_or_rewritten hfunction h with ⟨rfl, rfl⟩ | hrewritten
  · exact ⟨fun _ => ⟨rfl, rfl⟩, .inl ⟨rfl, rfl⟩⟩
  · refine ⟨fun hkept => ?_, .inr ⟨hrewritten, fun t ht => ?_⟩⟩
    · obtain ⟨value, -, hparse, hnone, -⟩ := hrewritten.swapped
      rcases hkept with hkept | hkept
      · rw [hparse] at hkept
        cases hkept
      · rw [hasCall, hparse, Option.any_some, hnone] at hkept
        split at hkept <;> cases hkept
    · exact Registry.mem_toList_recordAll.mpr (.inr ⟨ht, rfl⟩)

/-- Around a choice there is white space, and only the string in it is swapped. -/
theorem localize_confined_choice :
    let r : Registry := .empty (.ofList [] "common")
    let expression : Text := " ok ? '中' : `文` "
    let out : Text := " ok ? $t(\x27test.中\x27) : `文` "
    Finds ["中"] out (localize ⟨"test", r.common, "$t"⟩ "\x27" expression) ∧
      Rewritten ⟨"test", r.common, "$t"⟩ "\x27" expression ["中"] out := by
  intro r expression out
  have h : Finds ["中"] out (localize ⟨"test", r.common, "$t"⟩ "\x27" expression) := by
    have hexpression : expression = _ := Text.ofString_ofList _
    rw [hexpression, Finds]
    decide +kernel
  have hchanged : out ≠ expression := by decide
  exact ⟨h, ((localize_confined r (by decide) h).2.resolve_left fun hkept => hchanged hkept.1).1⟩

/-- Without a string to swap, the phrases of templates become calls, unless these are tagged. -/
example : (localize ⟨"test", .ofList [] "common", "$t"⟩ "\x27" "tag`中` + `文：$\x7ba\x7d`").result =
    .ok "tag`中` + `$\x7b$t(\x27test.文：\x27)\x7d$\x7ba\x7d`" := by decide +kernel

end LocaleLift.Script.Binding
