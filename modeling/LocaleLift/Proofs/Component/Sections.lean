import LocaleLift.Proofs.Component.Kept

/-! Components written as a row of sections: blocks, sections of other names, and what stands
between them. Sections of other names bear on nothing as long as no block begins in them. -/
namespace LocaleLift.Component

open Extract (Agree)

/-- No block begins in a text, whatever follows it: at each place nothing is found, or a comment or
a tag that is passed over and ends in the text. -/
inductive IsBlockless : Text → Prop
  | nil : IsBlockless []
  | plain {c : CodePoint} {t : Text} (h : ∀ rest, matchBlock c (t ++ rest) = none)
      (ht : IsBlockless t) : IsBlockless (c :: t)
  | skipped {c : CodePoint} {inside t : Text}
      (h : ∀ rest, matchBlock c (inside ++ rest) = some (.skipped, inside.length))
      (ht : IsBlockless t) : IsBlockless (c :: inside ++ t)

namespace IsBlockless

theorem append {s t : Text} (hs : IsBlockless s) (ht : IsBlockless t) : IsBlockless (s ++ t) := by
  induction hs with
  | nil => exact ht
  | @plain c s h _ ih =>
    exact .plain (fun rest => (congrArg _ (List.append_assoc s t rest)).trans (h _)) ih
  | skipped h _ ih =>
    rw [List.append_assoc]
    exact .skipped h ih

theorem of_not_mem {t : Text} (h : .scalar '<' ∉ t) : IsBlockless t := by
  induction t with
  | nil => exact .nil
  | cons c t ih =>
    obtain ⟨hc, ht⟩ := not_or.mp (List.mem_cons.not.mp h)
    exact .plain (fun _ => if_neg (Ne.symm hc)) (ih ht)

/-- What follows such a text is read as if the text were not there. -/
theorem parts_append {t : Text} (h : IsBlockless t) (rest : Text) :
    Text.parts matchBlock (t ++ rest) = Text.parts matchBlock t ++ Text.parts matchBlock rest := by
  induction h with
  | nil => rfl
  | @plain c t h _ ih =>
    have halone : matchBlock c t = none := by simpa using h []
    rw [List.cons_append, Text.parts_plain (h rest), Text.parts_plain halone, ih, List.cons_append]
  | @skipped c inside t h _ ih =>
    rw [List.append_assoc, Text.parts_found (h _), Text.parts_found (h t), ih, List.cons_append]

theorem blocksOf_parts {t : Text} (h : IsBlockless t) (passed : Nat) :
    blocksOf passed (Text.parts matchBlock t) = [] := by
  induction h generalizing passed with
  | nil => rfl
  | @plain c t h _ ih =>
    have halone : matchBlock c t = none := by simpa using h []
    rw [Text.parts_plain halone]
    exact ih _
  | @skipped c inside t h _ ih =>
    rw [Text.parts_found (h t)]
    exact ih _

theorem renewAll_parts {t : Text} (h : IsBlockless t) (f : Block → Option Text) (passed : Nat) :
    renewAll f passed (Text.parts matchBlock t) = Text.parts matchBlock t := by
  induction h generalizing passed with
  | nil => rfl
  | @plain c t h _ ih =>
    have halone : matchBlock c t = none := by simpa using h []
    rw [Text.parts_plain halone, renewAll, ih]
    rfl
  | @skipped c inside t h _ ih =>
    rw [Text.parts_found (h t), renewAll, ih]
    rfl

end IsBlockless

theorem blocksOf_append (passed : Nat) (ps qs : List (Part Finding)) :
    blocksOf passed (ps ++ qs) =
      blocksOf passed ps ++ blocksOf (passed + (ps.flatMap Part.text).length) qs := by
  induction ps generalizing passed with
  | nil => rfl
  | cons p ps ih =>
    rw [List.cons_append, blocksOf.eq_def, blocksOf.eq_def passed (p :: ps)]
    dsimp only
    rw [ih, List.flatMap_cons, List.length_append, ← Nat.add_assoc]
    split
    · rfl
    · rfl

theorem renewAll_append (f : Block → Option Text) (passed : Nat) (ps qs : List (Part Finding)) :
    renewAll f passed (ps ++ qs) =
      renewAll f passed ps ++ renewAll f (passed + (ps.flatMap Part.text).length) qs := by
  induction ps generalizing passed with
  | nil => rfl
  | cons p ps ih =>
    rw [List.cons_append, renewAll, renewAll, ih, List.flatMap_cons, List.length_append,
      ← Nat.add_assoc, List.cons_append]

/-- A name for sections that are no blocks: what could be the name of an attribute, does not begin a
comment, and spells the name of no block. -/
structure IsCustomName (name : Text) : Prop where
  chars : ∀ c ∈ name, Markup.isNameChar c = true
  head : name.head? ≠ some (.scalar '!')
  other : ∀ word ∈ (["template", "script", "style"] : List Text), ¬ Spells word name

/-- A section of a component. -/
inductive Section where
  /-- What stands between others. -/
  | gap (text : Text)
  /-- A block with its two tags. -/
  | block (opening content closing : Text)
  /-- A section of another name, such as a documentation. -/
  | custom (name attributes body : Text)
  deriving DecidableEq, Repr

namespace Section

def text : Section → Text
  | gap text => text
  | block opening content closing => opening ++ content ++ closing
  | custom name attributes body =>
    "<" ++ name ++ attributes ++ ">" ++ body ++ "</" ++ name ++ ">"

def isCustom : Section → Bool
  | custom .. => true
  | _ => false

/-- A section is read as what it is, whatever follows it. No block begins in the attributes and in
the body of a section of another name. -/
def IsWhole : Section → Prop
  | gap text => IsBlockless text
  | block opening content closing => ∃ c t kind body, opening ++ content ++ closing = c :: t ∧
      ∀ rest, matchBlock c (t ++ rest) =
        some (.block kind body content opening.length, t.length)
  | custom name attributes body => IsCustomName name ∧
      (attributes ++ ">").head?.any endsName = true ∧ IsBlockless attributes ∧ IsBlockless body

/-- A section that is the same but for the content of a block. -/
inductive Refills : Section → Section → Prop
  | same (s : Section) : Refills s s
  | block (opening content content' closing : Text) :
      Refills (block opening content closing) (block opening content' closing)

end Section

private theorem endsName_of_isNameChar {c : CodePoint} (h : Markup.isNameChar c = true) :
    endsName c = false := by
  obtain ⟨hspace, hmarks⟩ := Bool.and_eq_true_iff.mp h
  have hnot (d : CodePoint) (hd : ("\x22'<>/=" : Text).contains d = true) : c ≠ d := by
    rintro rfl
    rw [hd] at hmarks
    cases hmarks
  rw [Bool.not_eq_true'] at hspace
  simp [endsName, hspace, hnot (.scalar '/') (by decide), hnot (.scalar '>') (by decide)]

private theorem comment?_eq_none {t : Text} (h : t.head? ≠ some (.scalar '!')) :
    comment? t = none := by
  cases t with
  | nil => rfl
  | cons c t =>
    have hdrop : Text.dropStart? "!--" (c :: t) = none :=
      if_neg fun hc => h (congrArg some hc.symm)
    rw [comment?, hdrop]

/-- The opening tag of a section of another name begins no block. -/
private theorem matchBlock_custom {name tail : Text} (h : IsCustomName name)
    (htail : tail.head?.any endsName = true) :
    matchBlock (.scalar '<') (name ++ tail) = none := by
  have hhead : (name ++ tail).head? ≠ some (.scalar '!') := by
    cases name with
    | nil =>
      intro hmark
      rw [List.nil_append] at hmark
      rw [hmark] at htail
      exact absurd htail (by decide)
    | cons c name => exact h.head
  have hwords : ∀ word ∈ (["template", "script", "style"] : List Text), ∀ w ∈ word,
      endsName (foldLetter w) = false := by decide
  rw [matchBlock, if_pos rfl, comment?_eq_none hhead]
  dsimp only
  rw [tag?_other (fun word hword => ⟨hwords word hword, h.other word hword⟩)
    (fun c hc => endsName_of_isNameChar (h.chars c hc)) htail]
  rfl

namespace Section

/-- No block begins in a section of another name. -/
theorem isBlockless_custom {name attributes body : Text}
    (h : (custom name attributes body).IsWhole) :
    IsBlockless (custom name attributes body).text := by
  obtain ⟨hname, hends, hattributes, hbody⟩ := h
  have hbracket : .scalar '<' ∉ name := fun hmem =>
    absurd (hname.chars _ hmem) (by decide)
  have hclose : IsBlockless ("</" ++ (name ++ (">" : Text))) := by
    refine .plain (fun rest => rfl) (.of_not_mem ?_)
    exact List.not_mem_append (by decide) (List.not_mem_append hbracket (by decide))
  have hinside := (IsBlockless.of_not_mem hbracket).append <| hattributes.append <|
    IsBlockless.append (.of_not_mem (t := ">") (by decide)) (hbody.append hclose)
  have hopen (rest : Text) : matchBlock (.scalar '<') (name ++ (attributes ++ ((">" : Text) ++
      (body ++ ("</" ++ (name ++ (">" : Text)))))) ++ rest) = none := by
    rw [List.append_assoc name]
    refine matchBlock_custom hname ?_
    cases attributes with
    | nil => rfl
    | cons c attributes => exact hends
  simp only [text, List.append_assoc]
  exact .plain hopen hinside

variable {s : Section} {ss : List Section}

private theorem parts_block {c : CodePoint} {t kind body content : Text} {offset : Nat}
    (h : ∀ rest, matchBlock c (t ++ rest) = some (.block kind body content offset, t.length)) :
    Text.parts matchBlock (c :: t) = [.found (.block kind body content offset) (c :: t)] := by
  have hfound := Text.parts_found (h [])
  rwa [List.append_nil] at hfound

theorem IsWhole.parts_append (h : s.IsWhole) (rest : Text) :
    Text.parts matchBlock (s.text ++ rest) =
      Text.parts matchBlock s.text ++ Text.parts matchBlock rest := by
  cases s with
  | gap t => exact IsBlockless.parts_append h rest
  | block opening content closing =>
    obtain ⟨c, t, kind, body, htext, hm⟩ := h
    rw [text, htext, Text.parts_found (hm rest), parts_block hm, List.singleton_append]
  | custom name attributes body => exact (isBlockless_custom h).parts_append rest

/-- The block of a section, wherever the section stands, and what the section comes to when the
block gets a new content. -/
theorem IsWhole.exists_block {opening content closing : Text}
    (h : (block opening content closing).IsWhole) : ∃ kind attributes, ∀ passed, ∃ b : Block,
      (b.kind = kind ∧ b.attributes = attributes ∧ b.content = content) ∧
      blocksOf passed (Text.parts matchBlock (block opening content closing).text) = [(passed, b)] ∧
      ∀ f, (renewAll f passed
        (Text.parts matchBlock (block opening content closing).text)).flatMap Part.text =
          (block opening ((f b).getD content) closing).text := by
  obtain ⟨c, t, kind, body, htext, hm⟩ := h
  refine ⟨kind, parseAttributes body, fun passed => ⟨⟨kind, parseAttributes body, content,
    passed + opening.length, passed + opening.length + content.length⟩, ⟨rfl, rfl, rfl⟩, ?_, ?_⟩⟩
  · rw [text, htext, parts_block hm]
    rfl
  · intro f
    rw [text, text, htext, parts_block hm, renewAll, renewAll, renewPart]
    split
    · rename_i new hnew
      rw [hnew, ← htext, List.append_assoc opening content, List.take_left, ← List.drop_drop,
        List.drop_left, List.drop_left]
      simp [Part.text]
    · rename_i hnone
      simp [hnone, Part.text, htext]

/-- A template without tags is whole. -/
theorem isWhole_template {content : Text} (h : .scalar '<' ∉ content) :
    (block "<template>" content "</template>").IsWhole := by
  refine ⟨.scalar '<', "template>" ++ content ++ "</template>", "template", [], rfl, fun rest => ?_⟩
  have htag (names : List Text) (rest : Text)
      (hnames : (names.findSome? fun n => dropWord? n ("template>" ++ rest)) = some (">" ++ rest)) :
      tag? names ("template>" ++ rest) = some (("template" : Text), ([] : Text), 9) := by
    have hname : ("template>" ++ rest : Text) = "template" ++ (">" ++ rest) := rfl
    exact tag?_eq_some hnames hname rfl rfl
  have hclose : matchTemplateTag (.scalar '<') ("/template>" ++ rest) = some (.closing, 10) :=
    congrArg (Option.map fun tag : Text × Text × Nat => (Nesting.closing, tag.2.2 + 1))
      (htag ["template"] rest rfl)
  have hparts : Text.parts matchTemplateTag (content ++ ("</template>" ++ rest)) =
      content.map .plain ++
        .found .closing "</template>" :: Text.parts matchTemplateTag rest := by
    have hnone : ∀ c ∈ content, ∀ t, matchTemplateTag c t = none := fun c hc _ =>
      if_neg (ne_of_mem_of_not_mem hc h)
    rw [parts_passage hnone]
    exact congrArg _ (Text.parts_found hclose)
  have hend : templateEnd 0 1 (Text.parts matchTemplateTag (content ++ ("</template>" ++ rest))) =
      (content.length, content.length + 11) := by
    rw [hparts, templateEnd_plain, Nat.zero_add]
    rfl
  have hlower : Text.toLower "template" = "template" := by decide
  have hdrop (t : Text) : ("template>" ++ t).drop 9 = t := rfl
  have hcomment (t : Text) : comment? ("template>" ++ t) = none := rfl
  have hlength : ("template>" ++ content ++ "</template>" : Text).length =
      9 + (content.length + 11) := by
    rw [List.length_append, List.length_append, Nat.add_assoc]
    rfl
  rw [hlength, List.append_assoc, List.append_assoc, matchBlock, if_pos rfl, hcomment]
  dsimp only
  rw [htag _ _ rfl, Option.map_some]
  dsimp only
  rw [if_neg (by decide), hlower, if_pos rfl, hdrop, hend, List.take_left]
  rfl

end Section

/-- A component that is written as a row of sections. -/
def render (ss : List Section) : Text :=
  ss.flatMap Section.text

def standard (ss : List Section) : List Section :=
  ss.filter fun s => !s.isCustom

section Render

variable {s : Section} {ss : List Section}

theorem standard_custom (name attributes body : Text) (ss : List Section) :
    standard (.custom name attributes body :: ss) = standard ss :=
  rfl

theorem standard_cons (h : s.isCustom = false) (ss : List Section) :
    standard (s :: ss) = s :: standard ss := by
  rw [standard, List.filter_cons_of_pos (by rw [h]; rfl), standard]

private theorem blocksOf_render (h : s.IsWhole) (passed : Nat) :
    blocksOf passed (Text.parts matchBlock (render (s :: ss))) =
      blocksOf passed (Text.parts matchBlock s.text) ++
        blocksOf (passed + s.text.length) (Text.parts matchBlock (render ss)) := by
  rw [render, List.flatMap_cons, h.parts_append, blocksOf_append, Text.flatten_parts, render]

private theorem renewAll_render (h : s.IsWhole) (f : Block → Option Text) (passed : Nat) :
    (renewAll f passed (Text.parts matchBlock (render (s :: ss)))).flatMap Part.text =
      (renewAll f passed (Text.parts matchBlock s.text)).flatMap Part.text ++
        (renewAll f (passed + s.text.length)
          (Text.parts matchBlock (render ss))).flatMap Part.text := by
  rw [render, List.flatMap_cons, h.parts_append, renewAll_append, Text.flatten_parts,
    List.flatMap_append, render]

/-- Two blocks that differ at most in where they stand. -/
structure Block.Alike (b b' : Block) : Prop where
  kind : b'.kind = b.kind
  attributes : b'.attributes = b.attributes
  content : b'.content = b.content

/-- Without the sections of other names a component has the same blocks. -/
theorem alike_blocks (hss : ∀ s ∈ ss, s.IsWhole) (passed passed' : Nat) :
    List.Forall₂ (fun b b' => b.2.Alike b'.2)
      (blocksOf passed (Text.parts matchBlock (render ss)))
      (blocksOf passed' (Text.parts matchBlock (render (standard ss)))) := by
  induction ss generalizing passed passed' with
  | nil => exact .nil
  | cons s ss ih =>
    obtain ⟨hs, hmore⟩ := List.forall_mem_cons.mp hss
    rw [blocksOf_render hs]
    cases s with
    | gap t =>
      rw [standard_cons rfl, blocksOf_render hs, Section.text, IsBlockless.blocksOf_parts hs,
        IsBlockless.blocksOf_parts hs]
      exact ih hmore _ _
    | block opening content closing =>
      obtain ⟨kind, attributes, hblock⟩ := hs.exists_block
      obtain ⟨b, ⟨hkind, hattributes, hcontent⟩, hb, -⟩ := hblock passed
      obtain ⟨b', ⟨hkind', hattributes', hcontent'⟩, hb', -⟩ := hblock passed'
      rw [standard_cons rfl, blocksOf_render hs, hb, hb']
      exact .cons ⟨hkind'.trans hkind.symm, hattributes'.trans hattributes.symm,
        hcontent'.trans hcontent.symm⟩ (ih hmore _ _)
    | custom name attributes body =>
      rw [standard_custom, (Section.isBlockless_custom hs).blocksOf_parts]
      exact ih hmore _ _

/-- With and without the sections of other names a component comes to the same sections when the
same contents are given to its blocks. -/
theorem exists_refills {f f' : Block → Option Text} (hss : ∀ s ∈ ss, s.IsWhole)
    (passed passed' : Nat)
    (h : List.Forall₂ (fun b b' => f b.2 = f' b'.2)
      (blocksOf passed (Text.parts matchBlock (render ss)))
      (blocksOf passed' (Text.parts matchBlock (render (standard ss))))) :
    ∃ ss', List.Forall₂ Section.Refills ss ss' ∧
      (renewAll f passed (Text.parts matchBlock (render ss))).flatMap Part.text = render ss' ∧
      (renewAll f' passed' (Text.parts matchBlock (render (standard ss)))).flatMap Part.text =
        render (standard ss') := by
  induction ss generalizing passed passed' with
  | nil => exact ⟨[], .nil, rfl, rfl⟩
  | cons s ss ih =>
    obtain ⟨hs, hmore⟩ := List.forall_mem_cons.mp hss
    rw [blocksOf_render hs] at h
    rw [renewAll_render hs]
    cases s with
    | gap t =>
      rw [standard_cons rfl, blocksOf_render hs, Section.text, IsBlockless.blocksOf_parts hs,
        IsBlockless.blocksOf_parts hs] at h
      obtain ⟨ss', hrefills, hfirst, hsecond⟩ := ih hmore _ _ h
      refine ⟨.gap t :: ss', .cons (.same _) hrefills, ?_, ?_⟩
      · rw [Section.text, IsBlockless.renewAll_parts hs, Text.flatten_parts, hfirst]
        rfl
      · rw [standard_cons rfl, renewAll_render hs, Section.text, IsBlockless.renewAll_parts hs,
          Text.flatten_parts, hsecond]
        rfl
    | block opening content closing =>
      obtain ⟨kind, attributes, hblock⟩ := hs.exists_block
      obtain ⟨b, -, hb, hnew⟩ := hblock passed
      obtain ⟨b', -, hb', hnew'⟩ := hblock passed'
      rw [standard_cons rfl, blocksOf_render hs, hb, hb'] at h
      obtain ⟨hf, hrest⟩ := List.forall₂_cons.mp h
      obtain ⟨ss', hrefills, hfirst, hsecond⟩ := ih hmore _ _ hrest
      refine ⟨.block opening ((f b).getD content) closing :: ss',
        .cons (.block ..) hrefills, ?_, ?_⟩
      · rw [hnew, hfirst]
        rfl
      · rw [standard_cons rfl, renewAll_render hs, hnew', hsecond, ← hf]
        rfl
    | custom name attributes body =>
      have hquiet := Section.isBlockless_custom hs
      rw [standard_custom, hquiet.blocksOf_parts] at h
      obtain ⟨ss', hrefills, hfirst, hsecond⟩ := ih hmore _ _ h
      refine ⟨.custom name attributes body :: ss', .cons (.same _) hrefills, ?_, hsecond⟩
      rw [hquiet.renewAll_parts, Text.flatten_parts, hfirst]
      rfl

end Render

namespace Block.Alike

variable {b b' : Block}

theorem lang_eq (h : b.Alike b') : b'.lang = b.lang := by
  rw [lang, lang, h.attributes]

theorem isSetup_eq (h : b.Alike b') : b'.isSetup = b.isSetup := by
  rw [isSetup, isSetup, h.attributes]

theorem isLocalizable_eq (h : b.Alike b') : isLocalizable b' = isLocalizable b := by
  rw [isLocalizable, isLocalizable, isMarkup, isMarkup, h.content, h.lang_eq]

end Block.Alike

section SameBlocks

variable {scope : Scope} {text other : Text}

/-- Two components have alike blocks in the same order. -/
private abbrev SameBlocks (text other : Text) : Prop :=
  List.Forall₂ (fun b b' => b.2.Alike b'.2) (blocks text) (blocks other)

/-- Two blocks at the same place of the order. -/
private def Meet (text other : Text) (b b' : Block) : Prop :=
  b.Alike b' ∧ ∃ m m', ((m, b), (m', b')) ∈ (blocks text).zip (blocks other)

private theorem rel_layout_meet (h : SameBlocks text other) :
    Option.Rel (Meet text other) (layout text).template (layout other).template ∧
      List.Forall₂ (Meet text other) (layout text).scripts (layout other).scripts ∧
      List.Forall₂ (Meet text other) (layout text).styles (layout other).styles := by
  obtain ⟨hlength, halike⟩ := List.forall₂_iff_zip.mp h
  exact rel_layout (fun _ _ hb => hb.1.kind)
    (List.forall₂_iff_zip.mpr ⟨hlength, fun hmem => ⟨halike hmem, _, _, hmem⟩⟩)

private theorem rel_setup? (h : SameBlocks text other) :
    Option.Rel (fun s s' => Meet text other s.1 s'.1 ∧ s'.2 = s.2)
      (setup? text) (setup? other) := by
  have hsetup := rel_find? (p := Block.isSetup) (fun _ _ hb => hb.1.isSetup_eq)
    (rel_layout_meet h).2.1
  rw [setup?, setup?, Layout.scriptSetup, Layout.scriptSetup]
  generalize (layout text).scripts.find? Block.isSetup = x at hsetup ⊢
  generalize (layout other).scripts.find? Block.isSetup = y at hsetup ⊢
  cases hsetup with
  | none => exact .none
  | @some b b' hb =>
    dsimp only [Option.bind_eq_bind, Option.bind_some]
    rw [hb.1.lang_eq, hb.1.content]
    cases dialectOf? b.lang with
    | none => exact .none
    | some d =>
      dsimp only [Option.bind_some]
      split
      · exact .none
      · exact .some ⟨hb, rfl⟩

private theorem rel_markup? (h : SameBlocks text other) :
    Option.Rel (Meet text other) (markup? text) (markup? other) := by
  have htemplate := (rel_layout_meet h).1
  rw [markup?, markup?]
  generalize (layout text).template = x at htemplate ⊢
  generalize (layout other).template = y at htemplate ⊢
  cases htemplate with
  | none => exact .none
  | @some b b' hb =>
    rw [Option.filter_some, Option.filter_some, hb.1.isLocalizable_eq]
    split
    · exact .some hb
    · exact .none

/-- The blocks that are localized stand at the same places of the order, and localizing them comes
to the same. -/
private theorem rel_targets [Script.Parser] (h : SameBlocks text other) :
    List.Forall₂ (fun t t' => Meet text other t.block t'.block ∧
      ∀ scope, t'.localize scope = t.localize scope) (targets text) (targets other) := by
  refine List.rel_append ?_ ?_
  · have hsetup := rel_setup? h
    generalize setup? text = x at hsetup ⊢
    generalize setup? other = y at hsetup ⊢
    cases hsetup with
    | none => exact .nil
    | @some s s' hs =>
      refine .cons ⟨hs.1, fun scope => ?_⟩ .nil
      dsimp only [Target.localize]
      rw [hs.1.1.content, hs.2]
  · have hmarkup := rel_markup? h
    generalize markup? text = x at hmarkup ⊢
    generalize markup? other = y at hmarkup ⊢
    cases hmarkup with
    | none => exact .nil
    | @some b b' hb =>
      refine .cons ⟨hb, fun scope => ?_⟩ .nil
      dsimp only [Target.localize]
      rw [hb.1.content]

/-- A block with content stands at one place of the order only. -/
private theorem eq_of_block_eq {α : Type} {zs : List α} {f : α → Nat × Block}
    (hzs : zs.map f = blocks text) {z w : α} (hz : z ∈ zs) (hw : w ∈ zs)
    (he : (f z).2 = (f w).2) (hne : (f z).2.content ≠ []) : z = w := by
  by_contra hzw
  have hstands : zs.Pairwise fun z w => (f z).2.stop ≤ (f w).2.start :=
    List.pairwise_map.mp (hzs ▸ (blocks_spec text).2)
  have hapart : zs.Pairwise fun z w =>
      (f z).2.stop ≤ (f w).2.start ∨ (f w).2.stop ≤ (f z).2.start := hstands.imp .inl
  have : Std.Symm fun z w : α =>
      (f z).2.stop ≤ (f w).2.start ∨ (f w).2.stop ≤ (f z).2.start := ⟨fun _ _ => Or.symm⟩
  have hmem : ((f z).1, (f z).2) ∈ blocks text := hzs ▸ List.mem_map_of_mem hz
  have hlt := (range_of_mem_blocks hmem hne).1
  have := hapart.forall hz hw hzw
  rw [← he] at this
  omega

private theorem outcome_eq [Script.Parser] (h : SameBlocks text other) {m m' : Nat} {b b' : Block}
    (hmem : ((m, b), (m', b')) ∈ (blocks text).zip (blocks other)) :
    outcome scope text b = outcome scope other b' := by
  obtain ⟨hleft, hright⟩ := Extract.mem_of_forall₂ (rel_targets h)
  have hlength := h.length_eq
  refine Option.ext fun new => ?_
  rw [outcome_eq_some, outcome_eq_some]
  constructor
  · rintro ⟨t, ht, rfl, hnew⟩
    obtain ⟨t', ht', ⟨halike, k, k', hmem'⟩, hlocalize⟩ := hleft t ht
    have hsame := eq_of_block_eq (f := Prod.fst) (List.map_fst_zip hlength.le) hmem' hmem rfl
      (mem_blocks_of_targets ht).2
    cases hsame
    exact ⟨t', ht', rfl, (hlocalize scope).symm ▸ hnew⟩
  · rintro ⟨t', ht', rfl, hnew⟩
    obtain ⟨t, ht, ⟨halike, k, k', hmem'⟩, hlocalize⟩ := hright t' ht'
    have hsame := eq_of_block_eq (f := Prod.snd) (List.map_snd_zip hlength.ge) hmem' hmem rfl
      (mem_blocks_of_targets ht').2
    cases hsame
    exact ⟨t, ht, rfl, hlocalize scope ▸ hnew⟩

private theorem agree_localizeSetup [Script.Parser] (h : SameBlocks text other) :
    Agree (localizeSetup scope (layout text)) (localizeSetup scope (layout other)) := by
  have hsetup := rel_setup? h
  rcases localizeSetup_cases scope text with ⟨hnone, hquiet⟩ | ⟨b, d, hb, hlocalize⟩
  · rcases localizeSetup_cases scope other with ⟨-, hquiet'⟩ | ⟨b', d', hb', -⟩
    · exact Extract.Quiet.agree hquiet hquiet'
    · rw [hnone, hb'] at hsetup
      cases hsetup
  · rcases localizeSetup_cases scope other with ⟨hnone', -⟩ | ⟨b', d', hb', hlocalize'⟩
    · rw [hb, hnone'] at hsetup
      cases hsetup
    · rw [hb, hb'] at hsetup
      obtain ⟨⟨halike, -⟩, rfl⟩ := Option.rel_some_some.mp hsetup
      rw [hlocalize, hlocalize', halike.content]
      exact (Agree.refl _).map _ _

private theorem agree_localizeTemplate [Script.Parser] (h : SameBlocks text other) :
    Agree (localizeTemplate scope (layout text)) (localizeTemplate scope (layout other)) := by
  have hmarkup := rel_markup? h
  rcases localizeTemplate_cases scope text with ⟨hnone, hquiet⟩ | ⟨b, hb, hlocalize⟩
  · rcases localizeTemplate_cases scope other with ⟨-, hquiet'⟩ | ⟨b', hb', -⟩
    · exact Extract.Quiet.agree hquiet hquiet'
    · rw [hnone, hb'] at hmarkup
      cases hmarkup
  · rcases localizeTemplate_cases scope other with ⟨hnone', -⟩ | ⟨b', hb', hlocalize'⟩
    · rw [hb, hnone'] at hmarkup
      cases hmarkup
    · rw [hb, hb'] at hmarkup
      obtain ⟨halike, -⟩ := Option.rel_some_some.mp hmarkup
      rw [hlocalize, hlocalize', halike.content]
      exact (Agree.refl _).map _ _

private theorem agree_localize [Script.Parser] (scope : Scope) (h : SameBlocks text other) :
    Agree (localize scope text) (localize scope other) := by
  have hwarnings := (quiet_extraTemplates (layout text).extraTemplates).agree
    (quiet_extraTemplates (layout other).extraTemplates)
  exact hwarnings.bind fun _ _ => (agree_localizeSetup h).bind fun _ _ =>
    (agree_localizeTemplate h).map _ _

end SameBlocks

/-- Sections of other names bear on nothing: without them the same texts are found, and the
component fails alike or comes to the same sections. None is changed but in the content of a
block. -/
theorem localize_sections [Script.Parser] (scope : Scope) {ss : List Section}
    (hss : ∀ s ∈ ss, s.IsWhole) :
    (localize scope (render ss)).texts = (localize scope (render (standard ss))).texts ∧
      ((∃ e, (localize scope (render ss)).result = .error e ∧
          (localize scope (render (standard ss))).result = .error e) ∨
        ∃ ss', List.Forall₂ Section.Refills ss ss' ∧
          (localize scope (render ss)).result = .ok (render ss') ∧
          (localize scope (render (standard ss))).result = .ok (render (standard ss'))) := by
  have hsame : SameBlocks (render ss) (render (standard ss)) := alike_blocks hss 0 0
  obtain ⟨htexts, hresult⟩ := agree_localize scope hsame
  refine ⟨htexts, hresult.elim (fun ⟨out, out', hout, hout'⟩ => .inr ?_) .inl⟩
  have houtcome : List.Forall₂ (fun b b' => outcome scope (render ss) b.2 =
      outcome scope (render (standard ss)) b'.2) (blocks (render ss))
      (blocks (render (standard ss))) :=
    List.forall₂_iff_zip.mpr ⟨hsame.length_eq, fun hmem => outcome_eq hsame hmem⟩
  obtain ⟨ss', hrefills, hfirst, hsecond⟩ := exists_refills hss 0 0 houtcome
  refine ⟨ss', hrefills, ?_, ?_⟩
  · rw [hout, eq_renewAll_of_localize hout, hfirst]
  · rw [hout', eq_renewAll_of_localize hout', hsecond]

end LocaleLift.Component
