import LocaleLift.Proofs.Component.Frame
import LocaleLift.Proofs.Component.Renewal
import LocaleLift.Proofs.Markup.Draft

/-! The blocks of a component are kept when the contents of some of them are revised. -/
namespace LocaleLift.Component

open Draft (keep)
open Extract (Finds)

section Renew

variable (f : Block → Option Text)

/-- A part where `f` gives the block a new content, if it is one that stands behind so much. -/
def renewPart (passed : Nat) : Part Finding → Part Finding
  | .found (.block kind body content offset) text =>
    let start := passed + offset
    match f ⟨kind, parseAttributes body, content, start, start + content.length⟩ with
    | some new => .found (.block kind body new offset)
        (text.take offset ++ new ++ text.drop (offset + content.length))
    | none => .found (.block kind body content offset) text
  | p => p

def renewAll (passed : Nat) : List (Part Finding) → List (Part Finding)
  | [] => []
  | p :: ps => renewPart f passed p :: renewAll (passed + p.text.length) ps

/-- The draft that swaps the content of a part for the one that `f` gives it. -/
def draftPart (passed : Nat) : Part Finding → Draft
  | .found (.block kind body content offset) text =>
    let start := passed + offset
    match f ⟨kind, parseAttributes body, content, start, start + content.length⟩ with
    | some new => keep (text.take offset) ++
        .swapped content new :: keep (text.drop (offset + content.length))
    | none => keep text
  | p => keep p.text

/-- The draft that swaps contents for those that `f` gives. -/
def draftAll (passed : Nat) : List (Part Finding) → Draft
  | [] => []
  | p :: ps => draftPart f passed p ++ draftAll (passed + p.text.length) ps

/-- The content of a block stands at its offset. -/
def Sits : Part Finding → Prop
  | .found (.block _ _ content offset) text =>
    ∃ before after, text = before ++ content ++ after ∧ before.length = offset
  | _ => True

theorem sits_of_mem_parts {text : Text} {p : Part Finding}
    (h : p ∈ Text.parts matchBlock text) : Sits p := by
  have hof := Text.of_mem_parts h
  unfold Sits
  split
  · obtain ⟨_, c, t, n, -, hm, rfl⟩ := hof
    exact block_in_part hm
  · trivial

variable {f}

private theorem draftPart_old {p : Part Finding} (h : Sits p) (passed : Nat) :
    (draftPart f passed p).old = p.text ∧ (draftPart f passed p).new = (renewPart f passed p).text := by
  unfold draftPart renewPart
  split
  · obtain ⟨before, after, rfl, rfl⟩ := h
    dsimp only
    split
    · rw [List.append_assoc before, List.take_left, ← List.drop_drop, List.drop_left,
        List.drop_left]
      simp [Part.text, Stretch.old, Stretch.new]
    · simp [Part.text]
  · simp

private theorem draftAll_old {ps : List (Part Finding)} (h : ∀ p ∈ ps, Sits p) (passed : Nat) :
    (draftAll f passed ps).old = ps.flatMap Part.text ∧
      (draftAll f passed ps).new = (renewAll f passed ps).flatMap Part.text := by
  induction ps generalizing passed with
  | nil => exact ⟨rfl, rfl⟩
  | cons p ps ih =>
    obtain ⟨hp, hps⟩ := List.forall_mem_cons.mp h
    obtain ⟨hold, hnew⟩ := draftPart_old (f := f) hp passed
    obtain ⟨holds, hnews⟩ := ih hps (passed + p.text.length)
    rw [draftAll, renewAll, Draft.old_append, Draft.new_append, hold, hnew, holds, hnews]
    exact ⟨rfl, rfl⟩

/-- The swaps are those of the blocks that get new contents. -/
private theorem swaps_draftAll {ps : List (Part Finding)} (h : ∀ p ∈ ps, Sits p) (before : Text) :
    ((draftAll f before.length ps).swapsFrom before).map Replacement.ofSwap =
      (blocksOf before.length ps).filterMap fun b => (f b.2).map (Replacement.ofBlock b.2) := by
  induction ps generalizing before with
  | nil => rfl
  | cons p ps ih =>
    obtain ⟨hp, hps⟩ := List.forall_mem_cons.mp h
    have hrest := ih hps (before ++ p.text)
    rw [List.length_append] at hrest
    rw [draftAll, Draft.swapsFrom_append, List.map_append, (draftPart_old hp _).1, hrest]
    cases p with
    | plain c => rfl
    | found a text =>
      cases a with
      | skipped =>
        change (Draft.swapsFrom before (keep text)).map Replacement.ofSwap ++ _ = _
        rw [Draft.swapsFrom_keep]
        rfl
      | block kind body content offset =>
        obtain ⟨start, after, rfl, rfl⟩ := hp
        rw [draftPart, blocksOf, List.filterMap_cons]
        dsimp only
        split
        · rename_i new hf
          rw [hf]
          simp [Draft.swapsFrom, Replacement.ofSwap, Replacement.ofBlock, Nat.add_assoc]
        · rename_i hf
          rw [hf]
          simp

/-- What is read stays what it is when blocks get contents that their own are revised to. -/
private theorem parses_renewAll (first : List (Part Finding)) {ps : List (Part Finding)} (passed : Nat)
    (hsits : ∀ p ∈ ps, Sits p) (hf : ∀ b new, f b = some new → Text.Revised b.content new)
    (h : Parses (first ++ ps)) : Parses (first ++ renewAll f passed ps) := by
  induction ps generalizing first passed with
  | nil => exact h
  | cons p ps ih =>
    obtain ⟨hp, hps⟩ := List.forall_mem_cons.mp hsits
    have hfirst : Parses (first ++ renewPart f passed p :: ps) := by
      unfold renewPart
      split
      · obtain ⟨before, after, rfl, rfl⟩ := hp
        dsimp only
        split
        · rename_i new hnew
          rw [List.append_assoc before, List.take_left, ← List.drop_drop, List.drop_left,
            List.drop_left]
          exact h.renew (hf _ _ hnew)
        · exact h
      · exact h
    rw [List.append_cons] at hfirst
    rw [renewAll, List.append_cons]
    exact ih _ _ hps hfirst

/-- A block gets the content that `f` gives it, and is otherwise the same. -/
structure RenewedBy (f : Block → Option Text) (b b' : Block) : Prop where
  kind : b'.kind = b.kind
  attributes : b'.attributes = b.attributes
  content : b'.content = (f b).getD b.content

private theorem blocksOf_renewAll (ps : List (Part Finding)) (passed passed' : Nat) :
    List.Forall₂ (fun b b' => RenewedBy f b.2 b'.2) (blocksOf passed ps)
      (blocksOf passed' (renewAll f passed ps)) := by
  induction ps generalizing passed passed' with
  | nil => exact .nil
  | cons p ps ih =>
    rw [renewAll]
    cases p with
    | plain c => exact ih _ _
    | found a text =>
      cases a with
      | skipped => exact ih _ _
      | block kind body content offset =>
        rw [renewPart, blocksOf]
        split
        · rename_i new hf
          exact .cons ⟨rfl, rfl, by rw [hf]; rfl⟩ (ih _ _)
        · rename_i hf
          exact .cons ⟨rfl, rfl, by rw [hf]; rfl⟩ (ih _ _)

end Renew

/-- What a block comes to when the component is localized: if it is localized, its content is what it
is localized to on its own, and otherwise nothing is changed. -/
structure Keeps [Script.Parser] (scope : Scope) (text : Text) (b b' : Block) : Prop where
  kind : b'.kind = b.kind
  attributes : b'.attributes = b.attributes
  target : ∀ t ∈ targets text, t.block = b → (t.localize scope).result = .ok b'.content
  other : (∀ t ∈ targets text, t.block ≠ b) → b'.content = b.content

variable {scope : Scope} {text out : Text}

private theorem target_eq {s t : Target} (hs : s ∈ targets text) (ht : t ∈ targets text)
    (h : s.block = t.block) : s = t := by
  have hcases {u : Target} (hu : u ∈ targets text) :
      (∃ d, setup? text = some (u.block, d) ∧ u = .script u.block d) ∨
        markup? text = some u.block ∧ u = .template u.block := by
    rcases List.mem_append.mp hu with hu | hu
    · obtain ⟨⟨b, d⟩, hb, rfl⟩ := Option.map_eq_some_iff.mp (Option.mem_toList.mp hu)
      exact .inl ⟨d, hb, rfl⟩
    · obtain ⟨b, hb, rfl⟩ := Option.map_eq_some_iff.mp (Option.mem_toList.mp hu)
      exact .inr ⟨hb, rfl⟩
  have hapart {d : Dialect} (hsetup : setup? text = some (s.block, d))
      (hmarkup : markup? text = some s.block) : False := by
    have hscript := (mem_blocks_of_setup? hsetup).2.1
    rw [(mem_blocks_of_markup? hmarkup).2.1] at hscript
    exact absurd hscript (by decide)
  rcases hcases hs with ⟨d, hsetup, hs'⟩ | ⟨hmarkup, hs'⟩
  · rcases hcases ht with ⟨d', hsetup', ht'⟩ | ⟨hmarkup, -⟩
    · rw [← h] at hsetup'
      cases hsetup.symm.trans hsetup'
      rw [hs', ht', h]
    · exact (hapart hsetup (h ▸ hmarkup)).elim
  · rcases hcases ht with ⟨d', hsetup', -⟩ | ⟨-, ht'⟩
    · exact (hapart (h ▸ hsetup') hmarkup).elim
    · rw [hs', ht', h]

/-- What a block is localized to, if it is localized at all. -/
def outcome [Script.Parser] (scope : Scope) (text : Text) (b : Block) : Option Text :=
  ((targets text).find? fun t => t.block = b).bind fun t => (t.localize scope).result.toOption

theorem outcome_eq_some [Script.Parser] {b : Block} {new : Text} : outcome scope text b = some new ↔
    ∃ t ∈ targets text, t.block = b ∧ (t.localize scope).result = .ok new := by
  have hresult (t : Target) : (t.localize scope).result.toOption = some new ↔
      (t.localize scope).result = .ok new := by
    cases (t.localize scope).result with
    | ok a => exact ⟨fun h => congrArg Except.ok (Option.some.inj h),
        fun h => congrArg some (Except.ok.inj h)⟩
    | error e => exact ⟨(fun h => by cases h), (fun h => by cases h)⟩
  rw [outcome, Option.bind_eq_some_iff]
  constructor
  · rintro ⟨t, hfind, hnew⟩
    exact ⟨t, List.mem_of_find?_eq_some hfind, by simpa using List.find?_some hfind,
      (hresult t).mp hnew⟩
  · rintro ⟨t, ht, rfl, hnew⟩
    have hsome : ((targets text).find? fun u => u.block = t.block).isSome = true :=
      List.find?_isSome.mpr ⟨t, ht, by simp⟩
    obtain ⟨u, hu⟩ := Option.isSome_iff_exists.mp hsome
    obtain rfl : u = t :=
      target_eq (List.mem_of_find?_eq_some hu) ht (by simpa using List.find?_some hu)
    exact ⟨u, hu, (hresult u).mpr hnew⟩

/-- The replacements are those of the blocks that come to something. -/
private theorem replacements_perm [Script.Parser] {rs : List Replacement}
    (h : List.Forall₂ (Target.Becomes scope) (targets text) rs) :
    rs.Perm ((blocks text).filterMap fun b =>
      (outcome scope text b.2).map (Replacement.ofBlock b.2)) := by
  obtain ⟨hleft, hright⟩ := Extract.mem_of_forall₂ h
  have hapart := apart_targets h
  have hblock {b : Nat × Block} {new : Text} (hb : outcome scope text b.2 = some new) :
      b.2.start < b.2.stop := by
    obtain ⟨t, ht, hbt, hnew⟩ := outcome_eq_some.mp hb
    obtain ⟨r, hr, new', -, rfl⟩ := hleft t ht
    exact hbt ▸ (hapart.inside _ hr).1
  have hnodup : rs.Nodup := hapart.apart.imp_of_mem fun {r s} hr _ hrs e => by
    have := (hapart.inside r hr).1
    subst e
    omega
  have hnodup' : ((blocks text).filterMap fun b =>
      (outcome scope text b.2).map (Replacement.ofBlock b.2)).Nodup := by
    refine List.pairwise_filterMap.mpr ((blocks_spec text).2.imp ?_)
    rintro a b hab _ ha _ hb e
    obtain ⟨new, hnew, rfl⟩ := Option.map_eq_some_iff.mp ha
    obtain ⟨new', hnew', rfl⟩ := Option.map_eq_some_iff.mp hb
    have := hblock hnew
    have hstart := (Replacement.mk.inj e).1
    omega
  refine (List.perm_ext_iff_of_nodup hnodup hnodup').mpr fun r => ?_
  rw [List.mem_filterMap]
  constructor
  · intro hr
    obtain ⟨t, ht, new, hnew, rfl⟩ := hright r hr
    obtain ⟨offset, hmem⟩ := (mem_blocks_of_targets ht).1
    exact ⟨_, hmem, Option.map_eq_some_iff.mpr ⟨new, outcome_eq_some.mpr ⟨t, ht, rfl, hnew⟩, rfl⟩⟩
  · rintro ⟨b, -, hb⟩
    obtain ⟨new, hnew, rfl⟩ := Option.map_eq_some_iff.mp hb
    obtain ⟨t, ht, hbt, hresult⟩ := outcome_eq_some.mp hnew
    obtain ⟨r, hr, new', hresult', rfl⟩ := hleft t ht
    cases hresult.symm.trans hresult'
    exact hbt ▸ hr

/-- A component comes to its parts with the contents of its blocks renewed to what these are
localized to. -/
theorem eq_renewAll_of_localize [Script.Parser] (h : (localize scope text).result = .ok out) :
    out = (renewAll (outcome scope text) 0 (Text.parts matchBlock text)).flatMap Part.text := by
  obtain ⟨rs, hrs, rfl⟩ := localize_eq_splice.mp h
  have hsits (p : Part Finding) (hp : p ∈ Text.parts matchBlock text) : Sits p :=
    sits_of_mem_parts hp
  obtain ⟨hold, hnew⟩ := draftAll_old (f := outcome scope text) hsits 0
  have hswaps := swaps_draftAll (f := outcome scope text) hsits []
  rw [Text.flatten_parts] at hold
  have hperm : rs.Perm ((draftAll (outcome scope text) 0 (Text.parts matchBlock text)).swaps.map
      Replacement.ofSwap) := hswaps ▸ replacements_perm hrs
  have hne : ∀ s ∈ (draftAll (outcome scope text) 0 (Text.parts matchBlock text)).swaps,
      s.old ≠ [] := by
    rintro s hs hnil
    have hlt := ((apart_targets hrs).inside _ (hperm.mem_iff.mpr (List.mem_map_of_mem hs))).1
    rw [Replacement.ofSwap, hnil, List.append_nil] at hlt
    exact Nat.lt_irrefl _ hlt
  have hout := splice_swaps hperm hne
  rwa [hold, hnew] at hout

/-- Blocks stay what they are when a component is localized, if what is localized is only revised. -/
theorem keeps_blocks [Script.Parser] (h : (localize scope text).result = .ok out)
    (hrevised : ∀ t ∈ targets text, ∀ new, (t.localize scope).result = .ok new →
      Text.Revised t.block.content new) :
    List.Forall₂ (fun b b' => Keeps scope text b.2 b'.2) (blocks text) (blocks out) := by
  obtain ⟨rs, hrs, -⟩ := localize_eq_splice.mp h
  have hparses : Parses (renewAll (outcome scope text) 0 (Text.parts matchBlock text)) := by
    refine parses_renewAll [] 0 (fun p hp => sits_of_mem_parts hp) (fun b new hb => ?_) ?_
    · obtain ⟨t, ht, rfl, hresult⟩ := outcome_eq_some.mp hb
      exact hrevised t ht new hresult
    · exact congrArg (Text.parts matchBlock) (Text.flatten_parts ..)
  rw [eq_renewAll_of_localize h, blocks, blocks, hparses]
  refine (blocksOf_renewAll _ 0 0).imp fun b b' hb => ⟨hb.kind, hb.attributes, ?_, ?_⟩
  · intro t ht hbt
    obtain ⟨r, -, new, hresult, -⟩ := (Extract.mem_of_forall₂ hrs).1 t ht
    rw [hresult, hb.content, outcome_eq_some.mpr ⟨t, ht, hbt, hresult⟩, Option.getD_some]
  · intro hno
    have hnone : outcome scope text b.2 = none := by
      refine Option.eq_none_iff_forall_ne_some.mpr fun new hnew => ?_
      obtain ⟨t, ht, hbt, -⟩ := outcome_eq_some.mp hnew
      exact hno t ht hbt
    rw [hb.content, hnone, Option.getD_none]

private theorem revised_of_target [Script.Parser] [Script.Parser.IsSound] (h : scope.IsPlain)
    {t : Target} {ts : List Text} {new : Text}
    (hnew : Finds ts new (t.localize scope)) (hts : ∀ s ∈ ts, s.IsPlain) :
    Text.Revised t.block.content new := by
  cases t with
  | template b => exact Markup.revises_localize h hnew hts
  | script b d =>
    obtain ⟨draft, htight, hdraft⟩ :=
      Script.exists_draft_localize ⟨h, .scalar '\x22', .inl rfl, rfl⟩ hnew hts
    exact .single ⟨draft, htight.isInert, hdraft⟩

private theorem keeps_blocks_of_plain [Script.Parser] [Script.Parser.IsSound] (h : scope.IsPlain)
    (hout : (localize scope text).result = .ok out)
    (hts : ∀ t ∈ (localize scope text).texts, t.IsPlain) :
    List.Forall₂ (fun b b' => Keeps scope text b.2 b'.2) (blocks text) (blocks out) := by
  refine keeps_blocks hout fun t ht new hnew => ?_
  obtain ⟨rs, hfinds, -⟩ := finds_localize.mp ⟨rfl, hout⟩
  obtain ⟨us, cs, hsubset, hreplace⟩ := hfinds.of_gather ht
  obtain ⟨new', hnew', -⟩ := Extract.finds_map.mp hreplace
  obtain rfl := Except.ok.inj (hnew.symm.trans hnew'.2)
  exact revised_of_target h hnew' fun s hs => hts s (hsubset hs)

/-- What the blocks of a component come to when it is localized: as many of each sort stand in the
same order, each kept as far as it is not localized. -/
structure KeepsLayout [Script.Parser] (scope : Scope) (text : Text) (l l' : Layout) : Prop where
  template : Option.Rel (Keeps scope text) l.template l'.template
  scripts : List.Forall₂ (Keeps scope text) l.scripts l'.scripts
  styles : List.Forall₂ (Keeps scope text) l.styles l'.styles

/-- What relates the blocks of two components relates their layouts, if it keeps the kinds. -/
theorem rel_layout {R : Block → Block → Prop} (hkind : ∀ b b', R b b' → b'.kind = b.kind)
    (h : List.Forall₂ (fun b b' => R b.2 b'.2) (blocks text) (blocks out)) :
    Option.Rel R (layout text).template (layout out).template ∧
      List.Forall₂ R (layout text).scripts (layout out).scripts ∧
      List.Forall₂ R (layout text).styles (layout out).styles := by
  have hfilter (p : Text → Bool) : List.Forall₂ (fun b b' => R b.2 b'.2)
      ((blocks text).filter fun b => p b.2.kind) ((blocks out).filter fun b => p b.2.kind) := by
    refine List.rel_filter (fun b b' hb => ?_) h
    change p b.2.kind = true ↔ p b'.2.kind = true
    rw [hkind _ _ hb]
  have hhead {bs bs' : List (Nat × Block)} (h : List.Forall₂ (fun b b' => R b.2 b'.2) bs bs') :
      Option.Rel R (bs.head?.map (·.2)) (bs'.head?.map (·.2)) := by
    cases h with
    | nil => exact .none
    | cons hb _ => exact .some hb
  have hmap {bs bs' : List (Nat × Block)} (h : List.Forall₂ (fun b b' => R b.2 b'.2) bs bs') :
      List.Forall₂ R (bs.map (·.2)) (bs'.map (·.2)) :=
    List.forall₂_map_left_iff.mpr (List.forall₂_map_right_iff.mpr h)
  exact ⟨hhead (hfilter (· == "template")), hmap (hfilter (· == "script")),
    hmap (hfilter fun kind => kind != "template" && kind != "script")⟩

theorem rel_find? {R : Block → Block → Prop} {p : Block → Bool} {bs bs' : List Block}
    (hp : ∀ b b', R b b' → p b' = p b) (h : List.Forall₂ R bs bs') :
    Option.Rel R (bs.find? p) (bs'.find? p) := by
  induction h with
  | nil => exact .none
  | @cons b b' _ _ hb _ ih =>
    rw [List.find?_cons, List.find?_cons, hp b b' hb]
    split
    · exact .some hb
    · exact ih

/-- A component keeps its layout when it is localized, if all texts found in it are plain. -/
theorem keepsLayout_localize [Script.Parser] [Script.Parser.IsSound] (h : scope.IsPlain)
    (hout : (localize scope text).result = .ok out)
    (hts : ∀ t ∈ (localize scope text).texts, t.IsPlain) :
    KeepsLayout scope text (layout text) (layout out) := by
  obtain ⟨htemplate, hscripts, hstyles⟩ :=
    rel_layout (fun _ _ hb => hb.kind) (keeps_blocks_of_plain h hout hts)
  exact ⟨htemplate, hscripts, hstyles⟩

end LocaleLift.Component
