import LocaleLift.Component.Localize
import Mathlib.Data.List.Basic

/-! Where the blocks of a component stand: each content is what the component holds in its range,
and no block reaches into a later one. -/
namespace LocaleLift.Component

private theorem length_dropWord? {word t rest : Text} (h : dropWord? word t = some rest) :
    rest.length ≤ t.length := by
  induction word generalizing t with
  | nil => exact Nat.le_of_eq (congrArg List.length (Option.some.inj h)).symm
  | cons w word ih =>
    cases t with
    | nil => cases h
    | cons c t =>
      rw [dropWord?] at h
      split at h
      · exact Nat.le_succ_of_le (ih h)
      · cases h

private theorem length_tagBody? {quote : Option CodePoint} {t body : Text}
    (h : tagBody? quote t = some body) : body.length < t.length := by
  induction t generalizing quote body with
  | nil => cases quote <;> cases h
  | cons c t ih =>
    have hrest {next : Option CodePoint} (h : (tagBody? next t).map (c :: ·) = some body) :
        body.length < (c :: t).length := by
      obtain ⟨body', hb, rfl⟩ := Option.map_eq_some_iff.mp h
      exact Nat.succ_lt_succ (ih hb)
    cases quote with
    | some q => exact hrest h
    | none =>
      rw [tagBody?] at h
      split at h
      · obtain rfl := Option.some.inj h
        exact Nat.zero_lt_succ _
      · exact hrest h

private theorem length_tag? {names : List Text} {t name body : Text} {n : Nat}
    (h : tag? names t = some (name, body, n)) : n ≤ t.length := by
  obtain ⟨rest, hrest, h⟩ := Option.bind_eq_some_iff.mp h
  obtain ⟨next, hnext, h⟩ := Option.bind_eq_some_iff.mp h
  obtain ⟨word, hword, hrest⟩ := List.exists_of_findSome?_eq_some hrest
  have hle := length_dropWord? hrest
  dsimp only at h
  split at h
  · cases h
  · obtain ⟨body', hbody, h⟩ := Option.bind_eq_some_iff.mp h
    cases h
    have := length_tagBody? hbody
    rw [List.length_take]
    omega

private theorem templateEnd_le (passed depth : Nat) {ps : List (Part Nesting)} :
    passed ≤ (templateEnd passed depth ps).1 ∧
      (templateEnd passed depth ps).1 ≤ (templateEnd passed depth ps).2 := by
  induction ps generalizing passed depth with
  | nil =>
    rw [templateEnd]
    exact ⟨Nat.le_refl _, Nat.le_refl _⟩
  | cons p ps ih =>
    have hnext (depth : Nat) := ih (passed + p.text.length) depth
    cases depth with
    | zero =>
      rw [templateEnd]
      · exact ⟨Nat.le_refl _, Nat.le_refl _⟩
      · exact nofun
    | succ depth =>
      rw [templateEnd]
      split
      · split
        · exact ⟨Nat.le_refl _, Nat.le_add_right ..⟩
        · exact ⟨by have := (hnext depth).1; omega, (hnext depth).2⟩
      · exact ⟨by have := (hnext (depth + 2)).1; omega, (hnext (depth + 2)).2⟩
      · exact ⟨by have := (hnext (depth + 1)).1; omega, (hnext (depth + 1)).2⟩

private theorem plainEnd_le {passed : Nat} {ps : List (Part Unit)} :
    (plainEnd passed ps).1 ≤ (plainEnd passed ps).2 := by
  induction ps generalizing passed with
  | nil => exact Nat.le_refl _
  | cons p ps ih =>
    rw [plainEnd]
    split
    · exact Nat.le_add_right ..
    · exact ih

/-- A block stands in a text at its range, where so much has been passed before the text. -/
def Block.StandsIn (passed : Nat) (text : Text) (b : Block) : Prop :=
  ∃ before after, text = before ++ b.content ++ after ∧ passed + before.length = b.start ∧
    b.start + b.content.length = b.stop

/-- A block found in a component has its content at its offset. -/
theorem block_in_part {c : CodePoint} {t : Text} {kind body content : Text}
    {offset m : Nat} (h : matchBlock c t = some (.block kind body content offset, m)) :
    ∃ before after, c :: t.take m = before ++ content ++ after ∧ before.length = offset := by
  rw [matchBlock] at h
  split at h
  · split at h
    · cases h
    · obtain ⟨⟨name, body', n⟩, htag, h⟩ := Option.map_eq_some_iff.mp h
      dsimp only at h
      split at h
      · cases h
      · have hn := length_tag? htag
        generalize hends : (if Text.toLower name = "template" then
          templateEnd 0 1 (Text.parts matchTemplateTag (t.drop n)) else _) = ends at h
        have hle : ends.1 ≤ ends.2 := by
          rw [← hends]
          split
          · exact (templateEnd_le 0 1).2
          · exact plainEnd_le
        cases h
        refine ⟨c :: t.take n, ((t.drop n).take ends.2).drop ends.1, ?_, ?_⟩
        · rw [List.take_add, List.append_assoc, List.cons_append]
          congr 2
          have hinside : (t.drop n).take ends.1 = ((t.drop n).take ends.2).take ends.1 := by
            rw [List.take_take, Nat.min_eq_left hle]
          rw [hinside, List.take_append_drop]
        · rw [List.length_cons, List.length_take, Nat.min_eq_left hn]
  · cases h

private theorem blocksOf_spec (passed : Nat) (ps : List (Part Finding))
    (hps : ∀ kind body content offset text,
      .found (.block kind body content offset) text ∈ ps →
        ∃ before after, text = before ++ content ++ after ∧ before.length = offset) :
    (∀ b ∈ blocksOf passed ps, b.2.StandsIn passed (ps.flatMap Part.text)) ∧
      (blocksOf passed ps).Pairwise fun a b => a.2.stop ≤ b.2.start := by
  induction ps generalizing passed with
  | nil => exact ⟨nofun, .nil⟩
  | cons p ps ih =>
    obtain ⟨hstands, hpairwise⟩ := ih (passed + p.text.length)
      fun kind body content offset text h => hps kind body content offset text
        (List.mem_cons_of_mem p h)
    have hrest : ∀ b ∈ blocksOf (passed + p.text.length) ps,
        b.2.StandsIn passed ((p :: ps).flatMap Part.text) := by
      intro b hb
      obtain ⟨before, after, htext, hstart, hstop⟩ := hstands b hb
      refine ⟨p.text ++ before, after, ?_, ?_, hstop⟩
      · rw [List.flatMap_cons, htext, List.append_assoc, List.append_assoc, List.append_assoc]
      · rw [List.length_append]
        omega
    rw [blocksOf.eq_def]
    dsimp only
    split
    · rename_i kind body content offset text
      obtain ⟨before, after, htext, hoffset⟩ := hps kind body content offset text
        (List.mem_cons_self ..)
      have hlength : text.length = before.length + content.length + after.length := by
        rw [htext, List.length_append, List.length_append]
      refine ⟨List.forall_mem_cons.mpr ⟨?_, hrest⟩, List.pairwise_cons.mpr ⟨?_, hpairwise⟩⟩
      · refine ⟨before, after ++ ps.flatMap Part.text, ?_, ?_, rfl⟩
        · rw [List.flatMap_cons, Part.text, htext, List.append_assoc]
        · exact congrArg (passed + ·) hoffset
      · intro b hb
        obtain ⟨before', after', -, hstart, -⟩ := hstands b hb
        rw [Part.text] at hstart
        dsimp only
        omega
    · exact ⟨hrest, hpairwise⟩

/-- The blocks of a component, in order, each with the offset of its tag. -/
def blocks (text : Text) : List (Nat × Block) :=
  blocksOf 0 (Text.parts matchBlock text)

/-- Every block stands in its range, and none reaches into a later one. -/
theorem blocks_spec (text : Text) : (∀ b ∈ blocks text, b.2.StandsIn 0 text) ∧
    (blocks text).Pairwise fun a b => a.2.stop ≤ b.2.start := by
  have h := blocksOf_spec 0 (Text.parts matchBlock text)
    fun kind body content offset found hp => by
      obtain ⟨before, c, after, n, -, hm, rfl⟩ := Text.of_mem_parts hp
      exact block_in_part hm
  rwa [Text.flatten_parts] at h

end LocaleLift.Component
