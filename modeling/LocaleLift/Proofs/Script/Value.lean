import LocaleLift.Proofs.Literal.Value
import LocaleLift.Proofs.Script.Draft

/-! What a string of a script is filed under: the value it denotes where it stands. -/
namespace LocaleLift.Script

open Extract (Finds)

/-- A string denotes a text where it stands: as the value of an attribute, where a backslash is a
code point like any other, what stands between its quotes, and elsewhere the string of its body, if
a text without surrogates can hold it. -/
def Occurrence.Denotes (source : Text) (o : Occurrence) (v : Text) : Prop :=
  if o.IsAttribute then v = o.1.body source
  else v.isEncodable = true ∧ Literal.Denotes (o.1.body source) v.units

variable {s : Style} {source : Text}

private theorem eq_of_mem_dues {o : Occurrence} (hk : o.1.kind = .string) {w : Text}
    (hw : Literal.cook (o.1.body source) = .ok w) {due : Due} (hdue : due ∈ o.dues s source) :
    ∃ opening closing,
      due = ⟨o.1.start, o.1.stop, opening, closing, [.run (Text.trim w)]⟩ := by
  rw [Occurrence.dues, hk, hw] at hdue
  dsimp only at hdue
  rw [Occurrence.stringDues] at hdue
  split at hdue
  · exact ⟨_, _, List.mem_singleton.mp hdue⟩
  · cases hdue

/-- A text that becomes part of an edit can be encoded if the edit can. -/
private theorem isEncodable_of_edit {a b : Nat} {opening closing t : Text}
    (h : ((Due.mk a b opening closing [.run t]).edit s).text.isEncodable = true) :
    t.isEncodable = true := by
  rw [Due.edit, Edit.ofRange, Text.wrapRuns, Text.wrapRuns, List.append_nil,
    Text.isEncodable_append, Text.isEncodable_append, Bool.and_eq_true, Bool.and_eq_true] at h
  exact Scope.isEncodable_of_call h.1.2

/-- The value that is cooked is the one denoted, but in an attribute only where cooking does
nothing. -/
private theorem texts_eq_trim_iff {o : Occurrence} (hk : o.1.kind = .string) {w v : Text}
    (hw : Literal.cook (o.1.body source) = .ok w) {due : Due} (hdue : due ∈ o.dues s source)
    (hencodable : (due.edit s).text.isEncodable = true) (hv : o.Denotes source v) :
    due.texts = [Text.trim v] ↔ (o.IsAttribute → Literal.IsUnescaped (o.1.body source)) := by
  obtain ⟨opening, closing, rfl⟩ := eq_of_mem_dues hk hw hdue
  change [Text.trim w] = [Text.trim v] ↔ _
  rw [List.cons.injEq, and_iff_left rfl]
  rw [Occurrence.Denotes] at hv
  split at hv
  · rename_i hattribute
    rw [hv, Literal.trim_cook_iff hw]
    exact ⟨fun h _ => h, fun h => h hattribute⟩
  · rename_i hattribute
    obtain ⟨hv, hdenotes⟩ := hv
    obtain ⟨w', hw', hunits⟩ := hdenotes.exists_cook
    obtain rfl := Except.ok.inj (hw.symm.trans hw')
    have hwhole : w.isEncodable = true := by
      rw [← Text.isEncodable_trim]
      exact isEncodable_of_edit hencodable
    rw [Text.eq_of_units hwhole hv hunits]
    exact iff_of_true rfl fun h => absurd h hattribute

/-- A script that is localized makes the edits that are due in its tree, and all its strings have a
value. -/
private theorem exists_dues_of_localize [Parser] [Parser.IsSound] {d : Dialect} {out : Text}
    (h : (localize d s source).result = .ok out) :
    ∃ root, parse? d source = some root ∧
      Finds ((s.dues source root).flatMap Due.texts) ((s.dues source root).map (Due.edit s))
        (edits s source [] root) ∧
      (localize d s source).texts = (s.dues source root).flatMap Due.texts ∧
      (∀ o ∈ visited s root, o.1.kind = .string →
        ∃ w, Literal.cook (o.1.body source) = .ok w) ∧
      AreEncodable ((s.dues source root).map (Due.edit s)) := by
  cases hsource : source.isEncodable with
  | false =>
    rw [localize, hsource] at h
    cases h
  | true =>
    rw [localize_eq hsource] at h ⊢
    cases hroot : parse? d source with
    | none =>
      rw [hroot] at h
      cases h
    | some root =>
      rw [hroot] at h
      obtain ⟨es, hes, hfinish⟩ := Extract.bind_eq_ok.mp h
      have hyields := yields_edits (s := s) ((parse?_parsed hroot).imp fun _ =>
        Node.Parsed.wellFormed)
      obtain ⟨hcook, htexts, rfl⟩ := (hyields _ es).mp ⟨rfl, hes⟩
      refine ⟨root, rfl, ⟨htexts, hes⟩, ?_, hcook, areEncodable_of_finish hfinish⟩
      dsimp only
      rw [Extract.texts_bind hes, texts_finish, List.append_nil, htexts]

/-- A script that is localized files each string it replaces under the trimmed text that the string
denotes, but the value of an attribute only if no escape in it stands for anything. -/
theorem localize_texts [Parser] [Parser.IsSound] {d : Dialect} {out : Text}
    (h : (localize d s source).result = .ok out) :
    ∃ root, parse? d source = some root ∧
      Finds ((s.dues source root).flatMap Due.texts) ((s.dues source root).map (Due.edit s))
        (edits s source [] root) ∧
      (localize d s source).texts = (s.dues source root).flatMap Due.texts ∧
      ∀ o ∈ visited s root, o.1.kind = .string → ∀ due ∈ o.dues s source,
        ∀ v, o.Denotes source v →
          (due.texts = [Text.trim v] ↔
            (o.IsAttribute → Literal.IsUnescaped (o.1.body source))) := by
  obtain ⟨root, hroot, hfinds, htexts, hcook, hencodable⟩ := exists_dues_of_localize h
  refine ⟨root, hroot, hfinds, htexts, fun o ho hk due hdue v hv => ?_⟩
  obtain ⟨w, hw⟩ := hcook o ho hk
  have hmem : due ∈ s.dues source root := List.mem_flatMap.mpr ⟨o, ho, hdue⟩
  exact texts_eq_trim_iff hk hw hdue (hencodable _ (List.mem_map_of_mem hmem)) hv

/-- A string with an escape, and the value of an attribute without one. -/
theorem localize_texts_escape :
    let style := Style.ofDialect .javascript ⟨"test", .ofList [] "common", "$t"⟩ "\x22" true true
    (∃ root, parse? .javascript "'\\u4e2d'" = some root ∧
      ∃ o ∈ visited style root, ¬ o.IsAttribute ∧
        ∃ due ∈ o.dues style "'\\u4e2d'", due.texts = [Text.trim "中"]) ∧
    ∃ root, parse? .javascript "<p a=' 文'/>" = some root ∧
      ∃ o ∈ visited style root, o.IsAttribute ∧
        ∃ due ∈ o.dues style "<p a=' 文'/>", due.texts = [Text.trim " 文"] := by
  intro style
  have hword : (localize .javascript style "'\\u4e2d'").result =
      .ok "$t(\x22test.中\x22)" := by decide +kernel
  have hattribute : (localize .javascript style "<p a=' 文'/>").result =
      .ok "<p a=\x7b$t(\x22test.文\x22)\x7d/>" := by decide +kernel
  constructor
  · have hfound : ∀ root ∈ parse? .javascript "'\\u4e2d'", ∃ o ∈ visited style root,
        o.1.kind = .string ∧ ¬ o.IsAttribute ∧ o.1.body "'\\u4e2d'" = "\\u4e2d" ∧
          o.dues style "'\\u4e2d'" ≠ [] := by decide +kernel
    obtain ⟨root, hroot, -, -, hall⟩ := localize_texts hword
    obtain ⟨o, ho, hk, hplace, hbody, hdues⟩ := hfound root hroot
    obtain ⟨due, hdue⟩ := List.exists_mem_of_ne_nil _ hdues
    have hdenotes : o.Denotes "'\\u4e2d'" "中" := by
      rw [Occurrence.Denotes, if_neg hplace, hbody]
      have hunit : Literal.Denotes (.scalar '\\' :: .scalar 'u' :: (("4e2d" : Text) ++ []))
          [0x4E2D] := .unit rfl (by decide) .nil
      exact ⟨rfl, hunit⟩
    exact ⟨root, hroot, o, ho, hplace, due, hdue,
      (hall o ho hk due hdue _ hdenotes).mpr fun h => absurd h hplace⟩
  · have hfound : ∀ root ∈ parse? .javascript "<p a=' 文'/>", ∃ o ∈ visited style root,
        o.1.kind = .string ∧ o.IsAttribute ∧ o.1.body "<p a=' 文'/>" = " 文" ∧
          o.dues style "<p a=' 文'/>" ≠ [] := by decide +kernel
    obtain ⟨root, hroot, -, -, hall⟩ := localize_texts hattribute
    obtain ⟨o, ho, hk, hplace, hbody, hdues⟩ := hfound root hroot
    obtain ⟨due, hdue⟩ := List.exists_mem_of_ne_nil _ hdues
    have hdenotes : o.Denotes "<p a=' 文'/>" " 文" := by
      rw [Occurrence.Denotes, if_pos hplace, hbody]
    refine ⟨root, hroot, o, ho, hplace, due, hdue,
      (hall o ho hk due hdue _ hdenotes).mpr fun _ => ?_⟩
    rw [hbody]
    decide

/-- The value of an attribute that holds a backslash and an `n` is filed with a line feed in their
place. -/
theorem localize_texts_attribute :
    let style := Style.ofDialect .javascript ⟨"test", .ofList [] "common", "$t"⟩ "\x22" true true
    let source : Text := "<p a=\x22中\\n文\x22 />"
    (localize .javascript style source).result =
        .ok "<p a=\x7b$t(\x22test.中\\n文\x22)\x7d />" ∧
      (localize .javascript style source).texts = ["中\n文"] ∧
      ∃ root, parse? .javascript source = some root ∧
        ∃ o ∈ visited style root, o.Denotes source "中\\n文" ∧
          ∃ due ∈ o.dues style source, due.texts ≠ [Text.trim "中\\n文"] := by
  intro style source
  have hfound : ∃ root ∈ parse? .javascript source, ∃ o ∈ visited style root, o.IsAttribute ∧
      o.1.body source = "中\\n文" ∧
      ∃ due ∈ o.dues style source, due.texts ≠ [Text.trim "中\\n文"] := by decide +kernel
  obtain ⟨root, hroot, o, ho, hplace, hbody, hdue⟩ := hfound
  refine ⟨by decide +kernel, by decide +kernel, root, hroot, o, ho, ?_, hdue⟩
  rw [Occurrence.Denotes, if_pos hplace, hbody]

end LocaleLift.Script
