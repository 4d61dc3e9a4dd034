import LocaleLift.Proofs.Component.Renewal

/-! Attributes as they are written in a tag: they are read back from there, each with its value. -/
namespace LocaleLift.Component

/-- What is written behind the name of an attribute: nothing, or an equals sign with white space
before and after it and a value, in quotes or without. -/
inductive ValueForm where
  | absent
  | quoted (before after : Text) (quote : CodePoint) (value : Text)
  | bare (before after value : Text)
  deriving DecidableEq, Repr

namespace ValueForm

def text : ValueForm → Text
  | absent => []
  | quoted before after quote value =>
    before ++ .scalar '=' :: (after ++ quote :: (value ++ [quote]))
  | bare before after value => before ++ .scalar '=' :: (after ++ value)

def value : ValueForm → AttributeValue
  | absent => .present
  | quoted _ _ _ value | bare _ _ value => .text value

/-- A value that is written as it should be. Without quotes it may not end with a slash, which could
be that of the tag. -/
def IsWritten : ValueForm → Prop
  | absent => True
  | quoted before after quote value =>
    Text.isBlank before = true ∧ Text.isBlank after = true ∧ quote.IsQuote ∧ quote ∉ value
  | bare before after value =>
    Text.isBlank before = true ∧ Text.isBlank after = true ∧ value ≠ [] ∧
      (∀ c ∈ value, c.isSpace = false ∧ c ∉ ("\x22'<>=\x60" : Text)) ∧
      value.getLast? ≠ some (.scalar '/')

instance : DecidablePred IsWritten
  | absent => inferInstanceAs (Decidable True)
  | quoted .. => inferInstanceAs (Decidable (_ ∧ _ ∧ (_ ∨ _) ∧ _))
  | bare .. => inferInstanceAs (Decidable (_ ∧ _ ∧ _ ∧ (∀ _ ∈ _, _ ∧ _) ∧ _))

end ValueForm

/-- An attribute as it is written, with the white space before it. -/
structure AttributeForm where
  space : Text
  name : Text
  value : ValueForm
  deriving DecidableEq, Repr

namespace AttributeForm

def text (a : AttributeForm) : Text :=
  a.space ++ (a.name ++ a.value.text)

def entry (a : AttributeForm) : Text × AttributeValue :=
  (a.name, a.value.value)

/-- An attribute that is written as it should be. -/
structure IsWritten (a : AttributeForm) : Prop where
  space_ne : a.space ≠ []
  space : Text.isBlank a.space = true
  name_ne : a.name ≠ []
  name : ∀ c ∈ a.name, Markup.isNameChar c = true
  value : a.value.IsWritten

instance : DecidablePred IsWritten := fun a =>
  decidable_of_iff (a.space ≠ [] ∧ Text.isBlank a.space = true ∧ a.name ≠ [] ∧
      (∀ c ∈ a.name, Markup.isNameChar c = true) ∧ a.value.IsWritten)
    ⟨fun ⟨hne, hspace, hname, hchars, hvalue⟩ => ⟨hne, hspace, hname, hchars, hvalue⟩,
      fun h => ⟨h.space_ne, h.space, h.name_ne, h.name, h.value⟩⟩

/-- What may follow an attribute: nothing, or white space and no equals sign behind it. -/
private def Trails (t : Text) : Prop :=
  ∃ s u, t = s ++ u ∧ Text.isBlank s = true ∧ (s = [] → u = []) ∧
    ∀ c ∈ u.head?, c.isSpace = false ∧ c ≠ .scalar '='

variable {a : AttributeForm} {t : Text}

private theorem isSpace_of_trails (h : Trails t) : ∀ c ∈ t.head?, c.isSpace = true := by
  obtain ⟨s, u, rfl, hs, hnil, -⟩ := h
  cases s with
  | nil =>
    rw [hnil rfl]
    rintro _ ⟨⟩
  | cons c s =>
    rintro _ ⟨⟩
    exact List.all_eq_true.mp hs _ (List.mem_cons_self ..)

private theorem trails_text (h : a.IsWritten) (t : Text) : Trails (a.text ++ t) := by
  obtain ⟨c, more, hname⟩ := List.exists_cons_of_ne_nil h.name_ne
  refine ⟨a.space, a.name ++ a.value.text ++ t, by rw [text, List.append_assoc], h.space,
    fun hnil => absurd hnil h.space_ne, ?_⟩
  rw [hname]
  rintro _ ⟨⟩
  have hc := h.name c (by rw [hname]; exact List.mem_cons_self ..)
  refine ⟨Markup.isSpace_of_isNameChar hc, ?_⟩
  rintro rfl
  cases hc

/-- The name of an attribute is found with its value. -/
private theorem matchAttribute_text (h : a.IsWritten) (ht : Trails t) :
    ∃ c r, a.name ++ a.value.text = c :: r ∧
      matchAttribute c (r ++ t) = some (a.entry, r.length) := by
  obtain ⟨space, name, value⟩ := a
  obtain ⟨c, more, rfl⟩ := List.exists_cons_of_ne_nil h.name_ne
  obtain ⟨hc, hmore⟩ := List.forall_mem_cons.mp h.name
  refine ⟨c, more ++ value.text, rfl, ?_⟩
  have hvalue : value.IsWritten := h.value
  cases value with
  | absent =>
    obtain ⟨s, u, rfl, hs, -, hu⟩ := id ht
    have hhead (d : CodePoint) (hd : d ∈ (s ++ u).head?) : Markup.isNameChar d = false :=
      Markup.isNameChar_of_isSpace (isSpace_of_trails ht d hd)
    rw [ValueForm.text, List.append_nil]
    exact matchAttribute_present hc hmore hs hhead hu
  | quoted before after quote value =>
    obtain ⟨hbefore, hafter, hquote, hmem⟩ := hvalue
    have hfound := matchAttribute_quoted hc hmore hbefore hafter hquote hmem t
    simp only [ValueForm.text, List.append_assoc, List.cons_append, List.nil_append,
      List.length_append, List.length_cons, List.length_nil]
    rw [hfound]
    exact congrArg (fun n => some ((c :: more, AttributeValue.text value), n)) (by omega)
  | bare before after value =>
    obtain ⟨hbefore, hafter, hne, hchars, -⟩ := hvalue
    have hfound := matchAttribute_bare hc hmore hbefore hafter hne hchars (isSpace_of_trails ht)
    simp only [ValueForm.text, List.append_assoc, List.cons_append, List.length_append,
      List.length_cons]
    rw [hfound]
    exact congrArg (fun n => some ((c :: more, AttributeValue.text value), n)) (by omega)

private theorem parts_blank {s : Text} (hs : Text.isBlank s = true) (t : Text) :
    Text.parts matchAttribute (s ++ t) = s.map .plain ++ Text.parts matchAttribute t := by
  have hnone : ∀ c ∈ s, ∀ t, matchAttribute c t = none := fun c hc t => by
    rw [matchAttribute, Markup.isNameChar_of_isSpace (List.all_eq_true.mp hs c hc)]
    rfl
  exact parts_passage hnone t

private theorem parts_text (h : a.IsWritten) (ht : Trails t) :
    Text.parts matchAttribute (a.text ++ t) = a.space.map .plain ++
      .found a.entry (a.name ++ a.value.text) :: Text.parts matchAttribute t := by
  obtain ⟨c, r, hr, hfound⟩ := matchAttribute_text h ht
  rw [text, List.append_assoc, parts_blank h.space, hr, Text.parts_found hfound]

/-- An attribute ends with a code point that is neither white space nor a slash. -/
theorem IsWritten.exists_last (h : a.IsWritten) : ∃ s c, a.text = s ++ [c] ∧
    c.isSpace = false ∧ c ≠ .scalar '/' := by
  obtain ⟨space, name, value⟩ := a
  have hvalue : value.IsWritten := h.value
  cases value with
  | absent =>
    obtain rfl | ⟨s, c, rfl⟩ := List.eq_nil_or_concat name
    · exact absurd rfl h.name_ne
    · have hc : Markup.isNameChar c = true := h.name c (by simp)
      refine ⟨space ++ s, c, by simp [text, ValueForm.text], Markup.isSpace_of_isNameChar hc, ?_⟩
      rintro rfl
      cases hc
  | quoted before after quote value =>
    refine ⟨space ++ (name ++ (before ++ .scalar '=' :: (after ++ quote :: value))), quote,
      by simp [text, ValueForm.text], ?_⟩
    rcases hvalue.2.2.1 with rfl | rfl
    · decide
    · decide
  | bare before after value =>
    obtain ⟨-, -, hne, hchars, hslash⟩ := hvalue
    obtain rfl | ⟨s, c, rfl⟩ := List.eq_nil_or_concat value
    · exact absurd rfl hne
    · refine ⟨space ++ (name ++ (before ++ .scalar '=' :: (after ++ s))), c,
        by simp [text, ValueForm.text], (hchars c (by simp)).1, ?_⟩
      rintro rfl
      exact hslash (by simp)

end AttributeForm

/-- What is written between the name of a tag and its end: attributes, and white space behind
them. -/
structure AttributeList where
  attributes : List AttributeForm
  space : Text
  deriving DecidableEq, Repr

namespace AttributeList

def text (l : AttributeList) : Text :=
  l.attributes.flatMap AttributeForm.text ++ l.space

/-- The attributes that are meant, in the order in which they are written. -/
def table (l : AttributeList) : Attributes :=
  l.attributes.map AttributeForm.entry

/-- Attributes that are written as they should be, no two with the same name. -/
structure IsWritten (l : AttributeList) : Prop where
  attributes : ∀ a ∈ l.attributes, a.IsWritten
  nodup : (l.attributes.map AttributeForm.name).Nodup
  space : Text.isBlank l.space = true

instance : DecidablePred IsWritten := fun l =>
  decidable_of_iff ((∀ a ∈ l.attributes, a.IsWritten) ∧
      (l.attributes.map AttributeForm.name).Nodup ∧ Text.isBlank l.space = true)
    ⟨fun ⟨hattributes, hnodup, hspace⟩ => ⟨hattributes, hnodup, hspace⟩,
      fun h => ⟨h.attributes, h.nodup, h.space⟩⟩

variable {l : AttributeList}

open AttributeForm (Trails) in
private theorem trails_attributes {as : List AttributeForm} (h : ∀ a ∈ as, a.IsWritten)
    {space : Text} (hspace : Text.isBlank space = true) :
    Trails (as.flatMap AttributeForm.text ++ space) := by
  cases as with
  | nil => exact ⟨space, [], (List.append_nil _).symm, hspace, fun _ => rfl, by rintro _ ⟨⟩⟩
  | cons a as =>
    rw [List.flatMap_cons, List.append_assoc]
    exact AttributeForm.trails_text (h a (List.mem_cons_self ..)) _

/-- What stands behind the name of the tag begins with white space. -/
theorem IsWritten.isSpace_of_head? (h : l.IsWritten) : ∀ c ∈ l.text.head?, c.isSpace = true :=
  AttributeForm.isSpace_of_trails (trails_attributes h.attributes h.space)

theorem IsWritten.findAll_text (h : l.IsWritten) :
    Text.findAll matchAttribute l.text = l.table := by
  obtain ⟨as, space⟩ := l
  obtain ⟨has, -, hspace⟩ := h
  dsimp only at has hspace
  have hplain (s : Text) :
      (s.map fun c => (.plain c : Part (Text × AttributeValue))).filterMap Part.found? = [] := by
    rw [List.filterMap_map]
    exact List.filterMap_eq_nil_iff.mpr fun _ _ => rfl
  rw [Text.findAll, text, table]
  induction as with
  | nil =>
    have hblank := AttributeForm.parts_blank hspace []
    rw [List.append_nil] at hblank
    rw [List.flatMap_nil, List.nil_append, hblank, List.filterMap_append, hplain]
    rfl
  | cons a as ih =>
    obtain ⟨ha, has⟩ := List.forall_mem_cons.mp has
    rw [List.flatMap_cons, List.append_assoc,
      AttributeForm.parts_text ha (trails_attributes has hspace), List.filterMap_append, hplain,
      List.nil_append, List.filterMap_cons, ih has]
    rfl

theorem IsWritten.ofPairs_findAll (h : l.IsWritten) :
    Assoc.ofPairs (Text.findAll matchAttribute l.text) = l.table := by
  rw [h.findAll_text]
  refine Assoc.ofPairs_of_nodup ?_
  rw [table, List.map_map]
  exact h.nodup

/-- Before the white space at the end stands neither white space nor a slash. -/
theorem IsWritten.text_cases (h : l.IsWritten) : l.text = l.space ∨
    ∃ s c, l.text = s ++ c :: l.space ∧ c.isSpace = false ∧ c ≠ .scalar '/' := by
  obtain ⟨as, space⟩ := l
  obtain rfl | ⟨as, a, rfl⟩ := List.eq_nil_or_concat as
  · exact .inl rfl
  · obtain ⟨s, c, hs, hc⟩ := (h.attributes a (by simp)).exists_last
    exact .inr ⟨as.flatMap AttributeForm.text ++ s, c, by simp [text, hs], hc⟩

theorem IsWritten.getLast?_text (h : l.IsWritten) : l.text.getLast? ≠ some (.scalar '/') := by
  obtain hnil | ⟨s, d, hconcat⟩ := List.eq_nil_or_concat l.space
  · obtain htext | ⟨s, c, htext, -, hc⟩ := h.text_cases
    · rw [htext, hnil]
      exact nofun
    · rw [htext, hnil]
      simpa using hc
  · have hd : d.isSpace = true := List.all_eq_true.mp h.space d (by simp [hconcat])
    rw [text, hconcat, List.concat_eq_append, ← List.append_assoc, List.getLast?_concat]
    rintro ⟨⟩
    cases hd

/-- Attributes are read back as they were written, in their order and each with its value, whatever
slashes stand at the end. -/
theorem parseAttributes_written (h : l.IsWritten) (slashes : Nat) :
    parseAttributes (l.text ++ List.replicate slashes (.scalar '/')) = l.table := by
  rw [parseAttributes_slashes h.getLast?_text, h.ofPairs_findAll]

/-- Values may look like other attributes, and one without quotes may hold slashes. -/
theorem parseAttributes_written_mixed :
    let l : AttributeList :=
      ⟨[⟨" ", "setup", .absent⟩, ⟨"\n ", "lang", .quoted " " "" (.scalar '\x22') "a='b' c>"⟩,
        ⟨" ", "src", .bare "" "\t" "./x/y"⟩, ⟨" ", "v-if", .quoted "" "" (.scalar '\x27') "\x22/"⟩,
        ⟨" ", "b", .absent⟩], " "⟩
    l.IsWritten ∧
      parseAttributes " setup\n lang =\x22a='b' c>\x22 src=\t./x/y v-if='\x22/' b //" =
        ([("setup", .present), ("lang", .text "a='b' c>"), ("src", .text "./x/y"),
          ("v-if", .text "\x22/"), ("b", .present)] : List (Text × AttributeValue)) := by
  intro l
  have hl : l.IsWritten := by decide
  exact ⟨hl, parseAttributes_written hl 2⟩

end AttributeList

end LocaleLift.Component
