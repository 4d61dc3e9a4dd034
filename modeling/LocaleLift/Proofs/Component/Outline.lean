import LocaleLift.Proofs.Component.Attributes
import LocaleLift.Proofs.Component.Sections
import LocaleLift.Proofs.Markup.Quotes
import LocaleLift.Proofs.Text.Search

/-! Components as they are written: comments, blocks, and filling between them. Their blocks are
found where they stand, and nothing inside them is taken for a block. -/
namespace LocaleLift.Component

open Markup (quoteAfter quoteAfter_append quoteAfter_flatMap quoteAfter_plain quoteAfter_quoted)

/-- A word occurs in a text, compared without case. -/
def Mentions (word t : Text) : Prop :=
  word.map foldLetter <:+: t.map foldLetter

instance (word t : Text) : Decidable (Mentions word t) :=
  inferInstanceAs (Decidable (_ <:+: _))

/-- A text in which nothing bears on the nesting of templates. -/
structure IsTagless (t : Text) : Prop where
  comment : ¬ "<!--" <:+: t
  opening : ¬ Mentions "<template" t
  closing : ¬ Mentions "</template" t

instance : DecidablePred IsTagless := fun t =>
  decidable_of_iff (¬ "<!--" <:+: t ∧ ¬ Mentions "<template" t ∧ ¬ Mentions "</template" t)
    ⟨fun ⟨hcomment, hopening, hclosing⟩ => ⟨hcomment, hopening, hclosing⟩,
      fun h => ⟨h.comment, h.opening, h.closing⟩⟩

private theorem dropWord?_append (word t : Text) : dropWord? word (word ++ t) = some t := by
  induction word with
  | nil => rfl
  | cons w word ih => rw [List.cons_append, dropWord?, if_pos rfl, ih]

/-- A word that is read up to an angle bracket ends before it. -/
private theorem prefix_of_dropWord? {word s t rest : Text}
    (hword : .scalar '<' ∉ word.map foldLetter)
    (h : dropWord? word (s ++ .scalar '<' :: t) = some rest) :
    word.map foldLetter <+: s.map foldLetter := by
  induction word generalizing s with
  | nil => exact List.nil_prefix
  | cons w word ih =>
    obtain ⟨hw, hword⟩ := not_or.mp (List.mem_cons.not.mp hword)
    cases s with
    | nil =>
      rw [List.nil_append, dropWord?] at h
      split at h
      · rename_i hfold
        exact absurd hfold.symm hw
      · cases h
    | cons c s =>
      rw [List.cons_append, dropWord?] at h
      split at h
      · rename_i hfold
        exact List.cons_prefix_cons.mpr ⟨hfold, ih hword h⟩
      · cases h

/-- A mark that is read up to an angle bracket ends before it. -/
private theorem prefix_of_dropStart? {mark s t rest : Text} (hmark : .scalar '<' ∉ mark)
    (h : Text.dropStart? mark (s ++ .scalar '<' :: t) = some rest) : mark <+: s := by
  rcases List.append_eq_append_iff.mp (Text.dropStart?_eq_some.mp h) with
    ⟨more, rfl, htail⟩ | ⟨more, rfl, -⟩
  · cases more with
    | nil => simp
    | cons c more =>
      obtain ⟨rfl, -⟩ := List.cons.inj htail
      exact absurd (List.mem_append_right s (List.mem_cons_self ..)) hmark
  · exact List.prefix_append mark more

private theorem infix_of_suffix {p s r : Text} {c : CodePoint} (hr : c :: r <:+ s)
    (h : p <+: c :: r) : p <:+: s :=
  h.isInfix.trans hr.isInfix

private theorem mentions_of_suffix {word s r : Text} {c : CodePoint} (hr : c :: r <:+ s)
    (h : word.map foldLetter <+: (c :: r).map foldLetter) : Mentions word s :=
  h.isInfix.trans (hr.map foldLetter).isInfix

private theorem comment?_passed {s : Text} (h : ¬ "!--" <+: s) (t : Text) :
    comment? (s ++ .scalar '<' :: t) = none := by
  rw [comment?]
  cases hdrop : Text.dropStart? "!--" (s ++ .scalar '<' :: t) with
  | none => rfl
  | some rest => exact absurd (prefix_of_dropStart? (by decide) hdrop) h

private theorem dropWord?_passed {word s : Text} (hword : .scalar '<' ∉ word.map foldLetter)
    (h : ¬ word.map foldLetter <+: s.map foldLetter) (t : Text) :
    dropWord? word (s ++ .scalar '<' :: t) = none := by
  cases hdrop : dropWord? word (s ++ .scalar '<' :: t) with
  | none => rfl
  | some rest => exact absurd (prefix_of_dropWord? hword hdrop) h

private theorem tag?_passed {s : Text}
    (h : ¬ ("template" : Text).map foldLetter <+: s.map foldLetter) (t : Text) :
    tag? ["template"] (s ++ .scalar '<' :: t) = none := by
  rw [tag?, List.findSome?_cons, dropWord?_passed (by decide) h]
  rfl

private theorem head?_passed {s : Text} (h : s.head? ≠ some (.scalar '/')) (t : Text) :
    (s ++ .scalar '<' :: t).head? ≠ some (.scalar '/') := by
  cases s with
  | nil => simp
  | cons c s => exact h

/-- What is passed over in a template ends before the next bracket. -/
theorem IsTagless.parts_append {s : Text} (h : IsTagless s) (t : Text) :
    Text.parts matchTemplateTag (s ++ .scalar '<' :: t) =
      s.map .plain ++ Text.parts matchTemplateTag (.scalar '<' :: t) := by
  refine Text.parts_passed fun c r hr => ?_
  by_cases hc : c = .scalar '<'
  · subst hc
    have hcomment : ¬ "!--" <+: r := fun hstart =>
      h.comment (infix_of_suffix hr (List.cons_prefix_cons.mpr ⟨rfl, hstart⟩))
    rw [matchTemplateTag_eq, comment?_passed hcomment]
    dsimp only
    by_cases hslash : r.head? = some (.scalar '/')
    · obtain ⟨r, rfl⟩ := List.head?_eq_some_iff.mp hslash
      have hclosing : ¬ ("template" : Text).map foldLetter <+: r.map foldLetter := fun hstart =>
        h.closing (mentions_of_suffix hr
          (List.cons_prefix_cons.mpr ⟨rfl, List.cons_prefix_cons.mpr ⟨rfl, hstart⟩⟩))
      rw [List.cons_append, templateTag?, tag?_passed hclosing]
      rfl
    · have hopening : ¬ ("template" : Text).map foldLetter <+: r.map foldLetter := fun hstart =>
        h.opening (mentions_of_suffix hr (List.cons_prefix_cons.mpr ⟨rfl, hstart⟩))
      rw [templateTag?_other (head?_passed hslash t), tag?_passed hopening]
      rfl
  · exact if_neg hc

/-- What is passed over in a script or a style ends before the next bracket. -/
private theorem parts_matchClosing {kind s : Text} (hkind : .scalar '<' ∉ kind.map foldLetter)
    (h : ¬ Mentions ("</" ++ kind) s) (t : Text) :
    Text.parts (matchClosing kind) (s ++ .scalar '<' :: t) =
      s.map .plain ++ Text.parts (matchClosing kind) (.scalar '<' :: t) := by
  refine Text.parts_passed fun c r hr => ?_
  by_cases hc : c = .scalar '<'
  · subst hc
    by_cases hslash : r.head? = some (.scalar '/')
    · obtain ⟨r, rfl⟩ := List.head?_eq_some_iff.mp hslash
      have hclosing : ¬ kind.map foldLetter <+: r.map foldLetter := fun hstart =>
        h (mentions_of_suffix hr
          (List.cons_prefix_cons.mpr ⟨rfl, List.cons_prefix_cons.mpr ⟨rfl, hstart⟩⟩))
      rw [List.cons_append, matchClosing_eq, dropWord?_passed hkind hclosing]
      rfl
    · exact matchClosing_none kind (head?_passed hslash t)
  · exact if_neg hc

/-- A pattern is not completed behind a text by what does not hold its last code point. -/
private theorem infix_of_infix_append {p s t : Text} {c : CodePoint} (hc : c ∉ t)
    (h : p ++ [c] <:+: s ++ t) : p ++ [c] <:+: s := by
  obtain ⟨before, after, htext⟩ := h
  rcases List.append_eq_append_iff.mp htext with ⟨more, rfl, -⟩ | ⟨more, hmark, rfl⟩
  · exact ⟨before, more, rfl⟩
  · obtain rfl | ⟨more, d, rfl⟩ := List.eq_nil_or_concat more
    · rw [List.append_nil] at hmark
      exact hmark ▸ (List.suffix_append before (p ++ [c])).isInfix
    · rw [List.concat_eq_append, ← List.append_assoc, ← List.append_assoc] at hmark
      obtain ⟨-, hlast⟩ := List.append_inj' hmark rfl
      obtain rfl := List.singleton_injective hlast
      exact absurd (by simp) hc

/-- A comment as it is written, behind its bracket. -/
def commentText (body : Text) : Text :=
  "!--" ++ (body ++ "-->")

/-- A tag as it is written behind its bracket, with a slash at its end or without. -/
def tagText (name : Text) (attributes : AttributeList) (slash : Text) : Text :=
  name ++ (attributes.text ++ (slash ++ ">"))

/-- A closing tag as it is written, behind its bracket. -/
def closingText (name : Text) : Text :=
  "/" ++ (name ++ ">")

/-- A comment reaches up to the first mark of its end. -/
private theorem comment?_written {body : Text} (h : ¬ "-->" <:+: body) (t : Text) :
    comment? (commentText body ++ t) = some (commentText body).length := by
  have hbefore : ¬ "-->" <:+: body ++ ("-->" : Text).dropLast := fun hinfix =>
    h (infix_of_infix_append (p := "--") (c := .scalar '>') (by decide) hinfix)
  have hsplit : Text.splitAt? "-->" (body ++ "-->" ++ t) = some (body, t) :=
    (Text.splitAt?_eq_some_iff (by decide)).mpr ⟨rfl, hbefore⟩
  rw [comment?, commentText, List.append_assoc, Text.dropStart?_eq_some.mpr rfl]
  dsimp only
  rw [hsplit, Option.map_some]
  simp [Text.ofString]

theorem tagBody?_of_quoteAfter {q q' : Option CodePoint} {s : Text}
    (h : quoteAfter q s = some q') (t : Text) :
    tagBody? q (s ++ t) = (tagBody? q' t).map (s ++ ·) := by
  induction s generalizing q with
  | nil =>
    obtain rfl : q = q' := by cases q <;> exact Option.some.inj h
    simp
  | cons c s ih =>
    cases q with
    | some d =>
      rw [List.cons_append, tagBody?, ih h, Option.map_map]
      rfl
    | none =>
      rw [quoteAfter] at h
      split at h
      · cases h
      · rename_i hc
        rw [List.cons_append, tagBody?, if_neg hc, ih h, Option.map_map]
        rfl

theorem AttributeForm.IsWritten.quoteAfter_text {a : AttributeForm} (h : a.IsWritten) :
    quoteAfter none a.text = some none := by
  obtain ⟨space, name, value⟩ := a
  have hspace : quoteAfter none space = some none :=
    quoteAfter_plain (Text.isPlain_of_isBlank h.space)
  have hname : quoteAfter none name = some none :=
    quoteAfter_plain fun c hc => Markup.Attribute.isPlain_of_isNameChar (h.name c hc)
  rw [text, quoteAfter_append, hspace, Option.bind_some, quoteAfter_append, hname,
    Option.bind_some]
  have hequals {before after : Text} (hbefore : Text.isBlank before = true)
      (hafter : Text.isBlank after = true) (t : Text) :
      quoteAfter none (before ++ .scalar '=' :: (after ++ t)) = quoteAfter none t := by
    have hplain : Text.IsPlain (before ++ .scalar '=' :: after) :=
      List.forall_mem_append.mpr ⟨Text.isPlain_of_isBlank hbefore,
        List.forall_mem_cons.mpr ⟨by decide, Text.isPlain_of_isBlank hafter⟩⟩
    rw [← List.cons_append, ← List.append_assoc, quoteAfter_append, quoteAfter_plain hplain,
      Option.bind_some]
  have hvalue : value.IsWritten := h.value
  cases value with
  | absent => rfl
  | quoted before after quote value =>
    obtain ⟨hbefore, hafter, hquote, hmem⟩ := hvalue
    rw [ValueForm.text, hequals hbefore hafter]
    exact quoteAfter_quoted hquote hmem
  | bare before after value =>
    obtain ⟨hbefore, hafter, -, hchars, -⟩ := hvalue
    rw [ValueForm.text, hequals hbefore hafter]
    refine quoteAfter_plain fun c hc => ?_
    have hmarks := (hchars c hc).2
    refine ⟨?_, ?_, ?_⟩
    · rintro (rfl | rfl)
      · exact hmarks (by decide)
      · exact hmarks (by decide)
    · rintro rfl
      exact hmarks (by decide)
    · rintro rfl
      exact hmarks (by decide)

section Tags

variable {l : AttributeList} (h : l.IsWritten)

include h

theorem AttributeList.IsWritten.quoteAfter_text : quoteAfter none l.text = some none := by
  rw [text, quoteAfter_append, quoteAfter_flatMap fun a ha => (h.attributes a ha).quoteAfter_text,
    Option.bind_some]
  exact quoteAfter_plain (Text.isPlain_of_isBlank h.space)

theorem AttributeList.IsWritten.isSelfClosing_text : isSelfClosing l.text = false := by
  have hspace (t : Text) : isSelfClosing (t ++ l.space) = isSelfClosing t := by
    rw [isSelfClosing, isSelfClosing, Text.trimEnd_append t h.space]
  obtain htext | ⟨s, c, htext, hc, hslash⟩ := h.text_cases
  · rw [htext]
    exact hspace []
  · rw [htext, List.append_cons, hspace, isSelfClosing_concat, hc]
    simpa using hslash

/-- A tag is read as it is written. -/
private theorem tag?_written {names : List Text} {name slash : Text}
    (hslash : slash = [] ∨ slash = "/")
    (hname : ∀ t, (names.findSome? fun n => dropWord? n (name ++ t)) = some t) (t : Text) :
    tag? names (tagText name l slash ++ t) =
      some (name, l.text ++ slash, (tagText name l slash).length) := by
  let rest : Text := l.text ++ (slash ++ (">" ++ t))
  have hhead : rest.head?.any endsName = true := by
    have hspace := h.isSpace_of_head?
    cases htext : l.text with
    | nil => rcases hslash with rfl | rfl <;> simp [rest, htext] <;> rfl
    | cons c s =>
      rw [htext] at hspace
      simp [rest, htext, endsName, hspace c rfl]
  have hquotes : quoteAfter none (l.text ++ slash) = some none := by
    rw [quoteAfter_append, h.quoteAfter_text, Option.bind_some]
    rcases hslash with rfl | rfl <;> rfl
  have hbody : tagBody? none rest = some (l.text ++ slash) := by
    have hclose : tagBody? none (">" ++ t) = some [] := rfl
    simp only [rest]
    rw [← List.append_assoc, tagBody?_of_quoteAfter hquotes, hclose, Option.map_some,
      List.append_nil]
  have hwhole : tagText name l slash ++ t = name ++ rest := by
    simp only [rest, tagText, List.append_assoc]
  rw [hwhole, tag?_eq_some (hname rest) rfl hhead hbody]
  simp [tagText, Text.ofString, Nat.add_assoc]

end Tags

/-- The content of a template: text between comments, templates that close themselves, and templates
with a content of their own. -/
inductive Content where
  | last (text : Text)
  | comment (before body : Text) (rest : Content)
  | selfClosing (before : Text) (attributes : AttributeList) (rest : Content)
  | nested (before : Text) (attributes : AttributeList) (inner rest : Content)
  deriving DecidableEq, Repr

namespace Content

def text : Content → Text
  | last text => text
  | comment before body rest => before ++ .scalar '<' :: (commentText body ++ rest.text)
  | selfClosing before attributes rest =>
    before ++ .scalar '<' :: (tagText "template" attributes "/" ++ rest.text)
  | nested before attributes inner rest =>
    before ++ .scalar '<' :: (tagText "template" attributes [] ++
      (inner.text ++ .scalar '<' :: (closingText "template" ++ rest.text)))

/-- A content that is written as it should be. -/
def IsWritten : Content → Prop
  | last text => IsTagless text
  | comment before body rest => IsTagless before ∧ ¬ "-->" <:+: body ∧ rest.IsWritten
  | selfClosing before attributes rest =>
    IsTagless before ∧ attributes.IsWritten ∧ rest.IsWritten
  | nested before attributes inner rest =>
    IsTagless before ∧ attributes.IsWritten ∧ inner.IsWritten ∧ rest.IsWritten

instance decidableIsWritten : DecidablePred IsWritten
  | last _ => inferInstanceAs (Decidable (IsTagless _))
  | comment _ _ rest =>
    have := decidableIsWritten rest
    inferInstanceAs (Decidable (_ ∧ ¬ _ ∧ _))
  | selfClosing _ _ rest =>
    have := decidableIsWritten rest
    inferInstanceAs (Decidable (_ ∧ _ ∧ _))
  | nested _ _ inner rest =>
    have := decidableIsWritten inner
    have := decidableIsWritten rest
    inferInstanceAs (Decidable (_ ∧ _ ∧ _ ∧ _))

end Content

section Nesting

variable {passed depth : Nat} {l : AttributeList}

private theorem templateEnd_tagless {s : Text} (h : IsTagless s) (t : Text) :
    templateEnd passed (depth + 1) (Text.parts matchTemplateTag (s ++ .scalar '<' :: t)) =
      templateEnd (passed + s.length) (depth + 1)
        (Text.parts matchTemplateTag (.scalar '<' :: t)) := by
  rw [h.parts_append, templateEnd_plain]

private theorem templateEnd_comment {body : Text} (h : ¬ "-->" <:+: body) (t : Text) :
    templateEnd passed (depth + 1)
        (Text.parts matchTemplateTag (.scalar '<' :: (commentText body ++ t))) =
      templateEnd (passed + ((commentText body).length + 1)) (depth + 1)
        (Text.parts matchTemplateTag t) := by
  have hfound : matchTemplateTag (.scalar '<') (commentText body ++ t) =
      some (.neutral, (commentText body).length) := by
    rw [matchTemplateTag_eq, comment?_written h]
  rw [← List.cons_append, Text.parts_found hfound]
  rfl

private theorem matchTemplateTag_written (h : l.IsWritten) {slash : Text}
    (hslash : slash = [] ∨ slash = "/") (t : Text) :
    matchTemplateTag (.scalar '<') (tagText "template" l slash ++ t) =
      some (if isSelfClosing (l.text ++ slash) then .neutral else .opening,
        (tagText "template" l slash).length) := by
  have hcomment : comment? (tagText "template" l slash ++ t) = none := rfl
  have hname (t : Text) : ((["template"] : List Text).findSome? fun n =>
      dropWord? n (("template" : Text) ++ t)) = some t := rfl
  have htag := tag?_written h hslash hname t
  rw [matchTemplateTag_eq, hcomment]
  dsimp only
  rw [templateTag?_other, htag, Option.map_some]
  exact nofun

private theorem templateEnd_selfClosing (h : l.IsWritten) (t : Text) :
    templateEnd passed (depth + 1)
        (Text.parts matchTemplateTag (.scalar '<' :: (tagText "template" l "/" ++ t))) =
      templateEnd (passed + ((tagText "template" l "/").length + 1)) (depth + 1)
        (Text.parts matchTemplateTag t) := by
  have hslash : isSelfClosing (l.text ++ "/") = true := isSelfClosing_concat l.text (.scalar '/')
  have hfound := matchTemplateTag_written h (.inr rfl) t
  rw [hslash, if_pos rfl] at hfound
  rw [← List.cons_append, Text.parts_found hfound]
  rfl

private theorem templateEnd_opening (h : l.IsWritten) (t : Text) :
    templateEnd passed (depth + 1)
        (Text.parts matchTemplateTag (.scalar '<' :: (tagText "template" l [] ++ t))) =
      templateEnd (passed + ((tagText "template" l []).length + 1)) (depth + 2)
        (Text.parts matchTemplateTag t) := by
  have hfound := matchTemplateTag_written h (.inl rfl) t
  rw [List.append_nil, h.isSelfClosing_text, if_neg Bool.false_ne_true] at hfound
  rw [← List.cons_append, Text.parts_found hfound]
  rfl

private theorem matchTemplateTag_closing (t : Text) :
    matchTemplateTag (.scalar '<') (closingText "template" ++ t) =
      some (.closing, (closingText "template").length) := by
  have hname : ("template>" ++ t : Text) = "template" ++ (">" ++ t) := rfl
  have htag : tag? ["template"] ("template>" ++ t) = some (("template" : Text), ([] : Text), 9) :=
    tag?_eq_some rfl hname rfl rfl
  exact congrArg (Option.map fun tag : Text × Text × Nat => (Nesting.closing, tag.2.2 + 1)) htag

private theorem templateEnd_closing (t : Text) :
    templateEnd passed (depth + 2)
        (Text.parts matchTemplateTag (.scalar '<' :: (closingText "template" ++ t))) =
      templateEnd (passed + ((closingText "template").length + 1)) (depth + 1)
        (Text.parts matchTemplateTag t) := by
  rw [← List.cons_append, Text.parts_found (matchTemplateTag_closing t)]
  rfl

/-- Whatever is nested in a content, the search for the end of the template goes on behind it. -/
theorem Content.templateEnd_text {b : Content} (h : b.IsWritten) (t : Text) :
    templateEnd passed (depth + 1) (Text.parts matchTemplateTag (b.text ++ .scalar '<' :: t)) =
      templateEnd (passed + b.text.length) (depth + 1)
        (Text.parts matchTemplateTag (.scalar '<' :: t)) := by
  induction b generalizing passed depth t with
  | last s => exact templateEnd_tagless h t
  | comment before body rest ih =>
    obtain ⟨hbefore, hbody, hrest⟩ := h
    simp only [text, List.append_assoc, List.cons_append]
    rw [templateEnd_tagless hbefore, templateEnd_comment hbody, ih hrest]
    congr 1
    simp only [List.length_append, List.length_cons]
    omega
  | selfClosing before l rest ih =>
    obtain ⟨hbefore, hl, hrest⟩ := h
    simp only [text, List.append_assoc, List.cons_append]
    rw [templateEnd_tagless hbefore, templateEnd_selfClosing hl, ih hrest]
    congr 1
    simp only [List.length_append, List.length_cons]
    omega
  | nested before l inner rest ihinner ihrest =>
    obtain ⟨hbefore, hl, hinner, hrest⟩ := h
    simp only [text, List.append_assoc, List.cons_append]
    rw [templateEnd_tagless hbefore, templateEnd_opening hl, ihinner hinner, templateEnd_closing,
      ihrest hrest]
    congr 1
    simp only [List.length_append, List.length_cons]
    omega

end Nesting

/-- What stands at the top of a component: filling, comments, scripts and styles, and templates. -/
inductive Item where
  | filling (text : Text)
  | comment (body : Text)
  | plain (kind : Text) (attributes : AttributeList) (body : Text)
  | template (attributes : AttributeList) (content : Content)
  deriving DecidableEq, Repr

/-- A block as it is written, behind its bracket. -/
def blockText (kind : Text) (attributes : AttributeList) (content : Text) : Text :=
  tagText kind attributes [] ++ (content ++ .scalar '<' :: closingText kind)

/-- The block that is meant, where so much has been passed before its tag. -/
def blockAt (passed : Nat) (kind : Text) (attributes : AttributeList) (content : Text) : Block :=
  let start := passed + ((tagText kind attributes []).length + 1)
  ⟨kind, attributes.table, content, start, start + content.length⟩

namespace Item

def text : Item → Text
  | filling text => text
  | comment body => .scalar '<' :: commentText body
  | plain kind attributes body => .scalar '<' :: blockText kind attributes body
  | template attributes content => .scalar '<' :: blockText "template" attributes content.text

/-- An item that is written as it should be. -/
def IsWritten : Item → Prop
  | filling text => .scalar '<' ∉ text
  | comment body => ¬ "-->" <:+: body
  | plain kind attributes body =>
    kind ∈ (["script", "style"] : List Text) ∧ attributes.IsWritten ∧
      ¬ Mentions ("</" ++ kind) body
  | template attributes content => attributes.IsWritten ∧ content.IsWritten

instance : DecidablePred IsWritten
  | filling _ => inferInstanceAs (Decidable (_ ∉ _))
  | comment _ => inferInstanceAs (Decidable (¬ _))
  | plain .. => inferInstanceAs (Decidable (_ ∈ _ ∧ _ ∧ ¬ _))
  | template .. => inferInstanceAs (Decidable (_ ∧ _))

/-- The block that is meant, if the item is one. -/
def block? (passed : Nat) : Item → Option Block
  | filling _ | comment _ => none
  | plain kind attributes body => blockAt passed kind attributes body
  | template attributes content => blockAt passed "template" attributes content.text

end Item

/-- The blocks that are meant among items, where so much has been passed. -/
def outline (passed : Nat) : List Item → List Block
  | [] => []
  | i :: is => (i.block? passed).toList ++ outline (passed + i.text.length) is

section Blocks

variable {l : AttributeList} {kind content t : Text}

private theorem matchClosing_closing (kind t : Text) :
    matchClosing kind (.scalar '<') (closingText kind ++ t) =
      some ((), (closingText kind).length) := by
  have htext : closingText kind ++ t = .scalar '/' :: (kind ++ .scalar '>' :: t) := by
    simp [closingText, Text.ofString]
  have hcloses : closes (.scalar '>' :: t) = true := rfl
  have hspace : (CodePoint.scalar '>' :: t).takeWhile (·.isSpace) = [] := rfl
  rw [htext, matchClosing_eq, dropWord?_append, Option.bind_some, if_pos hcloses, hspace]
  simp [closingText, Text.ofString]

private theorem blockEnd_plain (hkind : kind ∈ (["script", "style"] : List Text))
    (h : ¬ Mentions ("</" ++ kind) content) :
    blockEnd kind (content ++ .scalar '<' :: (closingText kind ++ t)) =
      (content.length, content.length + ((closingText kind).length + 1)) := by
  have hkinds : ∀ kind ∈ (["script", "style"] : List Text),
      ¬ kind = "template" ∧ .scalar '<' ∉ kind.map foldLetter := by decide
  obtain ⟨hne, hbracket⟩ := hkinds kind hkind
  rw [blockEnd, if_neg hne, parts_matchClosing hbracket h, plainEnd_plain, Nat.zero_add,
    ← List.cons_append, Text.parts_found (matchClosing_closing kind t)]
  rfl

private theorem blockEnd_template {b : Content} (h : b.IsWritten) :
    blockEnd "template" (b.text ++ .scalar '<' :: (closingText "template" ++ t)) =
      (b.text.length, b.text.length + ((closingText "template").length + 1)) := by
  rw [blockEnd, if_pos rfl, Content.templateEnd_text h, Nat.zero_add, ← List.cons_append,
    Text.parts_found (matchTemplateTag_closing t)]
  rfl

/-- A block is found as it is written if its end is. -/
private theorem matchBlock_written (h : l.IsWritten)
    (hkind : kind ∈ (["template", "script", "style"] : List Text))
    (hend : blockEnd kind (content ++ .scalar '<' :: (closingText kind ++ t)) =
      (content.length, content.length + ((closingText kind).length + 1))) :
    matchBlock (.scalar '<') (blockText kind l content ++ t) =
      some (.block kind l.text content ((tagText kind l []).length + 1),
        (blockText kind l content).length) := by
  have hkinds : Text.toLower kind = kind ∧ (∀ t, comment? (kind ++ t) = none) ∧
      ∀ t, ((["template", "script", "style"] : List Text).findSome? fun n =>
        dropWord? n (kind ++ t)) = some t := by
    simp only [List.mem_cons, List.not_mem_nil, or_false] at hkind
    rcases hkind with rfl | rfl | rfl
    · exact ⟨by decide, fun _ => rfl, fun _ => rfl⟩
    · exact ⟨by decide, fun _ => rfl, fun _ => rfl⟩
    · exact ⟨by decide, fun _ => rfl, fun _ => rfl⟩
  obtain ⟨hlower, hcomment, hname⟩ := hkinds
  have htag := tag?_written h (.inl rfl) hname (content ++ .scalar '<' :: (closingText kind ++ t))
  have hwhole : blockText kind l content ++ t =
      tagText kind l [] ++ (content ++ .scalar '<' :: (closingText kind ++ t)) := by
    simp [blockText]
  have hnocomment : comment? (tagText kind l [] ++
      (content ++ .scalar '<' :: (closingText kind ++ t))) = none := by
    rw [tagText, List.append_assoc]
    exact hcomment _
  rw [hwhole, matchBlock_eq, hnocomment, htag, Option.map_some]
  dsimp only
  rw [List.append_nil, h.isSelfClosing_text, if_neg Bool.false_ne_true, hlower, List.drop_left,
    hend, List.take_left]
  simp [blockText]

end Blocks

section Items

variable {i : Item} {is : List Item}

private theorem IsBlockless.comment {body : Text} (h : ¬ "-->" <:+: body) :
    IsBlockless (.scalar '<' :: commentText body) := by
  have hskipped (t : Text) : matchBlock (.scalar '<') (commentText body ++ t) =
      some (.skipped, (commentText body).length) := by
    rw [matchBlock_eq, comment?_written h]
  have hwhole := IsBlockless.skipped hskipped .nil
  rwa [List.append_nil] at hwhole

private theorem map_blocksOf_blockless {s : Text} (h : IsBlockless s) (passed : Nat) (t : Text) :
    (blocksOf passed (Text.parts matchBlock (s ++ t))).map Prod.snd =
      (blocksOf (passed + s.length) (Text.parts matchBlock t)).map Prod.snd := by
  rw [h.parts_append, blocksOf_append, h.blocksOf_parts, Text.flatten_parts, List.nil_append]

private theorem map_blocksOf_block {kind content : Text} {l : AttributeList} (h : l.IsWritten)
    (t : Text)
    (hm : matchBlock (.scalar '<') (blockText kind l content ++ t) =
      some (.block kind l.text content ((tagText kind l []).length + 1),
        (blockText kind l content).length)) (passed : Nat) :
    (blocksOf passed (Text.parts matchBlock
        (.scalar '<' :: blockText kind l content ++ t))).map Prod.snd =
      blockAt passed kind l content ::
        (blocksOf (passed + (.scalar '<' :: blockText kind l content).length)
          (Text.parts matchBlock t)).map Prod.snd := by
  have hattributes : parseAttributes l.text = l.table := by
    have hslashes := parseAttributes_slashes h.getLast?_text 0
    rwa [List.replicate_zero, List.append_nil, h.ofPairs_findAll] at hslashes
  rw [Text.parts_found hm, blocksOf, hattributes]
  rfl

/-- An item is found as the block that is meant or as none, and the search goes on behind it. -/
private theorem map_blocksOf_item (h : i.IsWritten) (passed : Nat) (t : Text) :
    (blocksOf passed (Text.parts matchBlock (i.text ++ t))).map Prod.snd =
      (i.block? passed).toList ++
        (blocksOf (passed + i.text.length) (Text.parts matchBlock t)).map Prod.snd := by
  cases i with
  | filling s =>
    have hs : .scalar '<' ∉ s := h
    exact map_blocksOf_blockless (.of_not_mem hs) passed t
  | comment body =>
    have hbody : ¬ "-->" <:+: body := h
    exact map_blocksOf_blockless (.comment hbody) passed t
  | plain kind l body =>
    obtain ⟨hkind, hl, hbody⟩ := h
    exact map_blocksOf_block hl t (matchBlock_written hl (List.mem_cons_of_mem _ hkind)
      (blockEnd_plain hkind hbody)) passed
  | template l content =>
    obtain ⟨hl, hcontent⟩ := h
    exact map_blocksOf_block hl t (matchBlock_written hl (List.mem_cons_self ..)
      (blockEnd_template hcontent)) passed

private theorem map_blocksOf_items (h : ∀ i ∈ is, i.IsWritten) (passed : Nat) :
    (blocksOf passed (Text.parts matchBlock (is.flatMap Item.text))).map Prod.snd =
      outline passed is := by
  induction is generalizing passed with
  | nil => rfl
  | cons i is ih =>
    obtain ⟨hi, his⟩ := List.forall_mem_cons.mp h
    rw [List.flatMap_cons, map_blocksOf_item hi, ih his, outline]

private theorem kind_of_mem_outline (h : ∀ i ∈ is, i.IsWritten) {passed : Nat} {b : Block}
    (hb : b ∈ outline passed is) : b.kind ∈ (["template", "script", "style"] : List Text) := by
  induction is generalizing passed with
  | nil => cases hb
  | cons i is ih =>
    obtain ⟨hi, his⟩ := List.forall_mem_cons.mp h
    rcases List.mem_append.mp hb with hb | hb
    · cases i with
      | filling => cases hb
      | comment => cases hb
      | plain kind l body =>
        obtain rfl := List.mem_singleton.mp hb
        exact List.mem_cons_of_mem _ hi.1
      | template l content =>
        obtain rfl := List.mem_singleton.mp hb
        exact List.mem_cons_self ..
    · exact ih his hb

private theorem content_of_mem_blocks {text : Text} {b : Block}
    (hb : b ∈ (blocks text).map Prod.snd) : (text.take b.stop).drop b.start = b.content := by
  obtain ⟨⟨m, b⟩, hmem, rfl⟩ := List.mem_map.mp hb
  obtain ⟨before, after, htext, hstart, hstop⟩ := (blocks_spec text).1 _ hmem
  rw [Nat.zero_add] at hstart
  rw [← hstop, ← hstart, htext, ← List.length_append, List.take_left, List.drop_left]

/-- The blocks of a component are those that are written at its top, in their order, each with its
attributes and with exactly its content in its range. The first template counts, and nothing inside
a comment or a block is taken for a block. -/
theorem layout_items (h : ∀ i ∈ is, i.IsWritten) :
    let text := is.flatMap Item.text
    let blocks := outline 0 is
    (layout text).template = blocks.find? (·.kind == ("template" : Text)) ∧
      (layout text).scripts = blocks.filter (·.kind == ("script" : Text)) ∧
      (layout text).styles = blocks.filter (·.kind == ("style" : Text)) ∧
      ∀ b ∈ blocks, (text.take b.stop).drop b.start = b.content := by
  intro text
  have hblocks : (blocks text).map Prod.snd = outline 0 is := map_blocksOf_items h 0
  have hstyle : ∀ kind ∈ (["template", "script", "style"] : List Text),
      (kind == ("style" : Text)) = (kind != "template" && kind != "script") := by decide
  rw [← hblocks]
  refine ⟨?_, ?_, ?_, fun b hb => content_of_mem_blocks hb⟩
  · rw [List.find?_map, ← List.head?_filter]
    rfl
  · rw [List.filter_map]
    rfl
  · rw [List.filter_map]
    refine congrArg (List.map Prod.snd) (List.filter_congr fun b hb => ?_)
    have hkind := kind_of_mem_outline h (hblocks ▸ List.mem_map_of_mem hb)
    exact (hstyle _ hkind).symm

/-- Tags in comments, in values and in the content of a script bear on nothing, and templates may be
nested in a template. -/
theorem layout_items_nested :
    let is : List Item := [.filling "\n", .comment "<script>x</script>",
      .plain "script" ⟨[⟨" ", "setup", .absent⟩,
        ⟨" ", "lang", .quoted "" "" (.scalar '\x22') "t>s"⟩], ""⟩ "a</b",
      .template ⟨[], ""⟩ (.nested "<p>"
        ⟨[⟨" ", "v-if", .quoted "" "" (.scalar '\x27') "a > 0"⟩], " "⟩
        (.comment "x" " </template> " (.last "y"))
        (.selfClosing "" ⟨[⟨" ", "v-slot:b", .absent⟩], " "⟩ (.last "z"))),
      .filling " ", .plain "style" ⟨[], ""⟩ "", .template ⟨[], ""⟩ (.last "")]
    let text : Text := "\n<!--<script>x</script>--><script setup lang=\x22t>s\x22>a</b</script>" ++
      "<template><p><template v-if='a > 0' >x<!-- </template> -->y</template>" ++
      "<template v-slot:b />z</template> <style></style><template></template>"
    (∀ i ∈ is, i.IsWritten) ∧ is.flatMap Item.text = text ∧
      (layout text).template = some ⟨"template", [],
        "<p><template v-if='a > 0' >x<!-- </template> -->y</template><template v-slot:b />z",
        74, 156⟩ ∧
      (layout text).scripts = [⟨"script",
        ([("setup", .present), ("lang", .text "t>s")] : List (Text × AttributeValue)), "a</b",
        51, 55⟩] ∧
      (layout text).styles = [⟨"style", [], "", 175, 175⟩] := by
  intro is text
  have his : ∀ i ∈ is, i.IsWritten := by decide +kernel
  have htext : is.flatMap Item.text = text := by
    unfold text
    rw [Text.ofString_ofList, Text.ofString_ofList, Text.ofString_ofList]
    decide +kernel
  obtain ⟨htemplate, hscripts, hstyles, -⟩ := layout_items his
  rw [htext] at htemplate hscripts hstyles
  exact ⟨his, htext, htemplate.trans (by decide +kernel), hscripts.trans (by decide +kernel),
    hstyles.trans (by decide +kernel)⟩

end Items

end LocaleLift.Component
