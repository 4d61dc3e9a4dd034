import LocaleLift.Proofs.Markup.Quotes
import LocaleLift.Proofs.Script.Lookup

/-! Opening tags as they are written out of names and attributes. Where values with Chinese stand in
attributes that are not bound yet, localizing binds just these, and only once. -/
namespace LocaleLift

open Extract (Finds Quiet)

/-- The names of a scope may stand in the value of a bound attribute: those of the sections can be
encoded and hold no quotes, and the function has a name of its own. -/
structure Scope.CanBind (s : Scope) : Prop where
  ns : ∀ c ∈ s.ns, c.isScalar = true ∧ ¬ c.IsQuote
  common : ∀ c ∈ s.common.ns, c.isScalar = true ∧ ¬ c.IsQuote
  function : Script.Lexeme.IsName s.function
  word : s.function ∉ Script.Grammar.expressionWords

namespace Scope.CanBind

variable {scope : Scope} (h : scope.CanBind)

include h

theorem not_mem_function {q : CodePoint} (hq : q.IsQuote) : q ∉ scope.function := by
  obtain ⟨c, t, hfunction, hc, ht⟩ := h.function
  have hall : ∀ d ∈ scope.function, Script.Lexeme.continuesName d = true := by
    rw [hfunction]
    exact List.forall_mem_cons.mpr ⟨Script.Lexeme.continuesName_of_startsName hc, ht⟩
  intro hmem
  have := hall q hmem
  rcases hq with rfl | rfl
  · cases this
  · cases this

theorem isEncodable : scope.IsEncodable where
  ns := Text.isEncodable_iff.mpr fun c hc => (h.ns c hc).1
  common := Text.isEncodable_iff.mpr fun c hc => (h.common c hc).1
  function := Text.isEncodable_iff.mpr h.function.isScalar

end Scope.CanBind

namespace Markup

namespace Attribute

/-- An attribute that is written as it should be. -/
structure IsWritten (a : Attribute) : Prop where
  space : a.space.isSpace = true
  name_ne : a.name ≠ []
  name : ∀ c ∈ a.name, isNameChar c = true
  equals : ∃ before after, a.equals = before ++ .scalar '=' :: after ∧
    Text.isBlank before = true ∧ Text.isBlank after = true
  quote : a.quote.IsQuote
  value : a.quote ∉ a.value

variable {a : Attribute} {scope : Scope}

private theorem isSpace_of_isQuote {c : CodePoint} (h : c.IsQuote) : c.isSpace = false := by
  rcases h with rfl | rfl <;> rfl

/-- An attribute is found where it is written, whatever follows. -/
theorem IsWritten.matchAttribute (h : a.IsWritten) (t : Text) :
    ∃ r, a.text = a.space :: r ∧ matchAttribute a.space (r ++ t) = some (a, r.length) := by
  obtain ⟨space, name, equals, quote, value⟩ := a
  obtain ⟨hspace, hne, hname, ⟨before, after, rfl, hbefore, hafter⟩, hquote, hvalue⟩ := h
  dsimp only at hspace hne hname hquote hvalue
  refine ⟨name ++ (before ++ .scalar '=' :: after) ++ quote :: value ++ [quote], rfl, ?_⟩
  have hbehind : ∀ c ∈ (before ++ .scalar '=' :: (after ++ quote :: (value ++ quote :: t))).head?,
      isNameChar c = false := by
    cases before with
    | nil =>
      rintro _ ⟨⟩
      rfl
    | cons c before =>
      rintro _ ⟨⟩
      exact isNameChar_of_isSpace (List.all_eq_true.mp hbefore _ (List.mem_cons_self ..))
  have hfirst := Text.takeWhile_append hname hbehind
  have hsecond := Text.takeWhile_append
    (t := .scalar '=' :: (after ++ quote :: (value ++ quote :: t)))
    (List.all_eq_true.mp hbefore) (by rintro _ ⟨⟩; rfl)
  have hthird := Text.takeWhile_append (t := quote :: (value ++ quote :: t))
    (List.all_eq_true.mp hafter) (by rintro _ ⟨⟩; exact isSpace_of_isQuote hquote)
  have hlast : (value ++ quote :: t).takeWhile (· != quote) = value := by
    refine Text.takeWhile_append (fun c hc => ?_) (by rintro _ ⟨⟩; simp)
    simpa using fun he : c = quote => hvalue (he ▸ hc)
  have hwhole : name ++ (before ++ .scalar '=' :: after) ++ quote :: value ++ [quote] ++ t =
      name ++ (before ++ .scalar '=' :: (after ++ quote :: (value ++ quote :: t))) := by
    simp
  have hvalid : ¬ (name.isEmpty || !(quote = .scalar '\x22' || quote = .scalar '\x27') ||
      value.length = (value ++ quote :: t).length) = true := by
    have hquoted : (quote = .scalar '\x22' || quote = .scalar '\x27') = true := by
      simpa [CodePoint.IsQuote] using hquote
    rw [hquoted]
    simp [hne]
  rw [hwhole, Attribute.matchAttribute, if_pos hspace]
  simp only [hfirst, List.drop_left, hsecond, hthird, hlast]
  rw [if_neg hvalid]
  simp only [List.length_append, List.length_cons, List.length_nil]
  rfl

theorem IsWritten.isSpelt (h : a.IsWritten) : a.IsSpelt where
  space := h.space
  name := h.name
  equals := by
    obtain ⟨before, after, hequals, hbefore, hafter⟩ := h.equals
    rw [hequals]
    refine List.forall_mem_append.mpr ⟨fun c hc => .inl (List.all_eq_true.mp hbefore c hc), ?_⟩
    exact List.forall_mem_cons.mpr ⟨.inr rfl, fun c hc => .inl (List.all_eq_true.mp hafter c hc)⟩
  quote := h.quote

theorem localize_of_not_hasHan [Script.Parser] (h : Text.hasHan a.value = false) :
    a.localize scope = pure a.text := by
  rw [localize, h]
  rfl

theorem localize_of_hasCall [Script.Parser] (hdynamic : isDynamic a.name = true)
    (hcall : Script.Binding.hasCall scope.function a.value = .ok true) :
    a.localize scope = pure a.text := by
  rw [localize]
  split
  · rfl
  · rw [hcall]
    rfl

/-- No attribute begins where no name follows. -/
private theorem matchAttribute_of_head {c : CodePoint} {t : Text}
    (h : ∀ d ∈ t.head?, isNameChar d = false) : matchAttribute c t = none := by
  have hnone : t.takeWhile isNameChar = [] :=
    Text.takeWhile_append (s := []) (List.forall_mem_nil _) h
  rw [matchAttribute]
  split
  · dsimp only
    rw [hnone]
    split
    · split
      · rfl
      · rfl
    · rfl
  · rfl

private theorem matchAttribute_of_not_space {c : CodePoint} (h : c.isSpace = false) (t : Text) :
    matchAttribute c t = none := by
  rw [matchAttribute, h]
  rfl

/-- What stands behind a name without a value: no more of the name, and no equals sign. -/
private def Bares (t : Text) : Prop :=
  ∃ s u, t = s ++ u ∧ Text.isBlank s = true ∧ (∀ c ∈ t.head?, isNameChar c = false) ∧
    ∀ c ∈ u.head?, c.isSpace = false ∧ c ≠ .scalar '='

private theorem matchAttribute_bare {name t : Text} (hname : ∀ c ∈ name, isNameChar c = true)
    (ht : Bares t) (c : CodePoint) : matchAttribute c (name ++ t) = none := by
  obtain ⟨s, u, rfl, hs, hhead, hu⟩ := ht
  have hfirst := Text.takeWhile_append hname hhead
  have hsecond := Text.takeWhile_append (List.all_eq_true.mp hs) fun d hd => (hu d hd).1
  rw [matchAttribute]
  split
  · simp only [hfirst, List.drop_left, hsecond]
    split
    · exact absurd rfl (hu _ rfl).2
    · rfl
  · rfl

end Attribute

/-- What stands behind the name of a tag: a name alone, or an attribute with a value. White space
stands before both, the last of it in the attribute. -/
inductive TagItem where
  | bare (space name : Text)
  | valued (space : Text) (a : Attribute)
  deriving DecidableEq, Repr

namespace TagItem

def text : TagItem → Text
  | bare space name => space ++ name
  | valued space a => space ++ a.text

def attribute? : TagItem → Option Attribute
  | bare _ _ => none
  | valued _ a => some a

def map (f : Attribute → Attribute) : TagItem → TagItem
  | bare space name => bare space name
  | valued space a => valued space (f a)

/-- An item that is written as it should be. -/
def IsWritten : TagItem → Prop
  | bare space name => space ≠ [] ∧ Text.isBlank space = true ∧
      name ≠ [] ∧ ∀ c ∈ name, isNameChar c = true
  | valued space a => Text.isBlank space = true ∧ a.IsWritten

def parts : TagItem → List (Part Attribute)
  | bare space name => (space ++ name).map .plain
  | valued space a => space.map .plain ++ [.found a a.text]

end TagItem

/-- The letters with which the names of tags begin. -/
def isLetter (c : CodePoint) : Bool :=
  c.inRange 0x41 0x5A || c.inRange 0x61 0x7A

/-- An opening tag. -/
structure OpeningTag where
  name : Text
  items : List TagItem
  /-- The white space at the end. -/
  space : Text
  /-- Whether a slash stands before the closing bracket. -/
  slash : Bool
  deriving DecidableEq, Repr

namespace OpeningTag

def ending (tag : OpeningTag) : Text :=
  if tag.slash then "/>" else ">"

def text (tag : OpeningTag) : Text :=
  "<" ++ tag.name ++ tag.items.flatMap TagItem.text ++ tag.space ++ tag.ending

def attributes (tag : OpeningTag) : List Attribute :=
  tag.items.filterMap TagItem.attribute?

def map (f : Attribute → Attribute) (tag : OpeningTag) : OpeningTag :=
  { tag with items := tag.items.map (TagItem.map f) }

/-- A tag that is written as it should be. Its name begins with a letter. -/
structure IsWritten (tag : OpeningTag) : Prop where
  name : ∃ c s, tag.name = c :: s ∧ isLetter c = true ∧ ∀ d ∈ s, isNameChar d = true
  items : ∀ i ∈ tag.items, i.IsWritten
  space : Text.isBlank tag.space = true

end OpeningTag

private theorem parts_name {s : Text} (hs : ∀ c ∈ s, c.isSpace = false) (t : Text) :
    Text.parts Attribute.matchAttribute (s ++ t) =
      s.map .plain ++ Text.parts Attribute.matchAttribute t := by
  induction s with
  | nil => rfl
  | cons c s ih =>
    obtain ⟨hc, hs⟩ := List.forall_mem_cons.mp hs
    rw [List.cons_append, Text.parts_plain (Attribute.matchAttribute_of_not_space hc _), ih hs]
    rfl

private theorem parts_blank {s t : Text} (hs : Text.isBlank s = true)
    (ht : ∀ c, Attribute.matchAttribute c t = none) :
    Text.parts Attribute.matchAttribute (s ++ t) =
      s.map .plain ++ Text.parts Attribute.matchAttribute t := by
  induction s with
  | nil => rfl
  | cons c s ih =>
    obtain ⟨-, hs⟩ := List.forall_mem_cons.mp (List.all_eq_true.mp hs)
    have hc : Attribute.matchAttribute c (s ++ t) = none := by
      cases s with
      | nil => exact ht c
      | cons d s =>
        refine Attribute.matchAttribute_of_head ?_
        rintro _ ⟨⟩
        exact isNameChar_of_isSpace (hs _ (List.mem_cons_self ..))
    rw [List.cons_append, Text.parts_plain hc, ih (List.all_eq_true.mpr hs)]
    rfl

private theorem parts_item {i : TagItem} (hi : i.IsWritten) {t : Text} (ht : Attribute.Bares t) :
    Text.parts Attribute.matchAttribute (i.text ++ t) =
      i.parts ++ Text.parts Attribute.matchAttribute t := by
  cases i with
  | bare space name =>
    obtain ⟨-, hspace, -, hname⟩ := hi
    rw [TagItem.text, TagItem.parts, List.append_assoc,
      parts_blank hspace (Attribute.matchAttribute_bare hname ht),
      parts_name fun c hc => isSpace_of_isNameChar (hname c hc), List.map_append, List.append_assoc]
  | valued space a =>
    obtain ⟨hspace, ha⟩ := hi
    obtain ⟨r, hr, hm⟩ := ha.matchAttribute t
    rw [TagItem.text, TagItem.parts, List.append_assoc, List.append_assoc, parts_blank hspace, hr,
      Text.parts_found hm]
    · rfl
    · intro c
      refine Attribute.matchAttribute_of_head ?_
      rintro _ ⟨⟩
      exact isNameChar_of_isSpace ha.space

private theorem bares_append {s t : Text} (hs : Text.isBlank s = true)
    (hhead : s ≠ [] ∨ ∀ c ∈ t.head?, isNameChar c = false)
    (ht : ∀ c ∈ t.head?, c.isSpace = false ∧ c ≠ .scalar '=') : Attribute.Bares (s ++ t) := by
  refine ⟨s, t, rfl, hs, ?_, ht⟩
  cases s with
  | nil => exact hhead.resolve_left (absurd rfl)
  | cons c s =>
    rintro _ ⟨⟩
    exact isNameChar_of_isSpace (List.all_eq_true.mp hs _ (List.mem_cons_self ..))

private theorem begins_name {name : Text} (hne : name ≠ [])
    (hname : ∀ c ∈ name, isNameChar c = true) (t : Text) :
    ∀ c ∈ (name ++ t).head?, c.isSpace = false ∧ c ≠ .scalar '=' := by
  obtain ⟨c, s, rfl⟩ := List.exists_cons_of_ne_nil hne
  rintro _ ⟨⟩
  have hc := hname _ (List.mem_cons_self ..)
  refine ⟨isSpace_of_isNameChar hc, ?_⟩
  rintro rfl
  cases hc

namespace OpeningTag

private theorem ending_head (tag : OpeningTag) : ∀ c ∈ tag.ending.head?,
    isNameChar c = false ∧ c.isSpace = false ∧ c ≠ .scalar '=' := by
  rw [ending]
  split <;> decide

private theorem bares_items {tag : OpeningTag} (hspace : Text.isBlank tag.space = true)
    {items : List TagItem} (hitems : ∀ i ∈ items, i.IsWritten) :
    Attribute.Bares (items.flatMap TagItem.text ++ (tag.space ++ tag.ending)) := by
  cases items with
  | nil =>
    rw [List.flatMap_nil, List.nil_append]
    exact bares_append hspace (.inr fun c hc => (tag.ending_head c hc).1)
      fun c hc => (tag.ending_head c hc).2
  | cons i items =>
    have hi := hitems i (List.mem_cons_self ..)
    rw [List.flatMap_cons, List.append_assoc]
    cases i with
    | bare space name =>
      obtain ⟨hne, hspace, hname⟩ := hi
      rw [TagItem.text, List.append_assoc]
      exact bares_append hspace (.inl hne) (begins_name hname.1 hname.2 _)
    | valued space a =>
      obtain ⟨hspace, ha⟩ := hi
      have hblank : Text.isBlank (space ++ [a.space]) = true := by
        rw [Text.isBlank, List.all_append, Bool.and_eq_true]
        exact ⟨hspace, by simp [ha.space]⟩
      have hbares := bares_append hblank (.inl (by simp)) (begins_name ha.name_ne ha.name
        (a.equals ++ a.quote :: a.value ++ [a.quote] ++
          (items.flatMap TagItem.text ++ (tag.space ++ tag.ending))))
      simpa [TagItem.text, Attribute.text] using hbares

variable {tag : OpeningTag}

def parts (tag : OpeningTag) : List (Part Attribute) :=
  ("<" ++ tag.name).map .plain ++ (tag.items.flatMap TagItem.parts ++
    (tag.space ++ tag.ending).map .plain)

private theorem text_eq (tag : OpeningTag) : tag.text =
    "<" ++ tag.name ++ (tag.items.flatMap TagItem.text ++ (tag.space ++ tag.ending)) := by
  simp only [text, List.append_assoc]

private theorem parts_ending (hspace : Text.isBlank tag.space = true) :
    Text.parts Attribute.matchAttribute (tag.space ++ tag.ending) =
      (tag.space ++ tag.ending).map .plain := by
  have hending : ∀ c ∈ tag.ending, c.isSpace = false := by
    rw [ending]
    split <;> decide
  have hparts : Text.parts Attribute.matchAttribute tag.ending = tag.ending.map .plain := by
    have hall := parts_name hending []
    rwa [List.append_nil, show Text.parts Attribute.matchAttribute [] = [] from rfl,
      List.append_nil] at hall
  rw [parts_blank hspace fun c => Attribute.matchAttribute_of_head fun d hd =>
    (tag.ending_head d hd).1, hparts, List.map_append]

private theorem isNameChar_of_isLetter {c : CodePoint} (h : isLetter c = true) :
    isNameChar c = true := by
  have hspace : c.isSpace = false := by
    cases hspace : c.isSpace with
    | false => rfl
    | true =>
      simp only [isLetter, CodePoint.inRange, Bool.or_eq_true, Bool.and_eq_true,
        decide_eq_true_eq] at h
      simp only [CodePoint.isSpace, CodePoint.inRange, Bool.or_eq_true, Bool.and_eq_true,
        decide_eq_true_eq, beq_iff_eq] at hspace
      omega
  have hmark : ∀ d ∈ ("\"'<>/=" : Text), isLetter d = false := by decide
  rw [isNameChar, hspace, Bool.not_false, Bool.true_and, Bool.not_eq_true', Bool.eq_false_iff,
    List.contains_eq_mem]
  intro hmem
  exact Bool.noConfusion (h.symm.trans (hmark c (of_decide_eq_true hmem)))

private theorem IsWritten.isNameChar (h : tag.IsWritten) : ∀ c ∈ tag.name, isNameChar c = true := by
  obtain ⟨c, s, hname, hc, hs⟩ := h.name
  rw [hname]
  exact List.forall_mem_cons.mpr ⟨isNameChar_of_isLetter hc, hs⟩

theorem parts_text (h : tag.IsWritten) :
    Text.parts Attribute.matchAttribute tag.text = tag.parts := by
  have hname : ∀ c ∈ ("<" ++ tag.name : Text), c.isSpace = false :=
    List.forall_mem_append.mpr ⟨by decide, fun c hc => isSpace_of_isNameChar (h.isNameChar c hc)⟩
  rw [text_eq, parts_name hname, parts]
  congr 1
  have hitems := h.items
  generalize tag.items = items at hitems
  induction items with
  | nil => exact parts_ending h.space
  | cons i items ih =>
    obtain ⟨hi, hitems⟩ := List.forall_mem_cons.mp hitems
    rw [List.flatMap_cons, List.append_assoc, parts_item hi (bares_items h.space hitems), ih hitems,
      List.flatMap_cons, List.append_assoc]

private theorem quoteAfter_item {i : TagItem} (hi : i.IsWritten) :
    quoteAfter none i.text = some none := by
  cases i with
  | bare space name =>
    obtain ⟨-, hspace, -, hname⟩ := hi
    exact quoteAfter_plain (List.forall_mem_append.mpr ⟨Text.isPlain_of_isBlank hspace,
      fun c hc => Attribute.isPlain_of_isNameChar (hname c hc)⟩)
  | valued space a =>
    obtain ⟨hspace, ha⟩ := hi
    rw [TagItem.text, quoteAfter_append, quoteAfter_plain (Text.isPlain_of_isBlank hspace),
      Option.bind_some, ha.isSpelt.quoteAfter_text ha.value]

/-- A tag is one mark, whatever follows it. -/
theorem matchMark_text (h : tag.IsWritten) : ∃ r, tag.text = .scalar '<' :: r ∧
    ∀ t, matchMark (.scalar '<') (r ++ t) = some (.tag, r.length) := by
  obtain ⟨slash, hending, hslash⟩ : ∃ slash : Text, tag.ending = slash ++ [.scalar '>'] ∧
      slash.IsPlain := by
    rw [ending]
    split
    · exact ⟨"/", rfl, by decide⟩
    · exact ⟨[], rfl, List.forall_mem_nil _⟩
  obtain ⟨c, s, hname, hc, -⟩ := h.name
  let inside : Text := tag.name ++ (tag.items.flatMap TagItem.text ++ (tag.space ++ slash))
  have htext : tag.text = .scalar '<' :: (inside ++ [.scalar '>']) := by
    rw [text_eq, hending]
    simp [inside, Text.ofString]
  have hplain : tag.name.IsPlain := fun d hd => Attribute.isPlain_of_isNameChar (h.isNameChar d hd)
  have hinside : quoteAfter none inside = some none := by
    rw [quoteAfter_append, quoteAfter_plain hplain, Option.bind_some, quoteAfter_append,
      quoteAfter_flatMap fun i hi => quoteAfter_item (h.items i hi), Option.bind_some,
      quoteAfter_plain]
    exact List.forall_mem_append.mpr ⟨Text.isPlain_of_isBlank h.space, hslash⟩
  refine ⟨inside ++ [.scalar '>'], htext, fun t => matchMark_eq_tag.mpr ⟨rfl, ?_, ?_, ?_⟩⟩
  · simp only [inside, hname, List.cons_append]
    refine Bool.eq_false_iff.mpr fun hcomment => ?_
    obtain ⟨rfl, -⟩ := List.cons_prefix_cons.mp (List.isPrefixOf_iff_prefix.mp hcomment)
    cases hc
  · rw [isLetter] at hc
    simp [inside, hname, startsTag, hc]
  · exact tagLength_eq_length.mpr (.inl ⟨inside, rfl, hinside⟩)

private theorem opensElement_text (h : tag.IsWritten) : opensElement tag.text = true := by
  obtain ⟨c, s, hname, hc, -⟩ := h.name
  obtain ⟨t, htext⟩ : ∃ t, tag.text = .scalar '<' :: c :: t := ⟨_, by rw [text_eq, hname]; rfl⟩
  have hstarts {d : CodePoint} (hd : isLetter d = false) :
      Text.startsWith [.scalar '<', d] (.scalar '<' :: c :: t) = false := by
    refine Bool.eq_false_iff.mpr fun hstart => ?_
    obtain ⟨-, hd'⟩ := List.cons_prefix_cons.mp (List.isPrefixOf_iff_prefix.mp hstart)
    rw [(List.cons_prefix_cons.mp hd').1] at hd
    exact Bool.noConfusion (hc.symm.trans hd)
  have hslash : Text.startsWith "</" tag.text = false := htext ▸ hstarts (by decide)
  have hbang : Text.startsWith "<!" tag.text = false := htext ▸ hstarts (by decide)
  rw [opensElement, hslash, hbang]
  rfl

private theorem attributes_map (f : Attribute → Attribute) (tag : OpeningTag) :
    (tag.map f).attributes = tag.attributes.map f := by
  rw [attributes, attributes, map, List.filterMap_map, List.map_filterMap]
  refine congrArg (fun g => List.filterMap g tag.items) (funext fun i => ?_)
  cases i <;> rfl

private theorem IsWritten.attribute (h : tag.IsWritten) {a : Attribute} (ha : a ∈ tag.attributes) :
    a.IsWritten := by
  obtain ⟨i, hi, hia⟩ := List.mem_filterMap.mp ha
  have hi := h.items i hi
  cases i with
  | bare space name => cases hia
  | valued space b =>
    cases hia
    exact hi.2

private theorem map_id (tag : OpeningTag) : tag.map id = tag := by
  have hitem : TagItem.map id = id := funext fun i => by cases i <;> rfl
  rw [map, hitem, List.map_id]

/-- A tag is one token. -/
theorem tokens_text (h : tag.IsWritten) : tokens tag.text = [⟨.tag, tag.text⟩] := by
  obtain ⟨r, htext, hm⟩ := matchMark_text h
  have hparts := Text.parts_found (hm [])
  rw [List.append_nil] at hparts
  rw [htext, tokens, hparts]
  rfl

section Localizing

variable {scope : Scope} {found : Attribute → List Text} {f : Attribute → Attribute}

private theorem finds_plain [Script.Parser] {s : Text} {ps : List (Part Attribute)} {ts : List Text}
    {out : Text}
    (hps : Finds ts out (localizeParts (Attribute.localize scope) ps)) :
    Finds ts (s ++ out) (localizeParts (Attribute.localize scope) (s.map .plain ++ ps)) := by
  induction s with
  | nil => exact hps
  | cons c s ih => exact Extract.finds_map.mpr ⟨_, ih, rfl⟩

private theorem finds_items [Script.Parser] {items : List TagItem}
    (h : ∀ a ∈ items.filterMap TagItem.attribute?,
      Finds (found a) (f a).text (a.localize scope))
    {ps : List (Part Attribute)} {ts : List Text} {out : Text}
    (hps : Finds ts out (localizeParts (Attribute.localize scope) ps)) :
    Finds ((items.filterMap TagItem.attribute?).flatMap found ++ ts)
      ((items.map (TagItem.map f)).flatMap TagItem.text ++ out)
      (localizeParts (Attribute.localize scope) (items.flatMap TagItem.parts ++ ps)) := by
  induction items with
  | nil => exact hps
  | cons i items ih =>
    cases i with
    | bare space name =>
      rw [List.flatMap_cons, List.append_assoc, List.map_cons, List.flatMap_cons, List.append_assoc]
      exact finds_plain (ih h)
    | valued space a =>
      obtain ⟨ha, hrest⟩ := List.forall_mem_cons.mp h
      have hfound : Finds (found a ++ ((items.filterMap TagItem.attribute?).flatMap found ++ ts))
          ((f a).text ++ ((items.map (TagItem.map f)).flatMap TagItem.text ++ out))
          (localizeParts (Attribute.localize scope)
            (.found a a.text :: (items.flatMap TagItem.parts ++ ps))) :=
        Extract.finds_bind.mpr ⟨_, _, _, ha, Extract.finds_map.mpr ⟨_, ih hrest, rfl⟩, rfl⟩
      simpa [TagItem.attribute?, TagItem.parts, TagItem.map, TagItem.text] using
        finds_plain (s := space) hfound

private theorem finds_localizeParts [Script.Parser]
    (hf : ∀ a ∈ tag.attributes, Finds (found a) (f a).text (a.localize scope)) :
    Finds (tag.attributes.flatMap found) (tag.map f).text
      (localizeParts (Attribute.localize scope) tag.parts) := by
  have hending : Finds [] (tag.space ++ tag.ending)
      (localizeParts (Attribute.localize scope) ((tag.space ++ tag.ending).map .plain)) := by
    have hnil : Finds [] [] (localizeParts (Attribute.localize scope) []) := ⟨rfl, rfl⟩
    simpa using finds_plain (s := tag.space ++ tag.ending) hnil
  have hall := finds_plain (s := "<" ++ tag.name) (finds_items hf hending)
  rw [List.append_nil] at hall
  rw [text_eq]
  exact hall

private theorem findAll_text (h : tag.IsWritten) :
    Text.findAll Attribute.matchAttribute tag.text = tag.attributes := by
  have hplain (s : Text) : (s.map fun c => (.plain c : Part Attribute)).filterMap Part.found? = [] := by
    rw [List.filterMap_map]
    exact List.filterMap_eq_nil_iff.mpr fun _ _ => rfl
  rw [Text.findAll, parts_text h, parts, List.filterMap_append, List.filterMap_append, hplain,
    hplain, List.nil_append, List.append_nil, attributes]
  induction tag.items with
  | nil => rfl
  | cons i items ih =>
    rw [List.flatMap_cons, List.filterMap_append, ih]
    cases i with
    | bare space name => rw [TagItem.parts, hplain]; rfl
    | valued space a => rw [TagItem.parts, List.filterMap_append, hplain]; rfl

/-- Localizing a tag replaces its attributes. -/
private theorem finds_localizeTag [Script.Parser] (h : tag.IsWritten)
    (hf : ∀ a ∈ tag.attributes, Finds (found a) (f a).text (a.localize scope)) :
    Finds (tag.attributes.flatMap found) (tag.map f).text (localizeTag scope tag.text) := by
  have hparts := finds_localizeParts hf
  rw [localizeTag]
  split
  · rename_i hskip
    have hopens := opensElement_text h
    have hhan : Text.hasHan tag.text = false := by simp_all [opensElement]
    -- Without Chinese the attributes would be left as they are as well.
    have hkept : Finds [] tag.text (localizeParts (Attribute.localize scope) tag.parts) := by
      have hsame (a : Attribute) (ha : a ∈ tag.attributes) :
          Finds [] (id a).text (a.localize scope) := by
        rw [← findAll_text h] at ha
        rw [Attribute.localize_of_not_hasHan (Bool.eq_false_iff.mpr fun hvalue => ?_)]
        · exact ⟨rfl, rfl⟩
        · have := hasHan_of_subset (mem_attributes ha) (hasHan_of_subset (value_subset a) hvalue)
          simp_all
      have hmap := finds_localizeParts hsame
      rwa [map_id, List.flatMap_eq_nil_iff.mpr fun _ _ => rfl] at hmap
    exact Extract.finds_pure.mpr
      ⟨hparts.1.symm.trans hkept.1, Except.ok.inj (hparts.2.symm.trans hkept.2)⟩
  · rwa [parts_text h]

private theorem finds_attributePass [Script.Parser] (h : tag.IsWritten) {ts : List Text}
    {out : Text} (hfinds : Finds ts out (localizeTag scope tag.text)) :
    Finds ts out (attributePass scope tag.text) := by
  rw [attributePass, tokens_text h, localizeTokens, if_pos rfl]
  refine Extract.finds_bind.mpr ⟨_, _, [], hfinds, ?_, (List.append_nil _).symm⟩
  exact Extract.finds_map.mpr ⟨[], ⟨rfl, rfl⟩, (List.append_nil _).symm⟩

end Localizing

end OpeningTag

namespace Attribute

/-- The attribute bound to the look-up of its value, if that holds Chinese. -/
def bound (scope : Scope) (a : Attribute) : Attribute :=
  if Text.hasHan a.value then
    { a with
      name := .scalar ':' :: a.name
      equals := "="
      value := scope.call a.innerQuote (Text.trim a.value) }
  else a

variable {a : Attribute} {scope : Scope}

/-- A static attribute is bound, and its value is found, trimmed. -/
private theorem finds_localize [Script.Parser]
    (hstatic : Text.hasHan a.value = true → isDynamic a.name = false) :
    Finds (if Text.hasHan a.value then [Text.trim a.value] else []) (a.bound scope).text
      (a.localize scope) := by
  rw [bound]
  split
  · rename_i hhan
    rw [Attribute.localize, hhan, if_neg (by simp), hstatic hhan, if_neg (by simp)]
    exact ⟨rfl, rfl⟩
  · rename_i hhan
    rw [localize_of_not_hasHan (by simpa using hhan)]
    exact ⟨rfl, rfl⟩

private theorem IsWritten.bind (h : scope.CanBind) (ha : a.IsWritten) :
    (a.bound scope).IsWritten := by
  rw [Attribute.bound]
  split
  · obtain ⟨q, -, hinner, hne⟩ := exists_other_quote ha.quote
    exact {
      space := ha.space
      name_ne := List.cons_ne_nil _ _
      name := List.forall_mem_cons.mpr ⟨by decide, ha.name⟩
      equals := ⟨[], [], rfl, rfl, rfl⟩
      quote := ha.quote
      value := by
        rw [hinner]
        exact Scope.not_mem_call ha.quote hne (fun hq => (h.ns _ hq).2 ha.quote)
          (fun hq => (h.common _ hq).2 ha.quote) (h.not_mem_function ha.quote)
          fun hq => ha.value (Text.trim_subset _ hq) }
  · exact ha

/-- A bound attribute is left as it is. -/
private theorem IsWritten.quiet_localize_bound (ha : a.IsWritten) (h : scope.CanBind)
    (hvalue : Text.hasHan a.value = true → a.value.isEncodable = true) :
    Quiet (a.bound scope).text ((a.bound scope).localize scope) := by
  rw [bound]
  split
  · rename_i hhan
    obtain ⟨q, hq, hinner, -⟩ := exists_other_quote ha.quote
    have hkey : (scope.common.keyFor scope.ns (Text.trim a.value)).isEncodable = true := by
      rw [h.isEncodable.keyFor, Text.isEncodable_trim, hvalue hhan]
    rw [localize_of_hasCall rfl]
    · exact ⟨rfl, rfl⟩
    · rw [hinner]
      exact Script.Binding.hasCall_of_isName h.function h.word hkey hq
  · rename_i hhan
    rw [localize_of_not_hasHan (by simpa using hhan)]
    exact ⟨rfl, rfl⟩

end Attribute

namespace OpeningTag

def bound (scope : Scope) (tag : OpeningTag) : OpeningTag :=
  tag.map (Attribute.bound scope)

/-- Attributes with Chinese are not bound yet, and can be encoded. -/
def IsStatic (tag : OpeningTag) : Prop :=
  ∀ a ∈ tag.attributes, Text.hasHan a.value = true →
    Attribute.isDynamic a.name = false ∧ a.value.isEncodable = true

instance (tag : OpeningTag) : Decidable tag.IsStatic :=
  inferInstanceAs (Decidable (∀ a ∈ tag.attributes, _ → _))

variable {scope : Scope} {tag : OpeningTag}

theorem IsWritten.bind (hscope : scope.CanBind) (h : tag.IsWritten) :
    (tag.bound scope).IsWritten where
  name := h.name
  items := by
    refine List.forall_mem_map.mpr fun i hi => ?_
    have hi := h.items i hi
    cases i with
    | bare space name => exact hi
    | valued space a => exact ⟨hi.1, hi.2.bind hscope⟩
  space := h.space

private theorem flatMap_ite {α β : Type} (p : α → Bool) (f : α → β) (as : List α) :
    (as.flatMap fun a => if p a then [f a] else []) = (as.filter p).map f := by
  induction as with
  | nil => rfl
  | cons a as ih =>
    rw [List.flatMap_cons, ih, List.filter_cons]
    split <;> rfl

theorem localizeTag_static [Script.Parser] (h : tag.IsWritten) (hstatic : tag.IsStatic) :
    Finds ((tag.attributes.filter fun a => Text.hasHan a.value).map fun a => Text.trim a.value)
      (tag.bound scope).text (localizeTag scope tag.text) := by
  have hlocal (a : Attribute) (ha : a ∈ tag.attributes) :
      Finds (if Text.hasHan a.value then [Text.trim a.value] else []) (a.bound scope).text
        (a.localize scope) :=
    Attribute.finds_localize fun hhan => (hstatic a ha hhan).1
  have hfinds := finds_localizeTag h hlocal
  rwa [flatMap_ite] at hfinds

theorem localizeTag_bound (hscope : scope.CanBind) (h : tag.IsWritten) (hstatic : tag.IsStatic) :
    Quiet (tag.bound scope).text (localizeTag scope (tag.bound scope).text) := by
  have hagain (b : Attribute) (hb : b ∈ (tag.bound scope).attributes) :
      Finds [] (id b).text (b.localize scope) := by
    rw [bound, attributes_map] at hb
    obtain ⟨a, ha, rfl⟩ := List.mem_map.mp hb
    exact (h.attribute ha).quiet_localize_bound hscope fun hhan => (hstatic a ha hhan).2
  have hfinds := finds_localizeTag (h.bind hscope) hagain
  rwa [map_id, List.flatMap_eq_nil_iff.mpr fun _ _ => rfl] at hfinds

end OpeningTag

/-- Localizing binds the static attributes of an opening tag whose values hold Chinese, each to the
look-up of its value in the other quotes, and keeps everything else. The tag stays one token, and
nothing is found in it again. -/
theorem attributePass_binds {scope : Scope} (hscope : scope.CanBind) {tag : OpeningTag}
    (htag : tag.IsWritten) (hstatic : ∀ a ∈ tag.attributes, Text.hasHan a.value = true →
      Attribute.isDynamic a.name = false ∧ a.value.isEncodable = true) :
    let out := (tag.bound scope).text
    Finds ((tag.attributes.filter fun a => Text.hasHan a.value).map fun a => Text.trim a.value) out
      (attributePass scope tag.text) ∧
    tokens out = [⟨.tag, out⟩] ∧ Quiet out (attributePass scope out) := by
  intro out
  have hbound := htag.bind hscope
  exact ⟨OpeningTag.finds_attributePass htag (OpeningTag.localizeTag_static htag hstatic),
    OpeningTag.tokens_text hbound,
    OpeningTag.finds_attributePass hbound (OpeningTag.localizeTag_bound hscope htag hstatic)⟩

/-- A value may hold what looks like an attribute, and the bracket that would close the tag. -/
theorem attributePass_binds_quoted :
    let scope : Scope := ⟨"test", .ofList [] "common", "$t"⟩
    let title : Attribute := ⟨.scalar ' ', "title", " = ", .scalar '\x27', " 中=> b=\x22文\x22 "⟩
    let tag : OpeningTag := ⟨"el-x",
      [.bare " " "v-else", .valued "\n" title,
        .valued "" ⟨.scalar ' ', ":a", "=", .scalar '\x22', "b"⟩], " ", true⟩
    let markup : Text := "<el-x v-else\n title = ' 中=> b=\x22文\x22 ' :a=\x22b\x22 />"
    let out : Text :=
      "<el-x v-else\n :title='$t(\x22test.中=> b=\\\x22文\\\x22\x22)' :a=\x22b\x22 />"
    scope.CanBind ∧ tag.IsWritten ∧ tag.text = markup ∧
      (∀ a ∈ tag.attributes, Text.hasHan a.value = true →
        Attribute.isDynamic a.name = false ∧ a.value.isEncodable = true) ∧
      Finds ["中=> b=\x22文\x22"] out (attributePass scope markup) ∧
      tokens out = [⟨.tag, out⟩] ∧ Quiet out (attributePass scope out) := by
  intro scope title tag markup out
  have hscope : scope.CanBind :=
    ⟨by decide, by decide, ⟨.scalar '$', "t", rfl, by decide, by decide⟩, by decide⟩
  have htitle : title.IsWritten :=
    ⟨rfl, by decide, by decide, ⟨" ", " ", rfl, rfl, rfl⟩, .inr rfl, by decide⟩
  have htag : tag.IsWritten := by
    refine ⟨⟨.scalar 'e', "l-x", rfl, by decide, by decide⟩, ?_, rfl⟩
    refine List.forall_mem_cons.mpr ⟨⟨by decide, rfl, by decide, by decide⟩, ?_⟩
    refine List.forall_mem_cons.mpr ⟨⟨rfl, htitle⟩, List.forall_mem_singleton.mpr ⟨rfl, ?_⟩⟩
    exact ⟨rfl, by decide, by decide, ⟨[], [], rfl, rfl, rfl⟩, .inl rfl, by decide⟩
  have htext : tag.text = markup := by
    refine .trans ?_ (Text.ofString_ofList _).symm
    decide +kernel
  have hout : (tag.bound scope).text = out := by
    refine .trans ?_ (Text.ofString_ofList _).symm
    decide +kernel
  have hstatic : ∀ a ∈ tag.attributes, Text.hasHan a.value = true →
      Attribute.isDynamic a.name = false ∧ a.value.isEncodable = true := by decide +kernel
  have hbinds := attributePass_binds hscope htag hstatic
  rw [htext, hout] at hbinds
  exact ⟨hscope, htag, htext, hstatic, hbinds⟩

end Markup
end LocaleLift
