import LocaleLift.Assoc
import LocaleLift.Markup.Token
import LocaleLift.Text.Case

/-! The blocks of a component: its template, its scripts and its styles. -/
namespace LocaleLift.Component

/-- The value of an attribute: a text, or nothing but its presence. -/
inductive AttributeValue where
  | text (t : Text)
  | present
  deriving DecidableEq, Repr

/-- Attributes in the order of their first mention. -/
abbrev Attributes := Assoc Text AttributeValue

private def isBareChar (c : CodePoint) : Bool :=
  c == .scalar '/' || (Markup.isNameChar c && c != .scalar '\x60')

private def value? (t : Text) : Option (Text × Nat) :=
  let before := t.takeWhile (·.isSpace)
  match t.drop before.length with
  | .scalar '=' :: t =>
    let after := t.takeWhile (·.isSpace)
    match t.drop after.length with
    | q :: t =>
      let skipped := before.length + after.length + 1
      if q = .scalar '\x22' || q = .scalar '\x27' then
        let value := t.takeWhile (· != q)
        if value.length = t.length then none else some (value, skipped + value.length + 2)
      else
        let value := (q :: t).takeWhile isBareChar
        if value.isEmpty then none else some (value, skipped + value.length)
    | [] => none
  | _ => none

/-- An attribute: a name, and a value in quotes or without. -/
def matchAttribute : Matcher (Text × AttributeValue) := fun c t =>
  if Markup.isNameChar c then
    let more := t.takeWhile Markup.isNameChar
    match value? (t.drop more.length) with
    | some (value, n) => some ((c :: more, .text value), more.length + n)
    | none => some ((c :: more, .present), more.length)
  else none

section Written

variable {c : CodePoint} {more before after : Text} (hc : Markup.isNameChar c = true)
  (hmore : ∀ d ∈ more, Markup.isNameChar d = true)

private theorem isBareChar_iff {c : CodePoint} :
    isBareChar c = true ↔ c.isSpace = false ∧ c ∉ ("\x22'<>=\x60" : Text) := by
  by_cases hslash : c = .scalar '/'
  · subst hslash
    decide
  · simp [isBareChar, Markup.isNameChar, Text.ofString, hslash, and_assoc]

private theorem value?_blank {s t : Text} (hs : Text.isBlank s = true)
    (ht : ∀ d ∈ t.head?, d.isSpace = false ∧ d ≠ .scalar '=') : value? (s ++ t) = none := by
  have hspace := Text.takeWhile_append (List.all_eq_true.mp hs) fun d hd => (ht d hd).1
  simp only [value?, hspace, List.drop_left]
  split
  · exact absurd rfl (ht _ rfl).2
  · rfl

private theorem value?_equals {q : CodePoint} {t : Text} (hbefore : Text.isBlank before = true)
    (hafter : Text.isBlank after = true) (hq : q.isSpace = false) :
    value? (before ++ .scalar '=' :: (after ++ q :: t)) =
      let skipped := before.length + after.length + 1
      if q = .scalar '\x22' || q = .scalar '\x27' then
        let value := t.takeWhile (· != q)
        if value.length = t.length then none else some (value, skipped + value.length + 2)
      else
        let value := (q :: t).takeWhile isBareChar
        if value.isEmpty then none else some (value, skipped + value.length) := by
  have hfirst := Text.takeWhile_append (t := .scalar '=' :: (after ++ q :: t))
    (List.all_eq_true.mp hbefore) (by rintro _ ⟨⟩; rfl)
  have hsecond := Text.takeWhile_append (t := q :: t) (List.all_eq_true.mp hafter)
    (by rintro _ ⟨⟩; exact hq)
  simp only [value?, hfirst, hsecond, List.drop_left]

private theorem head?_before (hbefore : Text.isBlank before = true) (t : Text) :
    ∀ d ∈ (before ++ .scalar '=' :: t).head?, Markup.isNameChar d = false := by
  cases before with
  | nil =>
    rintro _ ⟨⟩
    rfl
  | cons d before =>
    rintro _ ⟨⟩
    exact Markup.isNameChar_of_isSpace (List.all_eq_true.mp hbefore _ (List.mem_cons_self ..))

include hc hmore

private theorem matchAttribute_eq {t : Text} (ht : ∀ d ∈ t.head?, Markup.isNameChar d = false) :
    matchAttribute c (more ++ t) =
      match value? t with
      | some (value, n) => some ((c :: more, .text value), more.length + n)
      | none => some ((c :: more, .present), more.length) := by
  have hname := Text.takeWhile_append hmore ht
  simp only [matchAttribute, if_pos hc, hname, List.drop_left]

/-- A name stands for itself if neither more of it follows nor, behind white space, an equals
sign. -/
theorem matchAttribute_present {s t : Text} (hs : Text.isBlank s = true)
    (hhead : ∀ d ∈ (s ++ t).head?, Markup.isNameChar d = false)
    (ht : ∀ d ∈ t.head?, d.isSpace = false ∧ d ≠ .scalar '=') :
    matchAttribute c (more ++ (s ++ t)) = some ((c :: more, .present), more.length) := by
  rw [matchAttribute_eq hc hmore hhead, value?_blank hs ht]

/-- A value in quotes reaches up to the next quote of its kind. -/
theorem matchAttribute_quoted {q : CodePoint} {value : Text} (hbefore : Text.isBlank before = true)
    (hafter : Text.isBlank after = true) (hq : q = .scalar '\x22' ∨ q = .scalar '\x27')
    (hvalue : q ∉ value) (t : Text) :
    matchAttribute c (more ++ (before ++ .scalar '=' :: (after ++ q :: (value ++ q :: t)))) =
      some ((c :: more, .text value),
        more.length + (before.length + after.length + 1 + value.length + 2)) := by
  have hspace : q.isSpace = false := by
    rcases hq with rfl | rfl <;> rfl
  have htake : (value ++ q :: t).takeWhile (· != q) = value := by
    refine Text.takeWhile_append (fun d hd => ?_) (by rintro _ ⟨⟩; simp)
    simpa using fun he : d = q => hvalue (he ▸ hd)
  rw [matchAttribute_eq hc hmore (head?_before hbefore _), value?_equals hbefore hafter hspace]
  dsimp only
  rw [if_pos (by simpa using hq), htake, if_neg (by simp)]

/-- A value without quotes reaches up to white space. -/
theorem matchAttribute_bare {value t : Text} (hbefore : Text.isBlank before = true)
    (hafter : Text.isBlank after = true) (hne : value ≠ [])
    (hvalue : ∀ d ∈ value, d.isSpace = false ∧ d ∉ ("\x22'<>=\x60" : Text))
    (ht : ∀ d ∈ t.head?, d.isSpace = true) :
    matchAttribute c (more ++ (before ++ .scalar '=' :: (after ++ (value ++ t)))) =
      some ((c :: more, .text value),
        more.length + (before.length + after.length + 1 + value.length)) := by
  obtain ⟨q, rest, rfl⟩ := List.exists_cons_of_ne_nil hne
  obtain ⟨hspace, hmark⟩ := hvalue q (List.mem_cons_self ..)
  have hbare : ∀ d ∈ q :: rest, isBareChar d = true := fun d hd => isBareChar_iff.mpr (hvalue d hd)
  have htake : (q :: rest ++ t).takeWhile isBareChar = q :: rest :=
    Text.takeWhile_append hbare fun d hd => Bool.eq_false_iff.mpr fun hd' => by
      have := (isBareChar_iff.mp hd').1
      rw [ht d hd] at this
      cases this
  have hquote : ¬ (q = .scalar '\x22' || q = .scalar '\x27') = true := by
    intro hq
    simp only [Bool.or_eq_true, decide_eq_true_eq] at hq
    rcases hq with rfl | rfl
    · exact hmark (by decide)
    · exact hmark (by decide)
  rw [matchAttribute_eq hc hmore (head?_before hbefore _), List.cons_append,
    value?_equals hbefore hafter hspace]
  dsimp only
  rw [if_neg hquote, ← List.cons_append, htake]
  rfl

end Written

private def dropSlashes (t : Text) : Text :=
  (t.reverse.dropWhile (· == .scalar '/')).reverse

/-- The attributes written in a tag, slashes at its end apart. The last mention of a name counts. -/
def parseAttributes (raw : Text) : Attributes :=
  Assoc.ofPairs (Text.findAll matchAttribute (dropSlashes raw))

/-- No attribute is looked for in slashes at the end. -/
theorem parseAttributes_slashes {t : Text} (h : t.getLast? ≠ some (.scalar '/')) (n : Nat) :
    parseAttributes (t ++ List.replicate n (.scalar '/')) =
      Assoc.ofPairs (Text.findAll matchAttribute t) := by
  have hreverse : t.reverse.dropWhile (· == .scalar '/') = t.reverse := by
    cases hr : t.reverse with
    | nil => rfl
    | cons c r =>
      have hc : c ≠ .scalar '/' := by
        rintro rfl
        exact h (by rw [← List.head?_reverse, hr]; rfl)
      exact List.dropWhile_cons_of_neg (by simpa using hc)
  have hslashes : dropSlashes (t ++ List.replicate n (.scalar '/')) = t := by
    rw [dropSlashes, List.reverse_append, List.reverse_replicate,
      List.dropWhile_append_of_pos (by simp), hreverse, List.reverse_reverse]
  rw [parseAttributes, hslashes]

/-- A block of a component: what kind of block its tag makes it, its attributes, and its content
with the range it takes in the component. -/
structure Block where
  kind : Text
  attributes : Attributes
  content : Text
  start : Nat
  stop : Nat
  deriving DecidableEq, Repr

namespace Block

/-- The language of the block in lower case, if one is named. -/
def lang (b : Block) : Option Text :=
  match Assoc.get? b.attributes "lang" with
  | some (.text t) => some (Text.toLower t)
  | _ => none

/-- Whether the block is marked as the set-up of the component. -/
def isSetup (b : Block) : Bool :=
  (Assoc.get? b.attributes "setup").isSome

end Block

/-- A letter for comparing names of tags: without case, the long s as an s, and the i with and
without its dot as one. -/
def foldLetter (c : CodePoint) : CodePoint :=
  if c.inRange 0x41 0x5A then c.toLower.headD c
  else if c.toNat = 0x17F then .scalar 's'
  else if c.inRange 0x130 0x131 then .scalar 'i'
  else c

def dropWord? : Text → Text → Option Text
  | [], t => some t
  | _ :: _, [] => none
  | w :: ws, c :: t => if foldLetter w = foldLetter c then dropWord? ws t else none

/-- What stands in a tag up to its closing bracket, which quotes may hide. -/
def tagBody? : Option CodePoint → Text → Option Text
  | _, [] => none
  | some q, c :: t => (tagBody? (if c = q then none else some q) t).map (c :: ·)
  | none, c :: t =>
    if c = .scalar '>' then some []
    else
      (tagBody? (if c = .scalar '\x22' || c = .scalar '\x27' then some c else none) t).map (c :: ·)

/-- A tag of one of several names: the name as it is written, the body, and how much of the text
they take with the closing bracket. -/
def tag? (names : List Text) (t : Text) : Option (Text × Text × Nat) := do
  let rest ← names.findSome? fun n => dropWord? n t
  let next ← rest.head?
  if !(next.isSpace || next = .scalar '/' || next = .scalar '>') then none
  let body ← tagBody? none rest
  let name := t.take (t.length - rest.length)
  return (name, body, name.length + body.length + 1)

def isSelfClosing (body : Text) : Bool :=
  (Text.trimEnd body).getLast? == some (.scalar '/')

/-- How much a comment takes after its opening bracket, if it is closed. -/
def comment? (t : Text) : Option Nat :=
  match Text.dropStart? "!--" t with
  | none => none
  | some rest => (Text.splitAt? "-->" rest).map fun (before, _) => before.length + 6

/-- What bears on the nesting of templates. -/
inductive Nesting where
  | opening
  | closing
  | neutral
  deriving DecidableEq, Repr

def matchTemplateTag : Matcher Nesting := fun c t =>
  if c = .scalar '<' then
    match comment? t with
    | some n => some (.neutral, n)
    | none =>
      match t with
      | .scalar '/' :: t => (tag? ["template"] t).map fun (_, _, n) => (.closing, n + 1)
      | t => (tag? ["template"] t).map fun (_, body, n) =>
          (if isSelfClosing body then .neutral else .opening, n)
  else none

/-- How much stands before the tag that closes a template, and up to its end, where the template
has been opened so many times and so much has been passed. -/
def templateEnd (passed : Nat) : Nat → List (Part Nesting) → Nat × Nat
  | _, [] => (passed, passed)
  | 0, _ => (passed, passed)
  | depth + 1, p :: ps =>
    let next := passed + p.text.length
    match p.found? with
    | some .closing => if depth = 0 then (passed, next) else templateEnd next depth ps
    | some .opening => templateEnd next (depth + 2) ps
    | _ => templateEnd next (depth + 1) ps

def matchClosing (kind : Text) : Matcher Unit := fun c t =>
  if c = .scalar '<' then do
    let .scalar '/' :: t := t | none
    let rest ← dropWord? kind t
    let space := rest.takeWhile (·.isSpace)
    if (rest.drop space.length).head? = some (.scalar '>') then
      some ((), t.length - rest.length + space.length + 2)
    else none
  else none

/-- How much stands before the tag that closes a script or a style, and up to its end. -/
def plainEnd (passed : Nat) : List (Part Unit) → Nat × Nat
  | [] => (passed, passed)
  | p :: ps =>
    let next := passed + p.text.length
    if p.found?.isSome then (passed, next) else plainEnd next ps

/-- What is found at the top of a component. -/
inductive Finding where
  /-- Something that is passed over. -/
  | skipped
  /-- A block, with the offset of its content and its length. -/
  | block (kind body content : Text) (offset : Nat)
  deriving DecidableEq, Repr

/-- A block with all its content, a tag that closes itself, or a comment. A block that is not
closed reaches to the end. -/
def matchBlock : Matcher Finding := fun c t =>
  if c = .scalar '<' then
    match comment? t with
    | some n => some (.skipped, n)
    | none =>
      (tag? ["template", "script", "style"] t).map fun (name, body, n) =>
        if isSelfClosing body then (.skipped, n)
        else
          let kind := Text.toLower name
          let rest := t.drop n
          let (inside, whole) :=
            if kind = "template" then templateEnd 0 1 (Text.parts matchTemplateTag rest)
            else plainEnd 0 (Text.parts (matchClosing kind) rest)
          (.block kind body (rest.take inside) (n + 1), n + whole)
  else none

/-- The blocks among parts of a component, where so much has been passed, each with the offset of
its tag. -/
def blocksOf (passed : Nat) : List (Part Finding) → List (Nat × Block)
  | [] => []
  | p :: ps =>
    let rest := blocksOf (passed + p.text.length) ps
    match p with
    | .found (.block kind body content offset) _ =>
      let start := passed + offset
      (passed, ⟨kind, parseAttributes body, content, start, start + content.length⟩) :: rest
    | _ => rest

/-- The blocks of a component. -/
structure Layout where
  template : Option Block
  scripts : List Block
  styles : List Block
  /-- The offsets of templates after the first one. -/
  extraTemplates : List Nat
  deriving DecidableEq, Repr

def Layout.scriptSetup (l : Layout) : Option Block :=
  l.scripts.find? Block.isSetup

/-- Find the blocks of a component. Every block that is neither a template nor a script counts as
a style. -/
def layout (text : Text) : Layout :=
  let blocks := blocksOf 0 (Text.parts matchBlock text)
  let templates := blocks.filter fun (_, b) => b.kind == "template"
  let scripts := blocks.filter fun (_, b) => b.kind == "script"
  let styles := blocks.filter fun (_, b) => b.kind != "template" && b.kind != "script"
  ⟨templates.head?.map (·.2), scripts.map (·.2), styles.map (·.2), (templates.drop 1).map (·.1)⟩

end LocaleLift.Component
