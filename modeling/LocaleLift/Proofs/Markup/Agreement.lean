import LocaleLift.Proofs.Markup.Strings
import LocaleLift.Proofs.Script.Draft

/-! An interpolation is localized as the strings of its expression are, if what is written before a
string tells what it is in the tree. -/
namespace LocaleLift

open Extract (Finds)
open Script (Node Occurrence calledName? isLookupCall)
open Script.Binding (opening closing enclose)
open Utf8 (Boundary)

namespace Script

/-- Between the name of what is called and an offset stands nothing but a parenthesis. -/
def Node.OpensAt (source : Text) (offset : Nat) (call : Node) : Prop :=
  ∃ name ∈ (call.child? .function).bind calledName?,
    Text.trimEnd (Utf8.slice name.stop offset source) = "("

namespace Occurrence

/-- A string is the first argument of a call of the look-up function. -/
def IsFirstArgument (function source : Text) (o : Occurrence) : Prop :=
  o.IsArgument function source ∧ ∃ parent ∈ o.2.head?, parent.children.head? = some o.1

/-- The call around an argument opens at an offset. -/
def OpensAt (source : Text) (offset : Nat) (o : Occurrence) : Prop :=
  ∃ call ∈ o.2[1]?, call.OpensAt source offset

instance (source : Text) (offset : Nat) (call : Node) : Decidable (call.OpensAt source offset) :=
  inferInstanceAs (Decidable (∃ _ ∈ _, _))

instance (function source : Text) (o : Occurrence) : Decidable (o.IsFirstArgument function source) :=
  inferInstanceAs (Decidable (_ ∧ ∃ _ ∈ _, _))

instance (source : Text) (offset : Nat) (o : Occurrence) : Decidable (o.OpensAt source offset) :=
  inferInstanceAs (Decidable (∃ _ ∈ _, _))

end Occurrence

section Opens

variable {source function : Text} {call : Node} {a b : Nat}

private theorem parsed_calledName {name : Node} (hcall : call.All (Node.Parsed source))
    (hname : name ∈ (call.child? .function).bind calledName?) : name.Parsed source := by
  obtain ⟨callee, hcallee, hname⟩ := Option.bind_eq_some_iff.mp hname
  have hcallee := hcall.child (List.mem_of_find?_eq_some hcallee)
  rw [calledName?] at hname
  split at hname
  · exact (hcallee.child (List.mem_of_find?_eq_some hname)).root
  · obtain rfl := Option.some.inj hname
    exact hcallee.root

/-- Where a call opens, its name, a parenthesis and white space stand before. -/
private theorem exists_of_opensAt {p : Text} (hcall : call.All (Node.Parsed source))
    (h : call.OpensAt source (Utf8.size p)) (hp : p <+: source) :
    ∃ name ∈ (call.child? .function).bind calledName?, ∃ s space,
      p = s ++ ("(" ++ space) ∧ Text.isBlank space = true ∧ Utf8.size s = name.stop := by
  obtain ⟨name, hname, htrim⟩ := h
  have hstop : name.stop ≤ Utf8.size p := by
    refine Nat.le_of_not_lt fun hlt => ?_
    rw [Utf8.slice_eq_nil (Nat.le_of_lt hlt)] at htrim
    exact absurd htrim (by decide)
  obtain ⟨rest, rfl⟩ := hp
  obtain ⟨s, w, rfl, hs⟩ := (parsed_calledName hcall hname).stop.of_append hstop
  rw [← hs, Utf8.slice_append] at htrim
  obtain ⟨space, hw, hspace⟩ := Text.exists_trimEnd w
  rw [htrim] at hw
  exact ⟨name, hname, s, space, by rw [← hw], hspace, hs⟩

/-- Behind a quote that a call opens at, it does not open again. -/
private theorem size_le_of_opensAt {p r rest : Text} {q : CodePoint}
    (hcall : call.All (Node.Parsed source)) (hp : call.OpensAt source (Utf8.size p))
    (hr : call.OpensAt source (Utf8.size r)) (hsource : source = p ++ q :: rest) (hq : q.IsQuote)
    (hfront : r <+: source) : Utf8.size r ≤ Utf8.size p := by
  have hpfront : p <+: source := ⟨_, hsource.symm⟩
  obtain ⟨name, hname, s, space, hps, -, hs⟩ := exists_of_opensAt hcall hp hpfront
  obtain ⟨name', hname', s', space', hrs, hspace, hs'⟩ := exists_of_opensAt hcall hr hfront
  obtain rfl := Option.some.inj (hname.symm.trans hname')
  refine Nat.le_of_not_lt fun hlt => ?_
  obtain ⟨more, rfl⟩ := Utf8.prefix_of_size_le hpfront hfront (Nat.le_of_lt hlt)
  obtain ⟨after, hafter⟩ := hfront
  rw [hsource, List.append_assoc] at hafter
  cases more with
  | nil => rw [List.append_nil] at hlt; exact Nat.lt_irrefl _ hlt
  | cons c more =>
    obtain ⟨rfl, -⟩ := List.cons.inj (List.append_cancel_left hafter)
    have hsame : s <+: s' := Utf8.prefix_of_size_le (u := p ++ c :: more)
      ⟨"(" ++ space ++ c :: more, by rw [hps]; simp⟩ ⟨_, hrs.symm⟩ (by rw [hs, hs'])
    obtain ⟨u, rfl⟩ := hsame
    obtain rfl : u = [] := Utf8.eq_nil_of_size (by rw [Utf8.size_append] at hs'; omega)
    rw [hps, List.append_nil, List.append_assoc] at hrs
    have hmem : c ∈ space' := by
      have := List.append_cancel_left hrs
      rw [List.append_assoc] at this
      rw [← List.append_cancel_left this]
      exact List.mem_append_right _ (List.mem_cons_self ..)
    have hblank := List.all_eq_true.mp hspace c hmem
    rcases hq with rfl | rfl <;> exact absurd hblank (by decide)

/-- Where a call of the look-up function opens, its name and a parenthesis stand before. -/
private theorem isPreceded_of_opensAt {p : Text} (hcall : call.All (Node.Parsed source))
    (hlookup : isLookupCall source function call = true)
    (h : call.OpensAt source (Utf8.size p)) (hp : p <+: source) : Markup.IsPreceded function p := by
  obtain ⟨name, hname, s, space, rfl, hspace, hs⟩ := exists_of_opensAt hcall h hp
  obtain ⟨rest, rfl⟩ := hp
  have htext : name.text (s ++ ("(" ++ space) ++ rest) = function := by
    rw [isLookupCall, hname, Bool.and_eq_true, Option.any_some] at hlookup
    exact beq_iff_eq.mp hlookup.2
  have hparsed := parsed_calledName hcall hname
  have hstart := hparsed.start
  rw [List.append_assoc] at hstart
  obtain ⟨t, u, rfl, ht⟩ := hstart.of_append (hs ▸ hparsed.ordered.le)
  rw [Node.text, ← ht, ← hs, List.append_assoc (t ++ u), Utf8.slice_append] at htext
  exact ⟨t, space, by rw [htext]; simp only [List.append_assoc], hspace⟩

end Opens

end Script

namespace Markup

/-- A call does not begin in front of an expression: a space ends what stands there, and there is no
parenthesis in it. -/
private theorem isPreceded_of_enclosed {function before : Text}
    (hfunction : ∀ c ∈ function, c.isSpace = false) (h : IsPreceded function (opening ++ before)) :
    IsPreceded function before := by
  obtain ⟨s, space, h, hspace⟩ := h
  rw [List.append_assoc] at h
  rcases List.append_eq_append_iff.mp h with ⟨u, rfl, hbefore⟩ | ⟨u, hopening, hrest⟩
  · exact ⟨u, space, by rw [hbefore, List.append_assoc], hspace⟩
  · rcases List.eq_nil_or_concat u with rfl | ⟨u, c, rfl⟩
    · exact ⟨[], space, by rw [List.nil_append, List.append_assoc]; exact hrest.symm, hspace⟩
    · rw [List.concat_eq_append] at hopening hrest
      have hlast : opening.getLast? = some c := by
        rw [hopening, ← List.append_assoc, List.getLast?_concat]
      obtain rfl : CodePoint.scalar ' ' = c := Option.some.inj hlast
      have hnone : CodePoint.scalar ' ' ∉ function := fun hmem => absurd (hfunction _ hmem) (by decide)
      rcases List.append_eq_append_iff.mp hrest with ⟨v, hfront, hbracket⟩ | ⟨v, hname, -⟩
      · cases v with
        | nil => exact absurd (by rw [← List.append_nil function, ← hfront]; simp) hnone
        | cons c v =>
          obtain ⟨rfl, -⟩ := List.cons.inj hbracket
          rw [hfront] at hopening
          exact absurd (hopening ▸ List.mem_append_right s (List.mem_append_right function
            (List.mem_cons_self ..))) (show CodePoint.scalar '(' ∉ opening by decide)
      · exact absurd (by rw [hname]; simp) hnone

/-- What is written before the strings of an expression tells what they are in its tree. -/
structure IsStraight (function source : Text) (os : List Occurrence) : Prop where
  /-- Each has a value, with Chinese in it exactly if there is some in what is written. -/
  spelled : ∀ o ∈ os, ∃ value ∈ (Literal.cook (o.1.body source)).toOption,
    Text.hasHan value = Text.hasHan (o.1.body source)
  /-- With Chinese, none is a key, another name or a type. -/
  values : ∀ o ∈ os, Text.hasHan (o.1.body source) = true → ¬ o.IsNoValue
  /-- With Chinese, none is a later argument of the look-up function. -/
  first : ∀ o ∈ os, Text.hasHan (o.1.body source) = true → o.IsArgument function source →
    o.IsFirstArgument function source
  /-- As its first argument, they stand right behind its name and a parenthesis. -/
  opened : ∀ o ∈ os, o.IsFirstArgument function source → o.OpensAt source o.1.start
  /-- No longer name ends in that of the look-up function where this and a parenthesis stand before
  a string with Chinese: there is a call of it, with a string as its first argument. -/
  called : ∀ o ∈ os, Text.hasHan (o.1.body source) = true →
    opensCall function (Utf8.slice (Utf8.size opening) o.1.start source) = true →
      ∃ p ∈ os, p.IsFirstArgument function source ∧ p.OpensAt source o.1.start

instance (function source : Text) (os : List Occurrence) :
    Decidable (IsStraight function source os) :=
  decidable_of_iff
    ((∀ o ∈ os, ∃ value ∈ (Literal.cook (o.1.body source)).toOption,
        Text.hasHan value = Text.hasHan (o.1.body source)) ∧
      (∀ o ∈ os, Text.hasHan (o.1.body source) = true → ¬ o.IsNoValue) ∧
      (∀ o ∈ os, Text.hasHan (o.1.body source) = true → o.IsArgument function source →
        o.IsFirstArgument function source) ∧
      (∀ o ∈ os, o.IsFirstArgument function source → o.OpensAt source o.1.start) ∧
      ∀ o ∈ os, Text.hasHan (o.1.body source) = true →
        opensCall function (Utf8.slice (Utf8.size opening) o.1.start source) = true →
          ∃ p ∈ os, p.IsFirstArgument function source ∧ p.OpensAt source o.1.start)
    ⟨fun ⟨h₁, h₂, h₃, h₄, h₅⟩ => ⟨h₁, h₂, h₃, h₄, h₅⟩,
      fun ⟨h₁, h₂, h₃, h₄, h₅⟩ => ⟨h₁, h₂, h₃, h₄, h₅⟩⟩

variable {scope : Scope}

section Straight

variable [Script.Parser] [Script.Parser.IsSound] {expression : Text} {value : Node} {o : Occurrence}
  (hparse : Script.Binding.parse? expression = some value)
  (hstraight : IsStraight scope.function (enclose expression)
    (Script.literals (style scope) [] value))
  (ho : o ∈ Script.literals (style scope) [] value)

include hparse ho

private theorem read_of_mem : o.1.kind = .string ∧ o.1.Read False (enclose expression) ∧
    ∀ m ∈ o.2, m.All (Node.Parsed (enclose expression)) := by
  have honly : (style scope).OnlyStrings := ⟨rfl, rfl⟩
  have hvalue := (Script.Binding.parse?_read hparse).all
  obtain ⟨hk, hread, habove⟩ := honly.of_mem hvalue (List.forall_mem_nil _) ho
  exact ⟨hk, hread.root, fun m hm => (habove m hm).imp fun _ h => h.toParsed⟩

private theorem lt_of_mem : o.1.start < o.1.stop := by
  obtain ⟨hk, hread, -⟩ := read_of_mem hparse ho
  obtain ⟨q, body, -, htext⟩ := hread.literal hk
  exact Node.lt_of_text_ne_nil (enclose expression) (htext ▸ List.cons_ne_nil q _)

include hstraight

/-- The look-up function and a parenthesis stand before an argument of it. -/
private theorem opensCall_of_isArgument
    (hfunction : ∀ c ∈ scope.function, c.isSpace = false)
    (hhan : Text.hasHan (o.1.body (enclose expression)) = true)
    (h : o.IsArgument scope.function (enclose expression)) : opensCall scope.function
      (Utf8.slice (Utf8.size opening) o.1.start (enclose expression)) = true := by
  obtain ⟨hk, hread, habove⟩ := read_of_mem hparse ho
  obtain ⟨before, q, after, -, hsource, hstart⟩ := exists_before hread hk
  obtain ⟨call, hcall, hopens⟩ := hstraight.opened o ho (hstraight.first o ho hhan h)
  obtain ⟨-, call', hcall', hlookup⟩ := h
  obtain rfl := Option.some.inj (hcall.symm.trans hcall')
  have hfront : opening ++ before <+: enclose expression := ⟨_, hsource.symm⟩
  rw [← hstart] at hopens
  have hpreceded := Script.isPreceded_of_opensAt (habove call (List.mem_of_getElem? hcall)) hlookup
    hopens hfront
  have hslice : Utf8.slice (Utf8.size opening) o.1.start (enclose expression) = before := by
    rw [← hstart, hsource, Utf8.slice_append]
  rw [hslice]
  exact opensCall_iff.mpr (isPreceded_of_enclosed hfunction hpreceded)

/-- A string behind the look-up function and a parenthesis is an argument of it. -/
private theorem isArgument_of_opensCall
    (hhan : Text.hasHan (o.1.body (enclose expression)) = true)
    (h : opensCall scope.function
      (Utf8.slice (Utf8.size opening) o.1.start (enclose expression)) = true) :
    o.IsArgument scope.function (enclose expression) := by
  obtain ⟨hk, hread, -⟩ := read_of_mem hparse ho
  obtain ⟨before, q, after, hq, hsource, hstart⟩ := exists_before hread hk
  obtain ⟨p, hp, hfirst, call, hcall, hopens⟩ := hstraight.called o ho hhan h
  obtain ⟨call', hcall', hopens'⟩ := hstraight.opened p hp hfirst
  obtain rfl := Option.some.inj (hcall.symm.trans hcall')
  obtain ⟨hkp, hreadp, habovep⟩ := read_of_mem hparse hp
  obtain ⟨before', q', after', hq', hsource', hstart'⟩ := exists_before hreadp hkp
  have hcallp := habovep call (List.mem_of_getElem? hcall)
  rw [← hstart] at hopens
  rw [← hstart'] at hopens'
  have hsame : p.1.start = o.1.start := by
    rw [← hstart, ← hstart']
    exact Nat.le_antisymm
      (Script.size_le_of_opensAt hcallp hopens hopens' hsource hq ⟨_, hsource'.symm⟩)
      (Script.size_le_of_opensAt hcallp hopens' hopens hsource' hq' ⟨_, hsource.symm⟩)
  have hordered : Node.Ordered value.start value.stop
      ((Script.literals (style scope) [] value).map Prod.fst) :=
    Script.Style.OnlyStrings.ordered ⟨rfl, rfl⟩
      ((Script.Binding.parse?_read hparse).imp fun _ h => h.ordered)
  obtain rfl := hordered.eq_of_start hp ho hsame (lt_of_mem hparse hp) (lt_of_mem hparse ho)
  exact hfirst.1

/-- Both rules decide alike on each string of such an expression. -/
private theorem isDecidedAlike
    (hfunction : ∀ c ∈ scope.function, c.isSpace = false) :
    IsDecidedAlike scope expression o := by
  obtain ⟨v, hv, hspelled⟩ := hstraight.spelled o ho
  have hcook : Literal.cook (o.1.body (enclose expression)) = .ok v := by
    cases hcook : Literal.cook (o.1.body (enclose expression)) with
    | error e => rw [hcook] at hv; cases hv
    | ok w => rw [hcook] at hv; exact congrArg Except.ok (Option.some.inj hv)
  have hchild := (Script.Occurrence.isChild_of_mem
    ((Script.Binding.parse?_parsed hparse).imp fun _ h => h.wellFormed)
    (fun _ h => by cases h) (Script.mem_literals ho).1).1
  refine ⟨⟨v, hcook⟩, ?_⟩
  rw [Script.Occurrence.isReplaced_iff hcook, IsReplaced, hspelled]
  refine and_congr_right fun hhan => ?_
  rw [← Bool.not_eq_true, ← Bool.not_eq_true,
    Script.Occurrence.isFixed_iff hchild _ (lt_of_mem hparse ho)]
  refine not_congr ⟨fun h => ?_, fun h => .inl ?_⟩
  · exact opensCall_of_isArgument hparse hstraight ho hfunction hhan
      (h.resolve_right (hstraight.values o ho hhan))
  · exact isArgument_of_opensCall hparse hstraight ho hhan h

end Straight

/-- The first closing pair of an expression in braces ends where the expression does, or one code
point before. -/
private theorem exists_inside {expression : Text} (h : Unclosed expression) :
    ∃ inside tail, expression = inside ++ tail ∧ (tail = [] ∨ tail = "\x7d") ∧
      Unclosed (inside ++ "\x7d") := by
  rcases List.eq_nil_or_concat expression with rfl | ⟨t, c, rfl⟩
  · exact ⟨[], [], rfl, .inl rfl, by decide⟩
  · rw [List.concat_eq_append] at h ⊢
    by_cases hc : c = .scalar '\x7d'
    · subst hc
      exact ⟨t, "\x7d", rfl, .inr rfl, h⟩
    · refine ⟨t ++ [c], [], (List.append_nil _).symm, .inl rfl, ?_⟩
      refine unclosed_append.mpr ⟨h, by decide, fun hlast => hc ?_⟩
      rw [List.getLast?_concat] at hlast
      exact Option.some.inj hlast.1

private theorem tokens_inline {s : Text} (hne : s ≠ []) (h : Inline s) :
    tokens s = [⟨.text, s⟩] := by
  have hlaid : Laid [⟨.text, s⟩] := .words hne h nofun .nil
  have htokens := hlaid.tokens_eq
  rwa [List.flatMap_singleton] at htokens

private theorem finds_interpolationPass {inside tail new : Text} {ts : List Text}
    (hinside : Unclosed (inside ++ "\x7d")) (htail : tail = [] ∨ tail = "\x7d")
    (h : Finds ts new (localizeLiterals scope [] (Text.parts matchLiteral inside))) :
    Finds ts ("\x7b\x7b" ++ new ++ "\x7d\x7d" ++ tail)
      (interpolationPass scope ("\x7b\x7b" ++ inside ++ "\x7d\x7d" ++ tail)) := by
  have hinline : Inline ("\x7b\x7b" ++ inside ++ "\x7d\x7d" ++ tail) := by
    refine .interpolation ⟨inside, rfl, hinside⟩ ?_
    rcases htail with rfl | rfl
    · exact .nil
    · exact .plain (by decide) (by decide) .nil
  have hmatch : matchInterpolation (.scalar '\x7b')
      (.scalar '\x7b' :: (inside ++ ("\x7d\x7d" : Text)) ++ tail) =
        some (inside, (.scalar '\x7b' :: (inside ++ ("\x7d\x7d" : Text))).length) :=
    matchInterpolation_eq_some.mpr ⟨rfl, inside ++ "\x7d\x7d" ++ tail, tail, rfl,
      (Text.splitAt?_eq_some_iff (by decide)).mpr ⟨rfl, hinside⟩, by simp [Text.ofString]⟩
  have hparts : Text.parts matchInterpolation ("\x7b\x7b" ++ inside ++ "\x7d\x7d" ++ tail) =
      .found inside ("\x7b\x7b" ++ inside ++ "\x7d\x7d") :: Text.parts matchInterpolation tail :=
    Text.parts_found hmatch
  have hrest : Finds [] tail
      (localizeParts (localizeInterpolation scope) (Text.parts matchInterpolation tail)) := by
    rcases htail with rfl | rfl <;> exact ⟨rfl, rfl⟩
  have hinterpolation : Finds ts ("\x7b\x7b" ++ new ++ "\x7d\x7d")
      (localizeInterpolation scope inside) :=
    Extract.finds_map.mpr ⟨new, h, rfl⟩
  have hchunk : Finds ts ("\x7b\x7b" ++ new ++ "\x7d\x7d" ++ tail)
      (localizeInterpolations scope ("\x7b\x7b" ++ inside ++ "\x7d\x7d" ++ tail)) := by
    refine finds_localizeInterpolations ?_
    rw [hparts]
    exact Extract.finds_bind.mpr ⟨ts, _, [], hinterpolation,
      Extract.finds_map.mpr ⟨tail, hrest, rfl⟩, (List.append_nil ts).symm⟩
  rw [interpolationPass, tokens_inline (by simp [Text.ofString]) hinline]
  exact Extract.finds_bind.mpr ⟨ts, _, [], hchunk, ⟨rfl, by simp [localizeTokens]⟩,
    (List.append_nil ts).symm⟩

end Markup
end LocaleLift
