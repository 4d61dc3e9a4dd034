import LocaleLift.Script.Binding
import LocaleLift.Proofs.Script.Match

/-! Following the grammar forwards over the beginning and the end of an expression: one that begins
with a name or with a literal, before a parenthesis that closes or a semicolon. -/
namespace LocaleLift.Script

open Rule

namespace Lexeme

/-- Whether a mark begins with one of the given characters. -/
def opensWith (marks m : Text) : Bool :=
  m.head?.any fun c => marks.contains c

/-- No space, no comment and none of the given marks stands at the start of a text. -/
structure Free (marks t : Text) : Prop where
  gap : gap t = 0
  head : ∀ c ∈ t.head?, c ∉ marks

variable {marks t : Text}

theorem Free.cons {c : CodePoint} (hgap : isGap c = false) (hslash : c ≠ .scalar '/')
    (hmem : c ∉ marks) : Free marks (c :: t) :=
  ⟨gap_cons hgap hslash t, by simpa using hmem⟩

theorem Free.mono {more : Text} (h : Free more t) (hsub : ∀ c ∈ marks, c ∈ more) :
    Free marks t :=
  ⟨h.gap, fun c hc hmem => h.head c hc (hsub c hmem)⟩

theorem Free.mark (h : Free marks t) {m : Text} (hm : opensWith marks m = true) (stops : Text) :
    Lexeme.mark m stops t = none := by
  obtain ⟨d, hd, hmem⟩ := (Option.any_eq_true _ _).mp hm
  obtain ⟨m, rfl⟩ := List.head?_eq_some_iff.mp hd
  cases t with
  | nil => simp [Lexeme.mark, Text.dropStart?]
  | cons c t =>
    refine mark_cons_eq_none ⟨d, rfl, fun he => ?_⟩ stops t
    exact h.head c rfl (he ▸ List.contains_iff_mem.mp hmem)

theorem Free.markupComment (h : Free marks t) (hmarks : opensWith marks "<" = true)
    (hminus : opensWith marks "-" = true) : Lexeme.markupComment t = none := by
  have hstart {m : Text} {d : CodePoint} (hm : opensWith marks (d :: m) = true) :
      Text.startsWith (d :: m) t = false := by
    cases t with
    | nil => rfl
    | cons c t =>
      have hne : ¬ d = c := fun he => h.head c rfl (he ▸ List.contains_iff_mem.mp hm)
      simp [Text.startsWith, List.isPrefixOf, hne]
  have hopen : Text.startsWith "<!--" t = false := hstart hmarks
  have hclose : Text.startsWith "-->" t = false := hstart hminus
  simp [Lexeme.markupComment, hopen, hclose]

theorem Free.string (h : Free marks t) (hdouble : opensWith marks "\"" = true)
    (hsingle : opensWith marks "'" = true) : Lexeme.string t = none := by
  unfold Lexeme.string
  split
  · exact absurd (List.contains_iff_mem.mp hdouble) (h.head _ rfl)
  · exact absurd (List.contains_iff_mem.mp hsingle) (h.head _ rfl)
  · rfl

theorem Free.regex (h : Free marks t) (hslash : opensWith marks "/" = true) :
    Lexeme.regex t = none := by
  cases t with
  | nil => rfl
  | cons c t =>
    refine regex_cons_eq_none (fun he => ?_) t
    exact h.head c rfl (he ▸ List.contains_iff_mem.mp hslash)

theorem word_eq_none (h : name t = none) (w : Text) : word w t = none := by
  rw [word, h]

theorem nameExcept_eq_none (h : name t = none) (words : List Text) :
    nameExcept words t = none := by
  rw [nameExcept, h]
  rfl

theorem firstOf_word_append {s : Text} (hs : IsName s) (ht : EndsName t) (words : List Text) :
    firstOf (words.map word) (s ++ t) = if words.contains s then some s.length else none := by
  induction words with
  | nil => rfl
  | cons w words ih =>
    have hcons : firstOf ((w :: words).map word) (s ++ t) =
        (word w (s ++ t)).or (firstOf (words.map word) (s ++ t)) := by
      rw [firstOf, List.map_cons, List.findSome?_cons]
      cases word w (s ++ t) <;> rfl
    rw [hcons, ih, word_append hs ht]
    by_cases hw : s = w
    · simp [hw]
    · simp [hw]

end Lexeme

namespace Grammar

open Lexeme (Free)

/-- What the rules of the dialect with types must leave of a text. -/
abbrev LeavesNone (r : Production) (t : Text) : Prop :=
  r.Leaves Lexeme.gap (production .typescript) t fun _ => False

abbrev Refused (p : Phrase) (t : Text) : Prop :=
  Refuses Lexeme.gap (production .typescript) p t

abbrev Comes (depth : Nat) (r : Production) (c : Cursor)
    (result : Option (Cursor × List Node)) : Prop :=
  Gives Lexeme.gap (production .typescript) depth r c result

def allMarks : Text := "<>()[]\x7b\x7d\x60@.,:;?!~+-*/=&|^%#\"'"

def otherThanQuotes : Text := "<>()[]\x7b\x7d\x60@.,:;?!~+-*/=&|^%#"

private def otherThanEnds : Text := "<>([]\x7b\x7d\x60@.,:?!~+-*/=&|^%#\"'"

/-- The same without what goes on after a name here. -/
def otherThanTails : Text := "<>)[]\x7b\x7d\x60@,:;!~+-*/=&|^%#\"'"

variable {marks s t u : Text}

@[simp high] private theorem leaves_sameLine {q : Text → Prop} :
    (Rule.scan Lexeme.sameLine).Leaves Lexeme.gap (production .typescript) t q ↔
      (Lexeme.sameLine t = some 0 → q t) := by
  refine leaves_scan.trans ⟨fun h hzero => h 0 hzero, fun h n hn => ?_⟩
  obtain rfl := Lexeme.eq_zero_of_sameLine hn
  exact h hn

theorem refused_of_leaves {p : Phrase} (h : LeavesNone (production .typescript p) t) :
    Refused p t :=
  fun depth offset => h.run_eq_none depth offset

/-- A phrase that a mark begins does not stand where the mark does not. -/
theorem refused_of_mark {p : Phrase} {k : Kind} {m : Text} {x : Production}
    (hp : production .typescript p = Rule.tree k (mark m >> x)) (h : Free marks t)
    (hm : Lexeme.opensWith marks m = true) : Refused p t := by
  refine refused_of_leaves ?_
  rw [hp, LeavesNone, leaves_tree, h.gap, List.drop_zero, leaves_seq, mark, leaves_token, h.gap,
    List.drop_zero, h.mark hm]
  simp

theorem refused_template (h : Free marks t) (hm : Lexeme.opensWith marks "\x60" = true) :
    Refused .template t := by
  refine refused_of_leaves ?_
  simp [production, template, h.gap, h.mark hm]

/-- The text goes on with a closing parenthesis or a semicolon. -/
def Ends (t : Text) : Prop :=
  ∃ u, t = .scalar ')' :: u ∨ t = .scalar ';' :: u

theorem Ends.free (h : Ends t) : Free otherThanEnds t := by
  obtain ⟨u, rfl | rfl⟩ := h
  · exact .cons (by decide) (by decide) (by decide)
  · exact .cons (by decide) (by decide) (by decide)

theorem Ends.name (h : Ends t) : Lexeme.name t = none := by
  obtain ⟨u, rfl | rfl⟩ := h
  · exact Lexeme.name_cons_eq_none (by decide) (by decide) u
  · exact Lexeme.name_cons_eq_none (by decide) (by decide) u

private theorem Ends.choiceMark (h : Ends t) :
    Lexeme.choiceMark Dialect.typescript.hasTypes t = none := by
  obtain ⟨u, rfl | rfl⟩ := h <;> rfl

theorem Ends.tail (h : Ends t) : LeavesNone (tail .typescript) t := by
  have hfree := h.free
  have htypes : Refused .typeArguments t := refused_of_mark rfl hfree (by decide)
  have harguments : Refused .arguments t := refused_of_mark rfl hfree (by decide)
  have htemplate : Refused .template t := refused_template hfree (by decide)
  simp +decide [LeavesNone, Grammar.tail, memberTail, subscriptTail, callTail, templateTail,
    nonNullTail, instantiationTail, mark, markExcept, sameLine, htypes, harguments, htemplate,
    hfree.mark, hfree.gap]

private theorem Ends.assignment (h : Ends t) (x : Production) :
    LeavesNone (Rule.node .other (assignment >> x)) t := by
  have hfree := h.free
  simp +decide [LeavesNone, Grammar.assignment, equals, markExcept, Lexeme.firstOf, hfree.gap,
    hfree.mark]

private theorem Ends.step (h : Ends t) :
    LeavesNone (Rule.node .other (sameLine >> (mark "++" <|> mark "--"))) t := by
  have hfree := h.free
  simp +decide [LeavesNone, sameLine, mark, hfree.gap, hfree.mark]

/-- The words that begin an expression and stand for no value by themselves. -/
def expressionWords : List Text :=
  ["await", "class", "delete", "function", "import", "new", "typeof", "void", "yield"]

/-- The words that stand for a value without naming it. -/
private def literalWords : List Text :=
  ["this", "super", "null", "true", "false"]

def headKind (s : Text) : Kind :=
  if literalWords.contains s then .other else .word

/-- What a name is followed by here: a call of it with a literal, or the choice of a member. -/
structure Follows (u : Text) : Prop where
  free : Free otherThanTails u
  name : Lexeme.name u = none
  ends : Lexeme.EndsName u
  parameters : Refused .parameters u

theorem free_name (hs : Lexeme.IsName s) : Free allMarks (s ++ u) := by
  obtain ⟨c, s, rfl, hc, -⟩ := hs
  have hmarks : ∀ d ∈ allMarks, Lexeme.startsName d = false := by decide
  have hmem : c ∉ allMarks := fun h => by simp [hmarks c h] at hc
  exact .cons (Lexeme.isGap_of_startsName hc) (fun he => hmem (he ▸ by decide)) hmem

private theorem number_name (hs : Lexeme.IsName s) : Lexeme.number (s ++ t) = none := by
  obtain ⟨c, s, rfl, hc, -⟩ := hs
  refine Lexeme.number_cons_eq_none (Lexeme.startsName_of_isDigit hc) (fun he => ?_) _
  rw [he] at hc
  exact absurd hc (by decide)

section Gives

variable {depth offset : Nat} {c d e : Cursor} {m n : Node}
  {result : Option (Cursor × List Node)}

theorem advance_gap (h : Lexeme.gap c.rest = 0) : c.advance (Lexeme.gap c.rest) = c := by
  rw [h]
  rfl

theorem advance_append : (⟨offset, s ++ t⟩ : Cursor).advance s.length =
    ⟨offset + Utf8.size s, t⟩ := by
  simp [Cursor.advance]

theorem comes_expression (hc : c.advance (Lexeme.gap c.rest) = d)
    (hfree : Free otherThanQuotes d.rest) (hend : Ends e.rest)
    (h : Comes depth (Rule.phrase (Phrase.operand true)) d (some (e, [n]))) :
    Comes (depth + 5) (Rule.phrase (Phrase.expression true)) c (some (e, [n])) := by
  have hrest : c.rest.drop (Lexeme.gap c.rest) = d.rest := congrArg Cursor.rest hc
  have hends := hend.free
  refine .phrase (.seq_right (.many_nil (.of_leaves ?_))
    (.chain hc (h.mono (Nat.le_succ depth)) (.grown_stop (.of_leaves ?_)) rfl))
  · simp [hrest, hfree.markupComment (by decide) (by decide)]
  · simp +decide [operator, oneWord, sameLine, Lexeme.firstOf, hends.gap, hends.mark,
      Lexeme.word_eq_none hend.name, hend.choiceMark]

theorem comes_chained (hc : Lexeme.gap c.rest = 0) (hend : Ends e.rest)
    (hhead : Comes depth (arrow .typescript true <|> simple .typescript) c (some (d, [m])))
    (htail : Comes depth (.grown c.offset [m] (fun _ => true) (tail .typescript)) d
      (some (e, [n]))) :
    Comes (depth + 5) (chained .typescript true) c (some (e, [n])) :=
  .chain (advance_gap hc)
    (.grow (.chain (advance_gap hc) hhead htail rfl)
      (.grown_stop (.of_leaves (hend.assignment _))))
    (.grown_stop (.of_leaves hend.step)) rfl

section Name

variable (hs : Lexeme.IsName s) (hwords : s ∉ expressionWords) (hu : Follows u)

include hs hwords hu

theorem comes_operand_name
    (h : Comes depth (chained .typescript true) ⟨offset, s ++ u⟩ result) :
    Comes (depth + 7) (Rule.phrase (Phrase.operand true)) ⟨offset, s ++ u⟩ result := by
  have hfree := free_name (u := u) hs
  have hfollows := hu.free
  have htypes : Refused .typeArguments (s ++ u) := refused_of_mark rfl hfree (by decide)
  simp only [expressionWords, List.mem_cons, not_or] at hwords
  refine .phrase (.alt_right ?_ (.alt_right ?_ (.alt_right ?_ (.alt_right ?_ (.alt_right ?_
    (.alt_right ?_ h))))))
  all_goals refine .of_leaves ?_
  all_goals
    simp +decide [oneWord, word, mark, sameLine, patternAssignment, objectPattern, arrayPattern,
      binder, name, Lexeme.firstOf, hwords, htypes, hfree.gap, hfree.mark, hfollows.gap,
      hfollows.mark, Lexeme.word_append hs hu.ends, Lexeme.nameExcept_eq_none hu.name]

private theorem refused_classExpression_name : Refused .classExpression (s ++ u) := by
  have hfree := free_name (u := u) hs
  have hdecorator : Refused .decorator (s ++ u) := refused_of_mark rfl hfree (by decide)
  simp only [expressionWords, List.mem_cons, not_or] at hwords
  refine refused_of_leaves ?_
  simp +decide [LeavesNone, production, classExpression, classNamed, word, hwords, hdecorator,
    hfree.gap, hu.free.gap, Lexeme.word_append hs hu.ends, Lexeme.word_eq_none hu.name]

omit hwords in
private theorem leavesNone_arrow_name : LeavesNone (arrow .typescript true) (s ++ u) := by
  have hfree := free_name (u := u) hs
  have hfollows := hu.free
  have htypes : Refused .typeParameters (s ++ u) := refused_of_mark rfl hfree (by decide)
  have hparameters : Refused .parameters (s ++ u) := refused_of_mark rfl hfree (by decide)
  have htypes' : Refused .typeParameters u := refused_of_mark rfl hfollows (by decide)
  simp +decide [LeavesNone, arrow, word, mark, sameLine, valueName, name, htypes, hparameters,
    htypes', hu.parameters, hfree.gap, hfollows.gap, hfollows.mark,
    Lexeme.word_append hs hu.ends, Lexeme.nameExcept_append hs hu.ends,
    Lexeme.nameExcept_eq_none hu.name]

theorem comes_head_name (offset : Nat) :
    Comes 24 (arrow .typescript true <|> simple .typescript) ⟨offset, s ++ u⟩
      (some (⟨offset + Utf8.size s, u⟩,
        [.mk (headKind s) none offset (offset + Utf8.size s) []])) := by
  have hfree := free_name (u := u) hs
  have hclass := refused_classExpression_name hs hwords hu
  have htemplate : Refused .template (s ++ u) := refused_template hfree (by decide)
  have hobject : Refused .object (s ++ u) := refused_of_mark rfl hfree (by decide)
  have harray : Refused .array (s ++ u) := refused_of_mark rfl hfree (by decide)
  have harrow := leavesNone_arrow_name hs hu
  simp only [expressionWords, List.mem_cons, not_or] at hwords
  have hnew : Refused .newTarget (s ++ u) := by
    refine refused_of_leaves ?_
    simp [LeavesNone, production, newTarget, word, hwords, hfree.gap,
      Lexeme.word_append hs hu.ends]
  refine .alt_right (.of_leaves harrow) (.alt_right ?_ (.alt_right ?_ (.alt_right ?_ (.alt_right ?_
    (.alt_right ?_ (.alt_right ?_ (.alt_right ?_ (.alt_right ?_ (.alt_right ?_ (.alt_right ?_
    (.alt_right ?_ ?last)))))))))))
  case last =>
    rw [headKind]
    split
    · rename_i hliteral
      have hscan : Lexeme.firstOf (literalWords.map Lexeme.word) (s ++ u) = some s.length := by
        rw [Lexeme.firstOf_word_append hs hu.ends, if_pos hliteral]
      have hgives : Comes 4 (Rule.tree .other (oneWord literalWords)) ⟨offset, s ++ u⟩ _ :=
        .tree (advance_gap hfree.gap) (.token (advance_gap hfree.gap) hscan)
      rw [advance_append] at hgives
      exact .alt_left (hgives.mono (by decide))
    · rename_i hliteral
      rw [List.contains_iff_mem] at hliteral
      have hscan : Lexeme.nameExcept valueWords (s ++ u) = some s.length := by
        rw [Lexeme.nameExcept_append hs hu.ends, if_neg]
        simp only [literalWords, List.mem_cons, not_or] at hliteral
        simp [valueWords, hwords, hliteral]
      have hgives : Comes 3 (valueName .typescript) ⟨offset, s ++ u⟩ _ :=
        .tree (advance_gap hfree.gap) (.scan hscan)
      rw [advance_append] at hgives
      refine .alt_right (.of_leaves ?_) (.alt_right (.of_leaves ?_)
        (.alt_left (hgives.mono (by decide))))
      · simp only [literalWords, List.mem_cons, not_or] at hliteral
        simp [oneWord, Lexeme.firstOf, hliteral, hfree.gap, Lexeme.word_append hs hu.ends]
      · simp [word, hwords, hfree.gap, Lexeme.word_append hs hu.ends]
  all_goals refine .of_leaves ?_
  all_goals
    simp +decide [function, functionNamed, group, string, word, mark, sameLine, hwords, hclass,
      htemplate, hobject, harray, hnew, hfree.gap, hfree.mark, hu.free.gap,
      Lexeme.word_append hs hu.ends, Lexeme.word_eq_none hu.name,
      hfree.string (by decide) (by decide), hfree.regex (by decide), number_name hs]

end Name

section Literal

variable (hfree : Free otherThanQuotes t) (hname : Lexeme.name t = none)

include hfree hname

theorem comes_operand_literal
    (h : Comes depth (chained .typescript true) ⟨offset, t⟩ result) :
    Comes (depth + 7) (Rule.phrase (Phrase.operand true)) ⟨offset, t⟩ result := by
  have htypes : Refused .typeArguments t := refused_of_mark rfl hfree (by decide)
  refine .phrase (.alt_right ?_ (.alt_right ?_ (.alt_right ?_ (.alt_right ?_ (.alt_right ?_
    (.alt_right ?_ h))))))
  all_goals refine .of_leaves ?_
  all_goals
    simp +decide [oneWord, word, mark, patternAssignment, objectPattern, arrayPattern,
      Lexeme.firstOf, htypes, hfree.gap, hfree.mark, Lexeme.word_eq_none hname]

theorem comes_head_literal (offset : Nat) {k : Nat} (h : Lexeme.string t = some k) :
    Comes 12 (arrow .typescript true <|> simple .typescript) ⟨offset, t⟩
      (some ((⟨offset, t⟩ : Cursor).advance k,
        [.mk .string none offset ((⟨offset, t⟩ : Cursor).advance k).offset []])) := by
  have htypes : Refused .typeParameters t := refused_of_mark rfl hfree (by decide)
  have hparameters : Refused .parameters t := refused_of_mark rfl hfree (by decide)
  have hdecorator : Refused .decorator t := refused_of_mark rfl hfree (by decide)
  have hclass : Refused .classExpression t := by
    refine refused_of_leaves ?_
    simp [LeavesNone, production, classExpression, classNamed, word, hdecorator, hfree.gap,
      Lexeme.word_eq_none hname]
  have hnew : Refused .newTarget t := by
    refine refused_of_leaves ?_
    simp [LeavesNone, production, newTarget, word, hfree.gap, Lexeme.word_eq_none hname]
  refine .alt_right ?_ (.alt_right ?_ (.alt_right ?_ (.alt_right ?_ (.alt_right ?_ (.alt_right ?_
    (.alt_left (.tree (advance_gap hfree.gap) (.scan h))))))))
  all_goals refine .of_leaves ?_
  all_goals
    simp +decide [arrow, function, functionNamed, valueName, group, word, mark, htypes,
      hparameters, hclass, hnew, hfree.gap, hfree.mark, Lexeme.word_eq_none hname,
      Lexeme.nameExcept_eq_none hname]

end Literal

end Gives

end Grammar

end LocaleLift.Script
