import LocaleLift.Proofs.Script.Operand
import LocaleLift.Proofs.Text.Encodable

/-! The calls that are written are read as calls, and which of them are recognised: the grammar is
followed forwards over a call of a member path with one written literal. -/
namespace LocaleLift.Script

open Rule

/-- The choice of a member by its name; an optional one yields nothing where there is no object. -/
structure Access where
  optional : Bool
  name : Text
  deriving DecidableEq, Repr

def Access.mark (a : Access) : Text :=
  if a.optional then "?." else "."

def memberPath (first : Text) (accesses : List Access) : Text :=
  first ++ accesses.flatMap fun a => a.mark ++ a.name

namespace Grammar

open Lexeme (Free)

variable {marks s t u : Text}

section Gives

variable {depth offset : Nat} {c d e : Cursor} {m n : Node}
  {result : Option (Cursor × List Node)}

private theorem comes_markExcept {w stops : Text} (h : Lexeme.gap (w ++ t) = 0)
    (hstops : ∀ c ∈ t.head?, c ∉ stops) :
    Comes 2 (markExcept w stops) ⟨offset, w ++ t⟩ (some (⟨offset + Utf8.size w, t⟩, [])) := by
  have hgives : Comes 2 (markExcept w stops) ⟨offset, w ++ t⟩ _ :=
    .token (advance_gap h) (Lexeme.mark_append hstops)
  rwa [advance_append] at hgives

private theorem comes_mark {w : Text} (h : Lexeme.gap (w ++ t) = 0) :
    Comes 2 (mark w) ⟨offset, w ++ t⟩ (some (⟨offset + Utf8.size w, t⟩, [])) :=
  comes_markExcept h (by simp)

section Call

variable {q : CodePoint} (hq : q = .scalar '\x22' ∨ q = .scalar '\x27') (key : Text)

include hq

private theorem free_literal : Free otherThanQuotes (Literal.quote [q] key ++ t) := by
  rw [Literal.quote_eq_spell hq, List.cons_append]
  rcases hq with rfl | rfl
  · exact .cons (by decide) (by decide) (by decide)
  · exact .cons (by decide) (by decide) (by decide)

private theorem name_literal : Lexeme.name (Literal.quote [q] key ++ t) = none := by
  rw [Literal.quote_eq_spell hq, List.cons_append]
  rcases hq with rfl | rfl
  · exact Lexeme.name_cons_eq_none (by decide) (by decide) _
  · exact Lexeme.name_cons_eq_none (by decide) (by decide) _

private theorem comes_literal (hend : Ends t) :
    Comes 29 (Rule.phrase (Phrase.expression true)) ⟨offset, Literal.quote [q] key ++ t⟩
      (some (⟨offset + Utf8.size (Literal.quote [q] key), t⟩,
        [.mk .string none offset (offset + Utf8.size (Literal.quote [q] key)) []])) := by
  have hfree : Free otherThanQuotes (Literal.quote [q] key ++ t) := free_literal hq key
  have hname : Lexeme.name (Literal.quote [q] key ++ t) = none := name_literal hq key
  have hhead := comes_head_literal hfree hname offset (Lexeme.string_quote hq key t)
  rw [advance_append] at hhead
  exact comes_expression (advance_gap hfree.gap) hfree hend (comes_operand_literal hfree hname
    (comes_chained hfree.gap hend hhead (.grown_stop (.of_leaves hend.tail))))

private def argumentsNode (key : Text) (q : CodePoint) (start : Nat) : Node :=
  let literal := start + 1
  let close := literal + Utf8.size (Literal.quote [q] key)
  .mk .arguments none start (close + 1) [.mk .string none literal close []]

private theorem comes_arguments :
    Comes 40 (Rule.phrase .arguments) ⟨offset, "(" ++ (Literal.quote [q] key ++ (")" ++ t))⟩
      (some (⟨offset + 1 + Utf8.size (Literal.quote [q] key) + 1, t⟩,
        [argumentsNode key q offset])) := by
  have hopen : Lexeme.gap ("(" ++ (Literal.quote [q] key ++ (")" ++ t))) = 0 :=
    Lexeme.gap_cons (by decide) (by decide) _
  have hends : Ends (")" ++ t) := ⟨t, .inl rfl⟩
  have hclose := hends.free
  have hfree : Free otherThanQuotes (Literal.quote [q] key ++ (")" ++ t)) := free_literal hq key
  refine .phrase (.tree (advance_gap hopen) (.seq_right ((comes_mark hopen).mono (by decide))
    (.seq_left (.seq_left (.alt_left (.alt_right (.of_leaves ?_)
      ((comes_literal hq key hends).mono (by decide)))) (.many_nil (.of_leaves ?_)))
      ((comes_mark hclose.gap).mono (by decide)))))
  · simp +decide [spread, mark, hfree.gap, hfree.mark]
  · simp +decide [mark, hclose.gap, hclose.mark]

private theorem comes_callTail :
    Comes 47 (tail .typescript) ⟨offset, "(" ++ (Literal.quote [q] key ++ (")" ++ t))⟩
      (some (⟨offset + 1 + Utf8.size (Literal.quote [q] key) + 1, t⟩,
        [.mk .call none offset (offset + 1 + Utf8.size (Literal.quote [q] key) + 1)
          [(argumentsNode key q offset).withField .arguments]])) := by
  have hfree : Free (allMarks.filter (· != .scalar '('))
      ("(" ++ (Literal.quote [q] key ++ (")" ++ t))) :=
    .cons (by decide) (by decide) (by decide)
  have htypes : Refused .typeArguments ("(" ++ (Literal.quote [q] key ++ (")" ++ t))) :=
    refused_of_mark rfl hfree (by decide)
  refine .alt_right (.of_leaves ?_) (.alt_right (.of_leaves ?_) (.alt_left (.node (.seq_right
    (.opt_none (.of_leaves ?_)) (.seq_right (.opt_none (.of_leaves ?_))
      (.field ((comes_arguments hq key).mono (by decide))))))))
  · simp +decide [memberTail, markExcept, mark, hfree.gap, hfree.mark]
  · simp +decide [subscriptTail, markExcept, mark, hfree.gap, hfree.mark]
  · simp +decide [markExcept, hfree.gap, hfree.mark]
  · simp [htypes]

/-- What follows a name in a call: the other members, and the arguments. -/
private def afterName (key : Text) (q : CodePoint) (accesses : List Access) (t : Text) : Text :=
  accesses.flatMap (fun a => a.mark ++ a.name) ++ ("(" ++ (Literal.quote [q] key ++ (")" ++ t)))

omit hq in
private theorem afterName_cons (a : Access) (accesses : List Access) :
    afterName key q (a :: accesses) t = a.mark ++ (a.name ++ afterName key q accesses t) := by
  simp [afterName]

private theorem refused_parameters : Refused .parameters (afterName key q [] t) := by
  have hfree : Free otherThanQuotes (Literal.quote [q] key ++ (")" ++ t)) := free_literal hq key
  have hname : Lexeme.name (Literal.quote [q] key ++ (")" ++ t)) = none := name_literal hq key
  have hdecorator : Refused .decorator (Literal.quote [q] key ++ (")" ++ t)) :=
    refused_of_mark rfl hfree (by decide)
  have hgap : Lexeme.gap ("(" ++ (Literal.quote [q] key ++ (")" ++ t))) = 0 :=
    Lexeme.gap_cons (by decide) (by decide) _
  have hopen : Lexeme.mark "(" [] ("(" ++ (Literal.quote [q] key ++ (")" ++ t))) = some 1 :=
    Lexeme.mark_append (by simp)
  have hdrop : ("(" ++ (Literal.quote [q] key ++ (")" ++ t))).drop 1 =
      Literal.quote [q] key ++ (")" ++ t) := rfl
  refine refused_of_leaves ?_
  simp +decide only [LeavesNone, afterName, List.flatMap_nil, List.nil_append, production,
    parameters, leaves_tree, hgap, leaves_seq, mark, leaves_token, hopen, List.drop_zero,
    Option.some.injEq, forall_eq', hdrop]
  simp +decide [nonemptyListOf, parameter, restPattern, pattern, objectPattern, arrayPattern,
    target, name, oneWord, word, mark, Lexeme.firstOf, hdecorator, hfree.gap,
    hfree.mark, Lexeme.word_eq_none hname, Lexeme.nameExcept_eq_none hname]

private theorem follows_afterName (accesses : List Access) :
    Follows (afterName key q accesses t) := by
  have hbegin {c : CodePoint} {v : Text} (hfree : Free otherThanTails (c :: v))
      (hc : Lexeme.startsName c = false ∧ Lexeme.continuesName c = false ∧ c ≠ .scalar '\\')
      (hparameters : Refused .parameters (c :: v)) : Follows (c :: v) := by
    refine ⟨hfree, Lexeme.name_cons_eq_none hc.1 hc.2.2 v, fun d hd => ?_, hparameters⟩
    obtain rfl := Option.some.inj hd
    exact hc.2
  cases accesses with
  | nil =>
    exact hbegin (.cons (by decide) (by decide) (by decide)) (by decide) (refused_parameters hq key)
  | cons a accesses =>
    rw [afterName_cons, Access.mark]
    have hrefused {v : Text} (hfree : Free ("(" : Text) v) : Refused .parameters v :=
      refused_of_mark rfl hfree (by decide)
    split
    · exact hbegin (.cons (by decide) (by decide) (by decide)) (by decide)
        (hrefused (.cons (by decide) (by decide) (by decide)))
    · exact hbegin (.cons (by decide) (by decide) (by decide)) (by decide)
        (hrefused (.cons (by decide) (by decide) (by decide)))

/-- A name with the members chosen from it so far, and where it ends. -/
private def pathNode (start : Nat) : Nat → Node → List Access → Node × Nat
  | offset, n, [] => (n, offset)
  | offset, n, a :: accesses =>
    let left := offset + Utf8.size a.mark
    let right := left + Utf8.size a.name
    pathNode start right
      (.mk .member none start right [n, .mk .word (some .property) left right []]) accesses

omit hq in
private theorem comes_accessMark {a : Access} (ht : ∀ c ∈ t.head?, c.inRange 0x30 0x39 = false) :
    Comes 4 (markExcept "?." "0123456789" <|> mark ".") ⟨offset, a.mark ++ t⟩
      (some (⟨offset + Utf8.size a.mark, t⟩, [])) := by
  rw [Access.mark]
  split
  · have hgap : Lexeme.gap ("?." ++ t) = 0 := Lexeme.gap_cons (by decide) (by decide) _
    have hdigits : ∀ d ∈ ("0123456789" : Text), d.inRange 0x30 0x39 = true := by decide
    refine .alt_left ((comes_markExcept hgap fun c hc hmem => ?_).mono (by decide))
    exact Bool.noConfusion ((hdigits c hmem).symm.trans (ht c hc))
  · have hfree : Free ("?" : Text) ("." ++ t) := .cons (by decide) (by decide) (by decide)
    refine .alt_right (.of_leaves ?_) ((comes_mark hfree.gap).mono (by decide))
    simp +decide [markExcept, hfree.gap, hfree.mark]

omit hq in
private theorem comes_memberTail (offset : Nat) {a : Access} (hname : Lexeme.IsName a.name)
    (hu : Follows u) :
    Comes 10 (tail .typescript) ⟨offset, a.mark ++ (a.name ++ u)⟩
      (some (⟨offset + Utf8.size a.mark + Utf8.size a.name, u⟩,
        [.mk .member none offset (offset + Utf8.size a.mark + Utf8.size a.name)
          [.mk .word (some .property) (offset + Utf8.size a.mark)
            (offset + Utf8.size a.mark + Utf8.size a.name) []]])) := by
  have hfree := free_name (u := u) hname
  have hprivate : Lexeme.privateName (a.name ++ u) = none := by
    obtain ⟨c, s, he, hc, -⟩ := hname
    rw [he, List.cons_append]
    refine Lexeme.privateName_cons_eq_none (fun he => ?_) _
    rw [he] at hc
    exact absurd hc (by decide)
  have hdigit : ∀ c ∈ (a.name ++ u).head?, c.inRange 0x30 0x39 = false := by
    obtain ⟨c, s, he, hc, -⟩ := hname
    intro d hd
    rw [he] at hd
    obtain rfl := Option.some.inj hd
    exact Lexeme.startsName_of_isDigit hc
  have hmember : Comes 3 memberName ⟨offset + Utf8.size a.mark, a.name ++ u⟩ _ :=
    .tree (advance_gap hfree.gap) (.scan (Lexeme.name_append hname hu.ends))
  rw [advance_append] at hmember
  refine .alt_left (.node (.seq_right ((comes_accessMark hdigit).mono (by decide))
    (.field (.alt_right (.of_leaves ?_) (hmember.mono (by decide))))))
  simp [privateName, hfree.gap, hprivate]

private def callNode (key : Text) (q : CodePoint) (start offset : Nat) (n : Node)
    (accesses : List Access) : Node :=
  let path := pathNode start offset n accesses
  .mk .call none start (path.2 + 1 + Utf8.size (Literal.quote [q] key) + 1)
    [path.1.withField .function, (argumentsNode key q path.2).withField .arguments]

/-- A name, members chosen from it and a call of the last one are read one after another. -/
private theorem comes_accesses (hend : Ends t) {accesses : List Access}
    (haccesses : ∀ a ∈ accesses, Lexeme.IsName a.name) (start offset : Nat) (n : Node) :
    Comes (50 + accesses.length)
      (.grown start [n] (fun _ => true) (tail .typescript)) ⟨offset, afterName key q accesses t⟩
      (some (⟨(callNode key q start offset n accesses).stop, t⟩,
        [callNode key q start offset n accesses])) := by
  induction accesses generalizing offset n with
  | nil =>
    exact .grown_next (fun _ _ => rfl) ((comes_callTail hq key).mono (by decide))
      (.grown_stop (.of_leaves hend.tail))
  | cons a accesses ih =>
    obtain ⟨ha, haccesses⟩ := List.forall_mem_cons.mp haccesses
    rw [afterName_cons]
    have hfollows : Follows (afterName key q accesses t) := follows_afterName hq key accesses
    have hmember := comes_memberTail offset ha hfollows
    exact .grown_next (fun _ _ => rfl) (hmember.mono (Nat.le_add_right_of_le (by decide)))
      (ih haccesses _ _)

/-- The node of the call of a path that begins at an offset. -/
private def lookupNode (key : Text) (q : CodePoint) (offset : Nat) (first : Text)
    (accesses : List Access) : Node :=
  let stop := offset + Utf8.size first
  callNode key q offset stop (.mk (headKind first) none offset stop []) accesses

private theorem comes_call (hend : Ends t) {first : Text} {accesses : List Access}
    (hfirst : Lexeme.IsName first) (hwords : first ∉ expressionWords)
    (haccesses : ∀ a ∈ accesses, Lexeme.IsName a.name)
    (hc : c.advance (Lexeme.gap c.rest) = ⟨offset, first ++ afterName key q accesses t⟩) :
    Comes (67 + accesses.length) (Rule.phrase (Phrase.expression true)) c
      (some (⟨(lookupNode key q offset first accesses).stop, t⟩,
        [lookupNode key q offset first accesses])) := by
  have hfollows : Follows (afterName key q accesses t) := follows_afterName hq key accesses
  have hfree : Free allMarks (first ++ afterName key q accesses t) := free_name hfirst
  have hhead := (comes_head_name hfirst hwords hfollows offset).mono
    (Nat.le_add_right_of_le (by decide) : 24 ≤ 50 + accesses.length)
  have hgrown := comes_accesses hq key hend haccesses offset (offset + Utf8.size first)
    (.mk (headKind first) none offset (offset + Utf8.size first) [])
  have hchained := comes_chained hfree.gap hend hhead hgrown
  refine (comes_expression hc (hfree.mono (by decide)) hend
    (comes_operand_name hfirst hwords hfollows hchained)).mono ?_
  omega

end Call

private theorem isName_const : Lexeme.IsName "const" :=
  ⟨.scalar 'c', "onst", rfl, by decide, by decide⟩

private theorem isName_temp : Lexeme.IsName "__temp" :=
  ⟨.scalar '_', "_temp", rfl, by decide, by decide⟩

private theorem endsName_space : Lexeme.EndsName (" " ++ t) := by
  intro c hc
  obtain rfl := Option.some.inj hc
  decide

/-- The script around an expression behind its first word; `t` is all from the expression on. -/
private def afterConst (t : Text) : Text :=
  " " ++ ("__temp" ++ (" =" ++ (" " ++ t)))

private theorem gap_afterConst : Lexeme.gap (afterConst t) = 1 :=
  Lexeme.gap_space_cons (by decide) (by decide) _

private theorem gap_equals : Lexeme.gap (" =" ++ (" " ++ t)) = 1 :=
  Lexeme.gap_space_cons (by decide) (by decide) _

private theorem comes_equals : Comes 6 equals ⟨12, " =" ++ (" " ++ t)⟩
    (some (⟨14, " " ++ t⟩, [])) := by
  have hmark : Lexeme.mark "=" "=>" ("=" ++ (" " ++ t)) = some 1 := by
    refine Lexeme.mark_append fun c hc => ?_
    obtain rfl := Option.some.inj hc
    decide
  refine .token (d := ⟨13, "=" ++ (" " ++ t)⟩) ?_ hmark
  rw [gap_equals]
  rfl

private theorem comes_bareDeclarator : Comes 12 (bareDeclarator .typescript)
    ⟨6, "__temp" ++ (" =" ++ (" " ++ t))⟩
    (some (⟨12, " =" ++ (" " ++ t)⟩, [.mk .word none 6 12 []])) := by
  have hfree : Free allMarks ("__temp" ++ (" =" ++ (" " ++ t))) := free_name isName_temp
  have hname : Comes 6 (name .typescript) ⟨6, "__temp" ++ (" =" ++ (" " ++ t))⟩ _ :=
    .tree (advance_gap hfree.gap) (.scan (Lexeme.nameExcept_append isName_temp endsName_space []))
  have hdrop : (" =" ++ (" " ++ t)).drop 1 = "=" ++ (" " ++ t) := rfl
  have hsign : Free ("!:" : Text) ("=" ++ (" " ++ t)) := .cons (by decide) (by decide) (by decide)
  refine .seq_left (.alt_right (.of_leaves ?_) (.alt_right (.of_leaves ?_)
    (hname.mono (by decide)))) (.seq_right (.opt_none (.of_leaves ?_))
      (.opt_none (.of_leaves ?_)))
  · simp +decide [objectPattern, mark, hfree.gap, hfree.mark]
  · simp +decide [arrayPattern, mark, hfree.gap, hfree.mark]
  · simp +decide [markExcept, gap_equals, hdrop, hsign.mark]
  · simp +decide [typeAfterColon, mark, gap_equals, hdrop, hsign.mark]

private theorem comes_valuedDeclarator (h : Comes depth (Rule.phrase (Phrase.expression true))
      ⟨14, " " ++ t⟩ (some (e, [n]))) :
    Comes (depth + 14) (valuedDeclarator .typescript) ⟨6, "__temp" ++ (" =" ++ (" " ++ t))⟩
      (some (e, [.mk .word none 6 12 [], n.withField .value])) := by
  have hvalue : Comes (depth + 13)
      (equals >> Rule.field .value (Rule.phrase (Phrase.expression true)))
      ⟨12, " =" ++ (" " ++ t)⟩ (some (e, [n.withField .value])) :=
    .seq_right (comes_equals.mono (by omega)) (.field (h.mono (by omega)))
  have hseq := Gives.seq (comes_bareDeclarator.mono (by omega)) hvalue
  exact hseq

private theorem comes_declarator {x : Production} {ns : List Node}
    (h : Comes depth x ⟨6, "__temp" ++ (" =" ++ (" " ++ t))⟩ (some (e, ns))) :
    Comes (depth + 2) (Rule.tree .declarator x) ⟨5, afterConst t⟩
      (some (e, [.mk .declarator none 6 e.offset ns])) := by
  refine .tree (d := ⟨6, "__temp" ++ (" =" ++ (" " ++ t))⟩) ?_ h
  rw [gap_afterConst]
  rfl

private def declarationNode (stop : Nat) (value : Node) : Node :=
  .mk .declaration none 0 stop
    [.mk .declarator none 6 stop [.mk .word none 6 12 [], value.withField .value]]

private theorem comes_variable {stop : Nat}
    (h : Comes depth (Rule.phrase (Phrase.expression true)) ⟨14, " " ++ t⟩
      (some (⟨stop, ";"⟩, [n]))) :
    Comes (depth + 26) (variableStatement .typescript) ⟨0, "const" ++ afterConst t⟩
      (some (⟨stop + 1, []⟩, [declarationNode stop n])) := by
  have hfree : Free allMarks ("const" ++ afterConst t) := free_name isName_const
  have hword : Lexeme.firstOf ((["let", "const"] : List Text).map Lexeme.word)
      ("const" ++ afterConst t) = some 5 := by
    simp +decide [Lexeme.firstOf, Lexeme.word_append isName_const endsName_space, afterConst]
  have hend : Ends ";" := ⟨[], .inr rfl⟩
  have hvalued := comes_valuedDeclarator h
  have hsemicolon : Comes 2 (mark ";") ⟨stop, ";"⟩ (some (⟨stop + 1, []⟩, [])) :=
    comes_mark (w := ";") (t := []) hend.free.gap
  have hlast : Comes (depth + 19) (Rule.tree .declarator (valuedDeclarator .typescript))
      ⟨5, afterConst t⟩ _ := (comes_declarator hvalued).mono (by omega)
  have hfirst : Comes (depth + 17) (Rule.tree .declarator
      (valuedDeclarator .typescript <|> bareDeclarator .typescript)) ⟨5, afterConst t⟩ _ :=
    comes_declarator (.alt_left hvalued)
  have hmany : Comes (depth + 19) (Rule.many (Rule.tree .declarator
      (valuedDeclarator .typescript <|> bareDeclarator .typescript) >> mark ","))
      ⟨5, afterConst t⟩ (some (⟨5, afterConst t⟩, [])) := by
    refine .many_nil (.seq_none hfirst (.of_leaves ?_))
    simp +decide [mark]
  have hwords : Comes (depth + 20) (oneWord ["let", "const"]) ⟨0, "const" ++ afterConst t⟩
      (some (⟨5, afterConst t⟩, [])) := by
    have hgives : Comes (depth + 20) (oneWord ["let", "const"]) ⟨0, "const" ++ afterConst t⟩ _ :=
      .token (advance_gap hfree.gap) hword
    exact hgives
  have hvariables : Comes (depth + 24) (variablesUpTo .typescript (valuedDeclarator .typescript))
      ⟨0, "const" ++ afterConst t⟩ (some (⟨stop, ";"⟩, [declarationNode stop n])) :=
    .alt_left (.tree (advance_gap hfree.gap) (.seq hwords (.seq hmany hlast)))
  exact .alt_left (.seq_left hvariables (.alt_left (hsemicolon.mono (by omega))))

private theorem comes_declaration {stop : Nat}
    (h : Comes depth (Rule.phrase (Phrase.expression true)) ⟨14, " " ++ t⟩
      (some (⟨stop, ";"⟩, [n]))) :
    Comes (depth + 32) (Rule.phrase .declaration) ⟨0, "const" ++ afterConst t⟩
      (some (⟨stop + 1, []⟩, [declarationNode stop n])) := by
  have hfree : Free allMarks ("const" ++ afterConst t) := free_name isName_const
  have hdecorator : Refused .decorator ("const" ++ afterConst t) :=
    refused_of_mark rfl hfree (by decide)
  have hconst (w : Text) : Lexeme.word w ("const" ++ afterConst t) =
      if "const" = w then some 5 else none := Lexeme.word_append isName_const endsName_space w
  have htemp (w : Text) : Lexeme.word w ("__temp" ++ (" =" ++ (" " ++ t))) =
      if "__temp" = w then some 6 else none := Lexeme.word_append isName_temp endsName_space w
  have hrest : ("const" ++ afterConst t).drop 5 = afterConst t := rfl
  have hdrop : ("const" ++ afterConst t).drop 6 = "__temp" ++ (" =" ++ (" " ++ t)) := rfl
  refine .phrase (.alt_right (.of_leaves ?_) (.alt_right (.of_leaves ?_) (.alt_right (.of_leaves ?_)
    (.alt_left ((comes_variable h).mono ?_)))))
  · simp +decide [functionNamed, word, sameLine, hfree.gap, hconst]
  · simp +decide [classNamed, word, hdecorator, hfree.gap, hconst]
  · simp +decide [typeDeclaration, enumeration, functionHead, word, oneWord, sameLine,
      Lexeme.firstOf, hfree.gap, hconst, hrest, hdrop, htemp, gap_afterConst]
  · omega

private theorem comes_statement {stop : Nat}
    (h : Comes depth (Rule.phrase (Phrase.expression true)) ⟨14, " " ++ t⟩
      (some (⟨stop, ";"⟩, [n]))) :
    Comes (depth + 40) statement ⟨0, "const" ++ afterConst t⟩
      (some (⟨stop + 1, []⟩, [declarationNode stop n])) := by
  have hfree : Free allMarks ("const" ++ afterConst t) := free_name isName_const
  have hdecorator : Refused .decorator ("const" ++ afterConst t) :=
    refused_of_mark rfl hfree (by decide)
  have hconst (w : Text) : Lexeme.word w ("const" ++ afterConst t) =
      if "const" = w then some 5 else none := Lexeme.word_append isName_const endsName_space w
  refine .phrase (.alt_right (.of_leaves ?_) (.alt_right (.of_leaves ?_) (.alt_right (.of_leaves ?_)
    (.alt_right (.of_leaves ?_) (.alt_right (.of_leaves ?_)
    (.alt_left ((comes_declaration h).mono ?_)))))))
  · simp +decide [block, mark, hfree.gap, hfree.mark]
  · simp +decide [mark, hfree.gap, hfree.mark]
  · simp +decide [wordStatement, word, oneWord, Lexeme.firstOf, hfree.gap, hconst]
  · simp +decide [importStatement, word, hfree.gap, hconst]
  · simp +decide [exportStatement, word, hdecorator, hfree.gap, hconst]
  · omega

private theorem free_nil : Free allMarks [] :=
  ⟨Lexeme.gap_nil, by simp⟩

private theorem refused_end {p : Phrase} {k : Kind} {m : Text} {x : Production}
    (hp : production .typescript p = Rule.tree k (mark m >> x))
    (hm : Lexeme.opensWith allMarks m = true) : Refused p [] :=
  refused_of_mark hp free_nil hm

private theorem refused_classExpression_end : Refused .classExpression [] := by
  have hdecorator : Refused .decorator [] := refused_end rfl (by decide)
  refine refused_of_leaves ?_
  simp +decide [LeavesNone, production, classExpression, classNamed, word, hdecorator,
    Lexeme.word_eq_none]

private theorem refused_newTarget_end : Refused .newTarget [] := by
  refine refused_of_leaves ?_
  simp +decide [LeavesNone, production, newTarget, word, Lexeme.word_eq_none]

private theorem refused_operand_end : Refused (.operand true) [] := by
  have htypes : Refused .typeArguments [] := refused_end rfl (by decide)
  have hparameters : Refused .typeParameters [] := refused_end rfl (by decide)
  have hparameters' : Refused .parameters [] := refused_end rfl (by decide)
  have htemplate : Refused .template [] := refused_template free_nil (by decide)
  have hobject : Refused .object [] := refused_end rfl (by decide)
  have harray : Refused .array [] := refused_end rfl (by decide)
  have hclass := refused_classExpression_end
  have hnew := refused_newTarget_end
  refine refused_of_leaves ?_
  simp +decide [LeavesNone, production, operand, patternAssignment, objectPattern, arrayPattern,
    chained, arrow, simple, function, functionNamed, group, string, privateName, valueName, oneWord,
    word, mark, sameLine, binder, name, Lexeme.firstOf, free_nil.mark, Lexeme.word_eq_none,
    Lexeme.nameExcept_eq_none, htypes, hparameters, hparameters', htemplate, hobject, harray,
    hclass, hnew]

private theorem refused_statement_end : Refused .statement [] := by
  have hdecorator : Refused .decorator [] := refused_end rfl (by decide)
  have hoperand := refused_operand_end
  have hexpression : Refused (.expression true) [] := by
    refine refused_of_leaves ?_
    simp +decide [LeavesNone, production, operation, markupComments, hoperand]
  have hdeclaration : Refused .declaration [] := by
    refine refused_of_leaves ?_
    simp +decide [LeavesNone, production, declaration, functionNamed, classNamed, typeDeclaration,
      enumeration, functionHead, variableStatement, variablesUpTo, oneWord, word, sameLine,
      Lexeme.firstOf, hdecorator, Lexeme.word_eq_none]
  refine refused_of_leaves ?_
  simp +decide [LeavesNone, production, anyStatement, block, wordStatement, importStatement,
    exportStatement, sequence, expression, oneWord, word, mark, name, Lexeme.firstOf, hdecorator,
    hdeclaration, hexpression, free_nil.mark, Lexeme.word_eq_none, Lexeme.nameExcept_eq_none]

private theorem comes_source {stop : Nat}
    (h : Comes depth (Rule.phrase (Phrase.expression true)) ⟨14, " " ++ t⟩
      (some (⟨stop, ";"⟩, [n]))) :
    Comes (depth + 50) Grammar.source ⟨0, "const" ++ afterConst t⟩
      (some (⟨stop + 1, []⟩, [.mk .other none 0 (stop + 1) [declarationNode stop n]])) := by
  have hfree : Free allMarks ("const" ++ afterConst t) := free_name isName_const
  have hstatement := refused_statement_end
  have hcomments : Comes 3 markupComments ⟨stop + 1, []⟩ (some (⟨stop + 1, []⟩, [])) :=
    .many_nil (.of_leaves (by simp +decide))
  have hone : Comes (depth + 42) (statement >> markupComments) ⟨0, "const" ++ afterConst t⟩
      (some (⟨stop + 1, []⟩, [declarationNode stop n])) :=
    .seq_left ((comes_statement h).mono (by omega)) (hcomments.mono (by omega))
  have hmany : Comes (depth + 43) (Rule.many (statement >> markupComments))
      ⟨0, "const" ++ afterConst t⟩ (some (⟨stop + 1, []⟩, [declarationNode stop n])) := by
    have hrest : Comes (depth + 42) (Rule.many (statement >> markupComments)) ⟨stop + 1, []⟩ _ :=
      .many_nil (.of_leaves (by simp [statement, hstatement]))
    have hgives := Gives.many_cons hone hrest
    exact hgives
  have hstart : Comes 3 markupComments ⟨0, "const" ++ afterConst t⟩
      (some (⟨0, "const" ++ afterConst t⟩, [])) := by
    refine .many_nil (.of_leaves ?_)
    simp [hfree.gap, hfree.markupComment (by decide) (by decide)]
  have hstatements : Comes (depth + 44) statements ⟨0, "const" ++ afterConst t⟩
      (some (⟨stop + 1, []⟩, [declarationNode stop n])) :=
    .seq_right (hstart.mono (by omega)) hmany
  have hend : Comes 4 (Rule.token Lexeme.sourceEnd) ⟨stop + 1, []⟩ _ :=
    .token (d := ⟨stop + 1, []⟩) (n := 0) rfl rfl
  refine .node (.seq_right (.opt_none (.of_leaves ?_)) (.seq_left
    (hstatements.mono ?_) (hend.mono ?_)))
  · simp [Lexeme.interpreterLine, Text.startsWith, Text.ofString]
  all_goals omega

end Gives

section Tree

variable {q : CodePoint} (hq : q = .scalar '\x22' ∨ q = .scalar '\x27') (key : Text)

private theorem pathNode_stop (start offset : Nat) (n : Node) (accesses : List Access) :
    (pathNode start offset n accesses).2 =
      offset + Utf8.size (accesses.flatMap fun a => a.mark ++ a.name) := by
  induction accesses generalizing offset n with
  | nil => rfl
  | cons a accesses ih =>
    rw [pathNode, ih, List.flatMap_cons, Utf8.size_append, Utf8.size_append]
    omega

private theorem lookupNode_stop (offset : Nat) (first : Text) (accesses : List Access) :
    (lookupNode key q offset first accesses).stop =
      offset + Utf8.size (lookupCall key (memberPath first accesses) [q]) := by
  have hopen : Utf8.size "(" = 1 := rfl
  have hclose : Utf8.size ")" = 1 := rfl
  simp only [lookupNode, callNode, pathNode_stop, Node.stop, lookupCall, memberPath,
    Utf8.size_append, hopen, hclose]
  omega

private theorem one_le_length_mark (a : Access) : 1 ≤ a.mark.length := by
  rw [Access.mark]
  split <;> decide

private theorem length_le_memberPath (first : Text) (accesses : List Access) :
    accesses.length ≤ (memberPath first accesses).length := by
  rw [memberPath, List.length_append]
  induction accesses with
  | nil => simp
  | cons a accesses ih =>
    have := one_le_length_mark a
    simp only [List.length_cons, List.flatMap_cons, List.length_append]
    omega

private theorem enclose_lookupCall (first : Text) (accesses : List Access) :
    Binding.enclose (lookupCall key (memberPath first accesses) [q]) =
      "const" ++ afterConst (first ++ afterName key q accesses ";") := by
  simp [Binding.enclose, Binding.opening, Binding.closing, lookupCall, memberPath, afterConst,
    afterName, Text.ofString]

include hq

/-- A written call of a member path is one expression, and its tree is that of the call. -/
private theorem parse?_lookupCall {first : Text} {accesses : List Access}
    (hfirst : Lexeme.IsName first) (hwords : first ∉ expressionWords)
    (haccesses : ∀ a ∈ accesses, Lexeme.IsName a.name) :
    Binding.parse? (lookupCall key (memberPath first accesses) [q]) =
      some ((lookupNode key q 15 first accesses).withField .value) := by
  have hbegin : (⟨14, " " ++ (first ++ afterName key q accesses ";")⟩ : Cursor).advance
      (Lexeme.gap (" " ++ (first ++ afterName key q accesses ";"))) =
        ⟨15, first ++ afterName key q accesses ";"⟩ := by
    have hgap : Lexeme.gap (" " ++ (first ++ afterName key q accesses ";")) = 1 := by
      obtain ⟨c, s, rfl, hc, -⟩ := hfirst
      refine Lexeme.gap_space_cons (Lexeme.isGap_of_startsName hc) (fun he => ?_) _
      rw [he] at hc
      exact absurd hc (by decide)
    rw [hgap]
    rfl
  have hcall := comes_call hq key ⟨[], .inr rfl⟩ hfirst hwords haccesses hbegin
  have hdepth : 67 + accesses.length + 50 ≤
      depthFor (Binding.enclose (lookupCall key (memberPath first accesses) [q])) := by
    have hlength := length_le_memberPath first accesses
    simp only [depthFor, Binding.enclose, lookupCall, List.length_append]
    omega
  have hrun := comes_source hcall _ hdepth
  rw [← enclose_lookupCall] at hrun
  have hstop := lookupNode_stop (q := q) key 15 first accesses
  have hstart : (lookupNode key q 15 first accesses).start = 15 := rfl
  have hopening : Utf8.size Binding.opening = 15 := rfl
  have hclosing : Utf8.size Binding.closing = 1 := rfl
  have hfind (n : Node) : [Node.mk .word none 6 12 [], n.withField .value].find?
      (fun c => c.field == some .value) = some (n.withField .value) := by
    cases n
    rfl
  have hsize : Utf8.size (Binding.enclose (lookupCall key (memberPath first accesses) [q])) =
      (lookupNode key q 15 first accesses).stop + 1 := by
    rw [Binding.enclose, Utf8.size_append, Utf8.size_append, hopening, hclosing, hstop]
  rw [Binding.parse?, parse?_eq, parse?, hrun]
  simp only [declarationNode, Node.children, Node.kind, Node.child?, hfind, Option.bind_eq_bind,
    Option.bind_some, bne_self_eq_false, Bool.false_eq_true, ite_false, beq_self_eq_true,
    List.filter_cons_of_pos, List.filter_nil, Node.start_withField, Node.stop_withField, hstart,
    hopening, hclosing, hsize, Nat.add_sub_cancel, Utf8.slice_eq_nil (Nat.le_refl _),
    List.append_nil, List.all_nil, ite_true]

end Tree

mutual

private def callFree : Node → Bool
  | .mk k _ _ _ cs => k != .call && callFreeAll cs

private def callFreeAll : List Node → Bool
  | [] => true
  | n :: ns => callFree n && callFreeAll ns

end

mutual

private theorem hasLookupCall_of_callFree {source function : Text} :
    (n : Node) → callFree n = true → hasLookupCall source function n = false
  | .mk k f a b cs, h => by
    rw [callFree, Bool.and_eq_true, bne_iff_ne] at h
    simp [hasLookupCall, isLookupCall, Node.kind, h.1, anyLookupCall_of_callFreeAll cs h.2]

private theorem anyLookupCall_of_callFreeAll {source function : Text} :
    (ns : List Node) → callFreeAll ns = true → anyLookupCall source function ns = false
  | [], _ => rfl
  | n :: ns, h => by
    rw [callFreeAll, Bool.and_eq_true] at h
    simp [anyLookupCall, hasLookupCall_of_callFree n h.1, anyLookupCall_of_callFreeAll ns h.2]

end

private theorem callFree_pathNode (start offset : Nat) {n : Node} (hn : callFree n = true)
    (accesses : List Access) : callFree (pathNode start offset n accesses).1 = true := by
  induction accesses generalizing offset n with
  | nil => exact hn
  | cons a accesses ih =>
    refine ih _ ?_
    simp [callFree, callFreeAll, hn]

/-- The last member of a path plays the part of the property in its node. -/
private theorem pathNode_concat (start offset : Nat) (n : Node) (accesses : List Access)
    (a : Access) :
    let before := pathNode start offset n accesses
    let left := before.2 + Utf8.size a.mark
    let right := left + Utf8.size a.name
    (pathNode start offset n (accesses ++ [a])).1 =
      .mk .member none start right [before.1, .mk .word (some .property) left right []] := by
  induction accesses generalizing offset n with
  | nil => rfl
  | cons b accesses ih => exact ih _ _

private theorem callFree_head (first : Text) (start stop : Nat) :
    callFree (.mk (headKind first) none start stop []) = true := by
  rw [headKind]
  split <;> rfl

private theorem field_pathNode (start offset : Nat) {n : Node} (hn : n.field = none)
    (accesses : List Access) : (pathNode start offset n accesses).1.field = none := by
  induction accesses generalizing offset n with
  | nil => exact hn
  | cons a accesses ih => exact ih _ rfl

private theorem callFree_arguments (key : Text) (q : CodePoint) (start : Nat) :
    callFree ((argumentsNode key q start).withField .arguments) = true := rfl

section Source

variable (key : Text) (q : CodePoint) (first : Text)

private theorem hasLookupCall_name :
    hasLookupCall (Binding.enclose (lookupCall key (memberPath first []) [q]))
      (memberPath first []) ((lookupNode key q 15 first []).withField .value) = true := by
  have hpath : memberPath first [] = first := by simp [memberPath]
  have hsource : Binding.enclose (lookupCall key first [q]) =
      Binding.opening ++ first ++ ("(" ++ Literal.quote [q] key ++ ")" ++ Binding.closing) := by
    simp [Binding.enclose, lookupCall]
  have htext := Utf8.slice_append Binding.opening first
    ("(" ++ Literal.quote [q] key ++ ")" ++ Binding.closing)
  have hkind : (headKind first == .member) = false := by
    rw [headKind]
    split <;> rfl
  rw [Utf8.size_append, ← hsource] at htext
  have hopening : Utf8.size Binding.opening = 15 := rfl
  rw [hopening] at htext
  simp [hasLookupCall, isLookupCall, lookupNode, callNode, pathNode, Node.withField, Node.kind,
    Node.child?, Node.children, Node.field, calledName?, hkind, Node.text, Node.start, Node.stop,
    hpath, htext]

/-- Of the callee of a call, only the property is compared with the function. -/
private theorem hasLookupCall_of_property {source function : Text} {inner args : Node}
    {start stop left right : Nat} (hfield : inner.field = none) (hinner : callFree inner = true)
    (hargs : callFree args = true) (hname : Utf8.slice left right source ≠ function) :
    hasLookupCall source function (.mk .call (some .value) start stop
      [.mk .member (some .function) start right
        [inner, .mk .word (some .property) left right []], args]) = false := by
  have hparts : callFreeAll [.mk .member (some .function) start right
      [inner, .mk .word (some .property) left right []], args] = true := by
    simp [callFreeAll, callFree, hinner, hargs]
  rw [hasLookupCall, anyLookupCall_of_callFreeAll _ hparts, Bool.or_false]
  obtain ⟨k, f, a, b, cs⟩ := inner
  obtain rfl : f = none := hfield
  simp [isLookupCall, Node.kind, Node.child?, Node.children, Node.field, calledName?, Node.text,
    Node.start, Node.stop, hname]

private theorem memberPath_concat (accesses : List Access) (a : Access) :
    memberPath first (accesses ++ [a]) = memberPath first accesses ++ a.mark ++ a.name := by
  simp [memberPath]

private theorem hasLookupCall_member (accesses : List Access) (a : Access) :
    hasLookupCall (Binding.enclose (lookupCall key (memberPath first (accesses ++ [a])) [q]))
      (memberPath first (accesses ++ [a]))
      ((lookupNode key q 15 first (accesses ++ [a])).withField .value) = false := by
  let start := 15 + Utf8.size first
  let head : Node := .mk (headKind first) none 15 start []
  have hfield : (pathNode 15 start head accesses).1.field = none :=
    field_pathNode 15 start rfl accesses
  have hinner := callFree_pathNode 15 start (callFree_head first 15 start) accesses
  have hopening : Utf8.size Binding.opening = 15 := rfl
  have hstop : (pathNode 15 start head accesses).2 =
      Utf8.size (Binding.opening ++ memberPath first accesses) := by
    rw [pathNode_stop, memberPath, Utf8.size_append, Utf8.size_append, hopening]
    omega
  have hslice := Utf8.slice_append (Binding.opening ++ memberPath first accesses ++ a.mark) a.name
    ("(" ++ Literal.quote [q] key ++ ")" ++ Binding.closing)
  rw [Utf8.size_append _ a.name, Utf8.size_append _ a.mark, ← hstop] at hslice
  have hname : a.name ≠ memberPath first (accesses ++ [a]) := by
    intro he
    have hlength := congrArg List.length he
    have hmark := one_le_length_mark a
    simp only [memberPath_concat, List.length_append] at hlength
    omega
  have hsource : Binding.enclose (lookupCall key (memberPath first (accesses ++ [a])) [q]) =
      Binding.opening ++ memberPath first accesses ++ a.mark ++ a.name ++
        ("(" ++ Literal.quote [q] key ++ ")" ++ Binding.closing) := by
    simp [Binding.enclose, lookupCall, memberPath_concat]
  simp only [lookupNode, callNode, pathNode_concat]
  refine hasLookupCall_of_property hfield hinner (callFree_arguments ..) ?_
  rwa [hsource, hslice]

end Source

private theorem encodable_memberPath {first : Text} {accesses : List Access}
    (hfirst : Lexeme.IsName first) (haccesses : ∀ a ∈ accesses, Lexeme.IsName a.name) :
    (memberPath first accesses).isEncodable = true := by
  have hmark (a : Access) : a.mark.isEncodable = true := by
    rw [Access.mark]
    split <;> rfl
  rw [memberPath, Text.isEncodable_append, Text.isEncodable_flatMap.mpr, Bool.and_true,
    Text.isEncodable_iff]
  · exact hfirst.isScalar
  · intro a ha
    rw [Text.isEncodable_append, hmark, Bool.true_and, Text.isEncodable_iff]
    exact (haccesses a ha).isScalar

/-- The name that is called is the whole path only if no member is chosen. -/
private theorem hasLookupCall_lookupNode (key : Text) (q : CodePoint) (first : Text)
    (accesses : List Access) :
    hasLookupCall (Binding.enclose (lookupCall key (memberPath first accesses) [q]))
      (memberPath first accesses) ((lookupNode key q 15 first accesses).withField .value) =
        accesses.isEmpty := by
  obtain rfl | ⟨before, a, rfl⟩ := List.eq_nil_or_concat accesses
  · exact hasLookupCall_name key q first
  · rw [List.concat_eq_append, hasLookupCall_member]
    simp

end Grammar

/-- A written call of a function with a name of its own is recognised. -/
theorem Binding.hasCall_of_isName {function key : Text} {q : CodePoint}
    (hfunction : Lexeme.IsName function) (hwords : function ∉ Grammar.expressionWords)
    (hkey : key.isEncodable = true) (hq : q = .scalar '\x22' ∨ q = .scalar '\x27') :
    hasCall function (lookupCall key function [q]) = .ok true := by
  have hnone : ∀ a ∈ ([] : List Access), Lexeme.IsName a.name := List.forall_mem_nil _
  have hpath : memberPath function [] = function := List.append_nil function
  have hparse := Grammar.parse?_lookupCall hq key hfunction hwords hnone
  have hlookup := Grammar.hasLookupCall_lookupNode key q function []
  have hmark : Text.isEncodable [q] = true := by rcases hq with rfl | rfl <;> rfl
  have hencodable : (lookupCall key function [q]).isEncodable = true := by
    simp [lookupCall, Text.isEncodable_iff.mpr hfunction.isScalar, Literal.isEncodable_quote hmark,
      hkey, Text.isEncodable_ofString]
  rw [hpath] at hparse hlookup
  rw [hasCall, if_pos hencodable, hparse, Option.any_some, hlookup]
  rfl

/-- A written call is one expression that is a call, for every name and path of members. It is
recognised, and left alone, exactly if the function has a name of its own: of the path to a member
only the last name is compared with the function. -/
theorem Binding.hasCall_lookupCall {first : Text} {accesses : List Access} {key quote : Text}
    (hfirst : Lexeme.IsName first) (hwords : first ∉ Grammar.expressionWords)
    (haccesses : ∀ a ∈ accesses, Lexeme.IsName a.name) (hkey : key.isEncodable = true)
    (hquote : quote = "\"" ∨ quote = "'") :
    let function := memberPath first accesses
    let call := lookupCall key function quote
    (∃ value, parse? call = some value ∧ value.kind = .call) ∧
    hasCall function call = .ok accesses.isEmpty ∧
    (accesses = [] → ∀ ns common q, localize ⟨ns, common, function⟩ q call = pure call) := by
  intro function call
  obtain ⟨q, rfl, hq⟩ : ∃ q, quote = [q] ∧ (q = .scalar '\x22' ∨ q = .scalar '\x27') := by
    rcases hquote with rfl | rfl
    · exact ⟨_, rfl, .inl rfl⟩
    · exact ⟨_, rfl, .inr rfl⟩
  have hparse := Grammar.parse?_lookupCall hq key hfirst hwords haccesses
  have hlookup := Grammar.hasLookupCall_lookupNode key q first accesses
  have hencodable : call.isEncodable = true := by
    have hmark : Text.isEncodable [q] = true := by rcases hq with rfl | rfl <;> rfl
    simp [call, function, lookupCall, Grammar.encodable_memberPath hfirst haccesses,
      Literal.isEncodable_quote hmark, hkey, Text.isEncodable_ofString]
  refine ⟨⟨_, hparse, rfl⟩, ?_, ?_⟩
  · rw [hasCall, if_pos hencodable, hparse, Option.any_some, hlookup]
  · rintro rfl ns common _
    simp only [localize, hencodable, Bool.not_true, Bool.false_eq_true, ite_false]
    rw [hparse]
    exact if_pos hlookup

theorem Binding.hasCall_lookupCall_name :
    let call := lookupCall "test.中" "$t" "'"
    hasCall "$t" call = .ok true ∧
      localize ⟨"test", .ofList [] "common", "$t"⟩ "\"" call = pure call := by
  have hname : Lexeme.IsName "$t" := ⟨.scalar '$', "t", rfl, by decide, by decide⟩
  have hnone : ∀ a ∈ ([] : List Access), Lexeme.IsName a.name := by simp
  have hkey : Text.isEncodable "test.中" = true := by decide
  obtain ⟨-, hcall, hkept⟩ :=
    hasCall_lookupCall hname (by decide) hnone hkey (.inr rfl : ("'" : Text) = "\"" ∨ _)
  exact ⟨hcall, hkept rfl "test" (.ofList [] "common") "\""⟩

theorem Binding.localize_lookupCall_member :
    let call := lookupCall "test.中" "this.$t" "'"
    (parse? call).any (fun value => value.kind == .call) = true ∧
      hasCall "this.$t" call = .ok false ∧
      (localize ⟨"test", .ofList [] "common", "this.$t"⟩ "'" call).texts = ["test.中"] ∧
      (localize ⟨"test", .ofList [] "common", "this.$t"⟩ "'" call).result =
        .ok "this.$t(this.$t('test.test.中'))" := by
  intro call
  decide +kernel

end LocaleLift.Script
