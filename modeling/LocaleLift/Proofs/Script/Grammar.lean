import LocaleLift.Proofs.Script.Growth

/-! The script grammar builds proper trees only. -/
namespace LocaleLift.Script

open Rule
open Utf8 (Boundary)

namespace Grammar

private theorem readsBackquote : ReadsBackquote (Lexeme.mark "\x60" []) := by
  intro t n h
  obtain ⟨rest, hrest, h⟩ := Option.bind_eq_some_iff.mp h
  have hn : n = 1 := by
    split at h
    · exact (Option.some.inj h).symm
    · exact (Option.some.inj h).symm
  subst hn
  cases t with
  | nil => simp [Text.ofString, Text.dropStart?] at hrest
  | cons c t =>
    by_cases hc : CodePoint.scalar '\x60' = c
    · subst hc
      rfl
    · simp [Text.ofString, Text.dropStart?, hc] at hrest

/-- All that a dialect reaches: elements are among it only where they can be written. -/
def reach (d : Dialect) : Reach Phrase where
  phrase p := p = .element → d.hasElements = true
  elements := d.hasElements = true

section Sound

variable {d : Dialect}

@[simp] private theorem reach_phrase {p : Phrase} :
    (reach d).phrase p ↔ (p = .element → d.hasElements = true) := Iff.rfl

@[simp] private theorem reach_elements : (reach d).elements ↔ d.hasElements = true := Iff.rfl

@[simp] private theorem string_isLiteral :
    (Rule.scan (P := Phrase) Lexeme.string).IsLiteral (reach d) :=
  .inl rfl

private theorem attributeString_isLiteral (h : d.hasElements = true) :
    (Rule.scan (P := Phrase) Lexeme.attributeString).IsLiteral (reach d) :=
  .inr ⟨h, rfl⟩

@[simp] private theorem listOf_sound {x : Production} :
    (listOf x).Sound (reach d) ↔ x.Sound (reach d) := by
  simp [listOf, mark]

@[simp] private theorem nonemptyListOf_sound {x : Production} :
    (nonemptyListOf x).Sound (reach d) ↔ x.Sound (reach d) := by
  simp [nonemptyListOf, mark]

@[simp] private theorem sequence_sound : sequence.Sound (reach d) := by
  simp [sequence, expression, mark]

@[simp] private theorem statements_sound : statements.Sound (reach d) := by
  simp [statements, statement, markupComments]

private theorem template_sound : template.Sound (reach d) := by
  simp only [template, sound_tree, sound_seq, sound_scan, sound_many, sound_alt, sound_node,
    sequence_sound, mark, sound_token, true_and, and_true]
  refine ⟨⟨(fun h => by cases h), (fun h => by cases h), (fun h => by cases h)⟩, fun _ => ?_,
    (fun h => by cases h), (fun h => by cases h)⟩
  exact ⟨readsBackquote, readsBackquote, trivial, rfl⟩

@[simp] private theorem name_sound : (name d).Sound (reach d) := by
  simp [name]

@[simp] private theorem resultType_sound : (resultType d).Sound (reach d) := by
  simp [resultType, word, sameLine]

@[simp] private theorem callSignature_sound : (callSignature d).Sound (reach d) := by
  rw [callSignature]
  split <;> simp [mark]

@[simp] private theorem binder_sound : (binder d).Sound (reach d) := by
  simp [binder, objectPattern, arrayPattern, restPattern, withDefault, initializer, expression,
    equals, markExcept, mark]

@[simp] private theorem simple_sound : (simple d).Sound (reach d) := by
  simp [simple, Grammar.function, functionNamed, group, string, valueName, privateName, oneWord,
    word, mark, sameLine]

/-- Templates are quoted, and growth goes on by single nodes, in every phrase. -/
theorem production_sound (d : Dialect) (p : Phrase) (hp : (reach d).phrase p) :
    (production d p).Sound (reach d) := by
  cases p with
  | template => exact template_sound
  | statement =>
    simp [production, anyStatement, wordStatement, importStatement, exportStatement, memberLoop,
      countingLoop, variableDeclaration, variablesUpTo, valuedDeclarator, bareDeclarator,
      exportClause, exportItem, importItem, fromClause, importAttributes, moduleName, block,
      statement, group, string, pattern, objectPattern, arrayPattern, restPattern, withDefault,
      target, memberTail, subscriptTail, initializer, memberName, privateName,
      typeAfterColon, expression, semicolon, plainSemicolon, equals, markExcept, mark, word,
      oneWord, sameLine]
  | declaration =>
    simp [production, Grammar.declaration, functionNamed, classNamed, className, classMember,
      method, modifiers, indexMember, mappedClause, typeDeclaration, enumeration, path,
      functionHead, variableStatement, variablesUpTo, valuedDeclarator, bareDeclarator, block,
      string, initializer, memberName, typeAfterColon, expression, semicolon, plainSemicolon,
      equals, markExcept, mark, word, oneWord, sameLine]
  | block => simp [production, Grammar.block, mark]
  | expression results =>
    simp [production, operation, operator, markupComments, expression, mark, word, oneWord,
      sameLine]
  | operand results =>
    simp [production, Grammar.operand, patternAssignment, objectPattern, arrayPattern, restPattern,
      withDefault, initializer, chained, tail, arrow, assignment, memberTail, subscriptTail,
      callTail, templateTail, nonNullTail, instantiationTail, valueName, memberName, privateName,
      expression, equals, markExcept, mark, word, oneWord, sameLine]
  | newTarget =>
    simp [production, Grammar.newTarget, memberTail, subscriptTail, nonNullTail, memberName,
      privateName, markExcept, mark, word, sameLine]
  | object =>
    simp [production, Grammar.object, method, modifiers, methodWords, spread, shorthand,
      expression, mark, oneWord]
  | array => simp [production, Grammar.array, spread, expression, mark]
  | arguments => simp [production, Grammar.arguments, spread, expression, mark]
  | function =>
    simp [production, Grammar.function, functionNamed, mark, word, sameLine]
  | classExpression =>
    simp [production, Grammar.classExpression, classNamed, className, classMember, method,
      modifiers, indexMember, mappedClause, initializer, typeAfterColon, expression, semicolon,
      plainSemicolon, equals, markExcept, mark, word, oneWord]
  | element =>
    have helements : d.hasElements = true := hp rfl
    simp [production, Grammar.element, elementChild, elementName, elementAttribute, spread,
      expression, mark, helements, attributeString_isLiteral]
  | pattern =>
    simp [production, Grammar.pattern, objectPattern, arrayPattern, restPattern, withDefault,
      target, memberTail, subscriptTail, initializer, memberName, privateName, expression,
      equals, markExcept, mark, oneWord]
  | parameters =>
    simp [production, Grammar.parameters, parameter, Grammar.pattern, objectPattern, arrayPattern,
      restPattern, withDefault, target, memberTail, subscriptTail, initializer, memberName,
      privateName, typeAfterColon, expression, equals, markExcept, mark, word, oneWord]
  | decorator =>
    simp [production, Grammar.decorator, memberTail, callTail, group, memberName, privateName,
      markExcept, mark]
  | propertyName =>
    simp [production, Grammar.propertyName, memberName, privateName, string, expression, mark]
  | type => simp [production, Grammar.type, markExcept, mark, word, sameLine]
  | typeOperand =>
    simp [production, Grammar.typeOperand, functionType, queryType, importedType, literalType,
      templateType, namedType, tupleMember, string, memberName, privateName, markExcept,
      mark, word, oneWord, sameLine]
  | typeArguments => simp [production, Grammar.typeArguments, mark]
  | typeParameters =>
    simp [production, Grammar.typeParameters, equals, markExcept, mark, word,
      oneWord]
  | objectType =>
    simp [production, Grammar.objectType, typeMember, indexMember, mappedClause, modifiers,
      typeAfterColon, plainSemicolon, mark, word, oneWord]

end Sound

end Grammar

/-- The syntax tree of a source is proper, its nodes part the source at boundaries, and its strings
are what scanners have found. -/
theorem Grammar.parse?_read {d : Dialect} {source : Text} {root : Node}
    (h : Grammar.parse? d source = some root) :
    root.All (Node.Read (d.hasElements = true) source) := by
  have hsource : Grammar.source.Sound (Grammar.reach d) := by simp [Grammar.source]
  have hstart : Cursor.In source ⟨0, source⟩ := ⟨[], rfl, rfl⟩
  rw [Grammar.parse?] at h
  split at h
  · rename_i c n hrun
    obtain rfl : n = root := Option.some.inj h
    have hbuilds := run_builds (Grammar.production_sound d) hsource hstart hrun
    exact hbuilds.read n (List.mem_singleton.mpr rfl)
  · cases h

instance : Parser.IsSound := ⟨Grammar.parse?_read⟩

end LocaleLift.Script
