import LocaleLift.Script.Binding
import LocaleLift.Proofs.Script.Tree
import LocaleLift.Proofs.Text.Boundary
import LocaleLift.Proofs.Text.Inert

/-! What is expected of a parser, and what it means for the trees of expressions. -/
namespace LocaleLift.Script

open Utf8 (Boundary)

/-- A proper node. If it is a string, its text stands between quotes, and if it is a template, it
begins with a backquote. -/
structure Node.Parsed (source : Text) (n : Node) : Prop extends n.Proper (Boundary source) where
  literal : n.kind = .string → (n.text source).IsQuoted
  backquoted : n.kind = .template → Utf8.slice n.start (n.start + 1) source = "\x60"

theorem Node.Parsed.withField {source : Text} {n : Node} (h : n.Parsed source) (f : Field) :
    (n.withField f).Parsed source where
  toProper := h.toProper.withField f
  literal hk := by
    rw [Node.kind_withField] at hk
    rw [Node.text, Node.start_withField, Node.stop_withField]
    exact h.literal hk
  backquoted hk := by
    rw [Node.kind_withField] at hk
    rw [Node.start_withField]
    exact h.backquoted hk

/-- Whether a scanner reads strings: it reads them as everywhere, or, where elements can be written,
as the values of their attributes. -/
def ReadsString (elements : Prop) (s : Scanner) : Prop :=
  s = Lexeme.string ∨ elements ∧ s = Lexeme.attributeString

theorem ReadsString.isQuoted {elements : Prop} {s : Scanner} (h : ReadsString elements s)
    {t : Text} {n : Nat} (hn : s t = some n) : Text.IsQuoted (t.take n) := by
  rcases h with rfl | ⟨-, rfl⟩
  · exact Lexeme.exists_of_string hn
  · exact Lexeme.exists_of_attributeString hn

/-- What a scanner finds at an offset ends at another one. -/
def Spans (source : Text) (s : Scanner) (start stop : Nat) : Prop :=
  ∃ before rest k, source = before ++ rest ∧ Utf8.size before = start ∧ s rest = some k ∧
    stop = start + Utf8.size (rest.take k)

/-- A node of a tree in which attributes stand only where elements can be written, and strings are
what scanners have found. -/
structure Node.Read (elements : Prop) (source : Text) (n : Node) : Prop extends
    n.Parsed source where
  admitted : n.kind = .attribute → elements
  scanned : n.kind = .string → ∃ s, ReadsString elements s ∧ Spans source s n.start n.stop

theorem Node.Read.withField {elements : Prop} {source : Text} {n : Node}
    (h : n.Read elements source) (f : Field) : (n.withField f).Read elements source where
  toParsed := h.toParsed.withField f
  admitted hk := h.admitted (n.kind_withField f ▸ hk)
  scanned hk := by
    rw [Node.start_withField, Node.stop_withField]
    exact h.scanned (n.kind_withField f ▸ hk)

/-- The trees of a parser are proper, its nodes part the source at boundaries, and its strings are what
scanners find. -/
class Parser.IsSound [Parser] : Prop where
  read {d : Dialect} {source : Text} {root : Node} (h : parse? d source = some root) :
    root.All (Node.Read (d.hasElements = true) source)

variable [Parser] [Parser.IsSound]

theorem parse?_parsed {d : Dialect} {source : Text} {root : Node}
    (h : parse? d source = some root) : root.All (Node.Parsed source) :=
  (Parser.IsSound.read h).imp fun _ hn => hn.toParsed

theorem parse?_spaced {d : Dialect} {source : Text} {root : Node}
    (h : parse? d source = some root) : root.All (Node.Spaced (Boundary source)) :=
  (parse?_parsed h).imp fun _ hn => hn.toProper.spaced

/-- So is the tree of an expression, in the script around it, which has no elements. -/
theorem Binding.parse?_read {expression : Text} {value : Node}
    (h : Binding.parse? expression = some value) :
    value.All (Node.Read False (enclose expression)) := by
  obtain ⟨root, hroot, h⟩ := Option.bind_eq_some_iff.mp h
  have hproper : root.All (Node.Read False (enclose expression)) := by
    have hread := Parser.IsSound.read hroot
    rwa [eq_false (show ¬ Dialect.hasElements .typescript = true by decide)] at hread
  split at h
  · rename_i declaration hchildren
    have hdeclaration := hproper.child (c := declaration) (by simp [hchildren])
    by_cases hkind : (declaration.kind != .declaration) = true
    · simp [hkind] at h
    · dsimp only at h
      rw [if_neg hkind] at h
      split at h
      · rename_i declarator hdeclarators
        obtain ⟨v, hv, h⟩ := Option.bind_eq_some_iff.mp h
        have hmem : declarator ∈ declaration.children.filter (·.kind == .declarator) := by
          simp [hdeclarators]
        have hdeclarator := hdeclaration.child (List.mem_filter.mp hmem).1
        split at h
        · obtain rfl := Option.some.inj h
          exact hdeclarator.child (List.mem_of_find?_eq_some hv)
        · cases h
      · cases h
  · cases h

theorem Binding.parse?_parsed {expression : Text} {value : Node}
    (h : Binding.parse? expression = some value) :
    value.All (Node.Parsed (enclose expression)) :=
  (parse?_read h).imp fun _ hn => hn.toParsed

theorem Binding.parse?_spaced {expression : Text} {value : Node}
    (h : Binding.parse? expression = some value) :
    value.All (Node.Spaced (Boundary (enclose expression))) :=
  (parse?_parsed h).imp fun _ hn => hn.toProper.spaced

end LocaleLift.Script
