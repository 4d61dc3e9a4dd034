import LocaleLift.Proofs.Script.Parser

/-! Rules of a certain shape build proper trees only, and those of the script grammar have it. -/
namespace LocaleLift.Script

open Utf8 (Boundary)

namespace Cursor

variable {source : Text} {c : Cursor}

def In (source : Text) (c : Cursor) : Prop :=
  ∃ before, source = before ++ c.rest ∧ Utf8.size before = c.offset

theorem In.boundary (h : c.In source) : Boundary source c.offset := by
  obtain ⟨before, hs, hb⟩ := h
  exact ⟨before, c.rest, hs, hb⟩

theorem In.advance (h : c.In source) (n : Nat) : (c.advance n).In source := by
  obtain ⟨before, rfl, hb⟩ := h
  refine ⟨before ++ c.rest.take n, ?_, ?_⟩
  · rw [List.append_assoc, Cursor.advance, List.take_append_drop]
  · rw [Utf8.size_append, hb, Cursor.advance]

theorem In.slice (h : c.In source) (n : Nat) :
    Utf8.slice c.offset (c.advance n).offset source = c.rest.take n := by
  obtain ⟨before, hs, hb⟩ := h
  have hparts : source = before ++ c.rest.take n ++ c.rest.drop n := by
    rw [List.append_assoc, List.take_append_drop, hs]
  rw [Cursor.advance, ← hb, ← Utf8.size_append, hparts, Utf8.slice_append]

theorem le_advance (c : Cursor) (n : Nat) : c.offset ≤ (c.advance n).offset :=
  Nat.le_add_right _ _

end Cursor

theorem Cursor.In.spans {source : Text} {c : Cursor} (h : c.In source) {s : Scanner} {n : Nat}
    (hn : s c.rest = some n) : Spans source s c.offset (c.advance n).offset := by
  obtain ⟨before, hsource, hbefore⟩ := h
  exact ⟨before, c.rest, n, hsource, hbefore, hn, rfl⟩

namespace Rule

variable {P : Type}

/-- A rule whose nodes are all of one kind. -/
def Yields (k : Kind) : Rule P → Prop
  | fail | done | gap | scan _ | ahead _ | absent _ => True
  | seq x y | alt x y => x.Yields k ∧ y.Yields k
  | many x | field _ x => x.Yields k
  | node k' _ => k' = k
  | phrase _ | grow .. | grown .. => False

def ReadsBackquote (s : Scanner) : Prop :=
  ∀ t n, s t = some n → t.take n = "\x60"

def IsQuoted : Rule P → Prop
  | seq (scan s) (seq y (scan t)) => ReadsBackquote s ∧ ReadsBackquote t ∧ y.Yields .substitution
  | _ => False

/-- What the rules of a grammar may come to: the phrases, and whether elements are among them. -/
structure Reach (P : Type) where
  phrase : P → Prop
  elements : Prop

def IsLiteral (w : Reach P) : Rule P → Prop
  | scan s => ReadsString w.elements s
  | _ => False

/-- A choice among single nodes, none of which is a template or a string. -/
def IsTail : Rule P → Prop
  | fail => True
  | alt x y => x.IsTail ∧ y.IsTail
  | node k _ => k ≠ .template ∧ k ≠ .string
  | _ => False

/-- Templates and strings are quoted, growth goes on by single nodes, attributes stand only where
elements may, and nothing out of reach is asked for. -/
def Sound (w : Reach P) : Rule P → Prop
  | fail | done | gap | scan _ | ahead _ | absent _ => True
  | phrase p => w.phrase p
  | seq x y | alt x y => x.Sound w ∧ y.Sound w
  | many x | field _ x => x.Sound w
  | node k x => x.Sound w ∧ (k = .template → x.IsQuoted) ∧ (k = .string → x.IsLiteral w) ∧
      (k = .attribute → w.elements)
  | grow x _ y => x.Sound w ∧ y.Sound w ∧ y.IsTail
  | grown .. => False

section Combinators

variable {x y : Rule P} {w : Reach P}

@[simp] theorem sound_seq : (x >> y).Sound w ↔ x.Sound w ∧ y.Sound w := Iff.rfl

@[simp] theorem sound_alt : (x <|> y).Sound w ↔ x.Sound w ∧ y.Sound w := Iff.rfl

@[simp] theorem sound_scan (s : Scanner) : (scan s : Rule P).Sound w := trivial

@[simp] theorem sound_phrase (p : P) : (phrase p).Sound w ↔ w.phrase p := Iff.rfl

@[simp] theorem sound_ahead : (ahead x).Sound w := trivial

@[simp] theorem sound_absent : (absent x).Sound w := trivial

@[simp] theorem sound_many : (many x).Sound w ↔ x.Sound w := Iff.rfl

@[simp] theorem sound_field (f : Field) : (field f x).Sound w ↔ x.Sound w := Iff.rfl

@[simp] theorem sound_node (k : Kind) : (node k x).Sound w ↔ x.Sound w ∧
    (k = .template → x.IsQuoted) ∧ (k = .string → x.IsLiteral w) ∧ (k = .attribute → w.elements) :=
  Iff.rfl

@[simp] theorem sound_grow (admits : Kind → Bool) :
    (grow x admits y).Sound w ↔ x.Sound w ∧ y.Sound w ∧ y.IsTail := Iff.rfl

@[simp] theorem sound_opt : (opt x).Sound w ↔ x.Sound w :=
  ⟨And.left, fun h => ⟨h, trivial⟩⟩

@[simp] theorem sound_when (condition : Bool) :
    (when condition x).Sound w ↔ (condition = true → x.Sound w) := by
  cases condition <;> simp [when, Sound]

@[simp] theorem sound_token (s : Scanner) : (token s : Rule P).Sound w := ⟨trivial, trivial⟩

@[simp] theorem sound_tree (k : Kind) : (tree k x).Sound w ↔ x.Sound w ∧
    (k = .template → x.IsQuoted) ∧ (k = .string → x.IsLiteral w) ∧ (k = .attribute → w.elements) :=
  ⟨And.right, fun h => ⟨trivial, h⟩⟩

@[simp] theorem sound_chain : (chain x y).Sound w ↔ x.Sound w ∧ y.Sound w ∧ y.IsTail :=
  ⟨And.right, fun h => ⟨trivial, h⟩⟩

@[simp] theorem isTail_alt : (x <|> y).IsTail ↔ x.IsTail ∧ y.IsTail := Iff.rfl

@[simp] theorem isTail_node (k : Kind) : (node k x).IsTail ↔ k ≠ .template ∧ k ≠ .string :=
  Iff.rfl

@[simp] theorem isTail_when (condition : Bool) :
    (when condition x).IsTail ↔ (condition = true → x.IsTail) := by
  cases condition <;> simp [when, IsTail]

end Combinators

section Run

variable {between : Text → Nat} {g : P → Rule P} {depth : Nat} {c e : Cursor} {ns : List Node}

attribute [local simp] run

theorem run_scan {s : Scanner} (h : run between g depth (scan s) c = some (e, ns)) :
    ∃ n, s c.rest = some n ∧ e = c.advance n ∧ ns = [] := by
  cases depth with
  | zero => simp at h
  | succ depth =>
    rw [run, Option.map_eq_some_iff] at h
    obtain ⟨n, hs, h⟩ := h
    obtain ⟨rfl, rfl⟩ := Prod.mk.injEq .. ▸ h
    exact ⟨n, hs, rfl, rfl⟩

private def IsLeaf : Rule P → Prop
  | fail | done | gap | scan _ | ahead _ | absent _ => True
  | _ => False

private theorem run_leaf {r : Rule P} (h : run between g depth r c = some (e, ns))
    (hr : r.IsLeaf) : ns = [] ∧ ∃ n, e = c.advance n := by
  have hstay (h : some (c, ([] : List Node)) = some (e, ns)) :
      ns = [] ∧ ∃ n, e = c.advance n := by
    obtain ⟨rfl, rfl⟩ := Prod.mk.injEq .. ▸ Option.some.inj h
    exact ⟨rfl, 0, rfl⟩
  cases depth with
  | zero => simp at h
  | succ depth =>
    cases r with
    | fail => simp at h
    | done =>
      rw [run] at h
      exact hstay h
    | gap =>
      rw [run] at h
      obtain ⟨rfl, rfl⟩ := Prod.mk.injEq .. ▸ Option.some.inj h
      exact ⟨rfl, _, rfl⟩
    | scan s =>
      obtain ⟨n, -, he, hn⟩ := run_scan h
      exact ⟨hn, n, he⟩
    | ahead x =>
      rw [run, Option.map_eq_some_iff] at h
      obtain ⟨_, _, h⟩ := h
      exact hstay (congrArg some h)
    | absent x =>
      rw [run] at h
      split at h
      · cases h
      · exact hstay h
    | _ => exact hr.elim

theorem run_seq {x y : Rule P} (h : run between g depth (seq x y) c = some (e, ns)) :
    ∃ less d xs ys, less < depth ∧ run between g less x c = some (d, xs) ∧
      run between g less y d = some (e, ys) ∧ ns = xs ++ ys := by
  cases depth with
  | zero => simp at h
  | succ depth =>
    rw [run] at h
    split at h
    · cases h
    · rename_i d xs hx
      split at h
      · cases h
      · rename_i e' ys hy
        obtain ⟨rfl, rfl⟩ := Prod.mk.injEq .. ▸ Option.some.inj h
        exact ⟨depth, d, xs, ys, Nat.lt_succ_self depth, hx, hy, rfl⟩

theorem run_alt {x y : Rule P} (h : run between g depth (alt x y) c = some (e, ns)) :
    ∃ less, less < depth ∧
      (run between g less x c = some (e, ns) ∨ run between g less y c = some (e, ns)) := by
  cases depth with
  | zero => simp at h
  | succ depth =>
    rw [run] at h
    split at h
    · exact ⟨depth, Nat.lt_succ_self depth, .inr h⟩
    · rename_i hx
      exact ⟨depth, Nat.lt_succ_self depth, .inl (hx.trans h)⟩

theorem run_many {x : Rule P} (h : run between g depth (many x) c = some (e, ns)) :
    (e = c ∧ ns = []) ∨ ∃ less d xs ys, less < depth ∧
      run between g less x c = some (d, xs) ∧ run between g less (many x) d = some (e, ys) ∧
      ns = xs ++ ys := by
  cases depth with
  | zero => simp at h
  | succ depth =>
    rw [run] at h
    split at h
    · obtain ⟨rfl, rfl⟩ := Prod.mk.injEq .. ▸ Option.some.inj h
      exact .inl ⟨rfl, rfl⟩
    · rename_i d xs hx
      split at h
      · cases h
      · rename_i e' ys hy
        obtain ⟨rfl, rfl⟩ := Prod.mk.injEq .. ▸ Option.some.inj h
        exact .inr ⟨depth, d, xs, ys, Nat.lt_succ_self depth, hx, hy, rfl⟩

theorem run_node {k : Kind} {x : Rule P} (h : run between g depth (node k x) c = some (e, ns)) :
    ∃ less xs, less < depth ∧ run between g less x c = some (e, xs) ∧
      ns = [.mk k none c.offset e.offset xs] := by
  cases depth with
  | zero => simp at h
  | succ depth =>
    rw [run, Option.map_eq_some_iff] at h
    obtain ⟨⟨d, xs⟩, hx, h⟩ := h
    obtain ⟨rfl, rfl⟩ := Prod.mk.injEq .. ▸ h
    exact ⟨depth, xs, Nat.lt_succ_self depth, hx, rfl⟩

theorem run_field {f : Field} {x : Rule P}
    (h : run between g depth (field f x) c = some (e, ns)) :
    ∃ less xs, less < depth ∧ run between g less x c = some (e, xs) ∧
      ns = xs.map (·.withField f) := by
  cases depth with
  | zero => simp at h
  | succ depth =>
    rw [run, Option.map_eq_some_iff] at h
    obtain ⟨⟨d, xs⟩, hx, h⟩ := h
    obtain ⟨rfl, rfl⟩ := Prod.mk.injEq .. ▸ h
    exact ⟨depth, xs, Nat.lt_succ_self depth, hx, rfl⟩

theorem run_phrase {p : P} (h : run between g depth (phrase p) c = some (e, ns)) :
    ∃ less, less < depth ∧ run between g less (g p) c = some (e, ns) := by
  cases depth with
  | zero => simp at h
  | succ depth => exact ⟨depth, Nat.lt_succ_self depth, h⟩

theorem run_grow {x y : Rule P} {admits : Kind → Bool}
    (h : run between g depth (grow x admits y) c = some (e, ns)) :
    ∃ less d xs, less < depth ∧ run between g less x c = some (d, xs) ∧
      run between g less (grown c.offset xs admits y) d = some (e, ns) := by
  cases depth with
  | zero => simp at h
  | succ depth =>
    rw [run] at h
    split at h
    · cases h
    · rename_i d xs hx
      exact ⟨depth, d, xs, Nat.lt_succ_self depth, hx, h⟩

theorem run_grown {start : Nat} {heads : List Node} {admits : Kind → Bool} {y : Rule P}
    (h : run between g depth (grown start heads admits y) c = some (e, ns)) :
    (e = c ∧ ns = heads) ∨ ∃ less d ys, less < depth ∧ run between g less y c = some (d, ys) ∧
      run between g less (grown start (ys.map (adopt start heads)) admits y) d = some (e, ns) := by
  cases depth with
  | zero => simp at h
  | succ depth =>
    have hstay (h : some (c, heads) = some (e, ns)) : e = c ∧ ns = heads := by
      obtain ⟨rfl, rfl⟩ := Prod.mk.injEq .. ▸ Option.some.inj h
      exact ⟨rfl, rfl⟩
    rw [run] at h
    split at h
    · split at h
      · exact .inl (hstay h)
      · rename_i d ys hy
        exact .inr ⟨depth, d, ys, Nat.lt_succ_self depth, hy, h⟩
    · exact .inl (hstay h)

theorem kind_of_yields {k : Kind} {r : Rule P} (hr : r.Yields k)
    (h : run between g depth r c = some (e, ns)) : ∀ n ∈ ns, n.kind = k := by
  induction depth using Nat.strongRecOn generalizing r c e ns with
  | ind depth ih =>
    cases r with
    | fail | done | gap | scan _ | ahead _ | absent _ =>
      obtain ⟨rfl, -⟩ := run_leaf h trivial
      simp
    | seq x y =>
      obtain ⟨less, d, xs, ys, hless, hx, hy, rfl⟩ := run_seq h
      intro n hn
      rcases List.mem_append.mp hn with hn | hn
      · exact ih less hless hr.1 hx n hn
      · exact ih less hless hr.2 hy n hn
    | alt x y =>
      obtain ⟨less, hless, hx | hy⟩ := run_alt h
      · exact ih less hless hr.1 hx
      · exact ih less hless hr.2 hy
    | many x =>
      obtain ⟨_, rfl⟩ | ⟨less, d, xs, ys, hless, hx, hxs, rfl⟩ := run_many h
      · simp
      · intro n hn
        rcases List.mem_append.mp hn with hn | hn
        · exact ih less hless (r := x) hr hx n hn
        · exact ih less hless (r := .many x) hr hxs n hn
    | node k' x =>
      obtain ⟨less, xs, hless, hx, rfl⟩ := run_node h
      intro n hn
      rw [List.mem_singleton.mp hn]
      exact hr
    | field f x =>
      obtain ⟨less, xs, hless, hx, rfl⟩ := run_field h
      intro n hn
      obtain ⟨m, hm, rfl⟩ := List.mem_map.mp hn
      rw [Node.kind_withField]
      exact ih less hless (r := x) hr hx m hm
    | phrase p => exact hr.elim
    | grow x admits y => exact hr.elim
    | grown start heads admits y => exact hr.elim

end Run

/-- Nodes built from an offset up to a place in a source. -/
structure Builds (elements : Prop) (source : Text) (a : Nat) (d : Cursor) (ns : List Node) :
    Prop where
  cursor : d.In source
  ordered : Node.Ordered a d.offset ns
  read : ∀ n ∈ ns, n.All (Node.Read elements source)

namespace Builds

variable {elements : Prop} {source : Text} {a : Nat} {c d : Cursor} {ms ns : List Node}

theorem nil (hd : d.In source) (h : a ≤ d.offset) : Builds elements source a d [] :=
  ⟨hd, h, by simp⟩

theorem append (hm : Builds elements source a c ms) (hn : Builds elements source c.offset d ns) :
    Builds elements source a d (ms ++ ns) := by
  refine ⟨hn.cursor, hm.ordered.append hn.ordered, fun n h => ?_⟩
  rcases List.mem_append.mp h with h | h
  · exact hm.read n h
  · exact hn.read n h

theorem withField (h : Builds elements source a d ns) (f : Field) :
    Builds elements source a d (ns.map (·.withField f)) := by
  refine ⟨h.cursor, h.ordered.map (fun n => n.start_withField f) (fun n => n.stop_withField f), ?_⟩
  intro n hn
  obtain ⟨m, hm, rfl⟩ := List.mem_map.mp hn
  exact (h.read m hm).withField fun n hn => hn.withField f

/-- Nodes become the children of one that is no template and no string. -/
theorem node {k : Kind} (hk : k ≠ .template) (hs : k ≠ .string)
    (hattribute : k = .attribute → elements) (ha : Boundary source a) (f : Option Field)
    (h : Builds elements source a d ns) :
    Builds elements source a d [.mk k f a d.offset ns] := by
  refine ⟨h.cursor, ⟨Nat.le_refl a, h.ordered.le, Nat.le_refl d.offset⟩, fun n hn => ?_⟩
  rw [List.mem_singleton.mp hn]
  exact .mk ⟨⟨⟨ha, h.cursor.boundary, h.ordered, fun e => absurd e hk⟩, fun e => absurd e hs,
    fun e => absurd e hk⟩, hattribute, fun e => absurd e hs⟩ h.read

end Builds

section Run

variable {between : Text → Nat} {g : P → Rule P} {w : Reach P} {source : Text}

private theorem run_quoted (source : Text) {depth : Nat} {x : Rule P} {c e : Cursor}
    {ns : List Node} (hx : x.IsQuoted) (h : run between g depth x c = some (e, ns)) :
    ∃ less y d d', less < depth ∧ y.Yields .substitution ∧ (x.Sound w → y.Sound w) ∧
      (c.In source → d.In source) ∧ (d'.In source → e.In source) ∧
      run between g less y d = some (d', ns) ∧
      d.offset = c.offset + 1 ∧ e.offset = d'.offset + 1 ∧
      (c.In source → Utf8.slice c.offset (c.offset + 1) source = "\x60") := by
  unfold IsQuoted at hx
  split at hx
  · rename_i s y t
    obtain ⟨hs, ht, hy⟩ := hx
    obtain ⟨m, d, xs, ys, hm, hrs, hr, rfl⟩ := run_seq h
    obtain ⟨i, hi, rfl, rfl⟩ := run_scan hrs
    obtain ⟨less, d', ys, zs, hless, hry, hrt, rfl⟩ := run_seq hr
    obtain ⟨j, hj, rfl, rfl⟩ := run_scan hrt
    have hopen : (c.advance i).offset = c.offset + 1 := by
      rw [Cursor.advance, hs _ _ hi]
      rfl
    refine ⟨less, y, c.advance i, d', by omega, hy, fun h => h.2.1, fun h => h.advance i,
      fun h => h.advance j, ?_, hopen, ?_, fun h => ?_⟩
    · simpa using hry
    · rw [Cursor.advance, ht _ _ hj]
      rfl
    · rw [← hopen, h.slice, hs _ _ hi]
  · exact hx.elim

private theorem run_literal {depth : Nat} {x : Rule P} {c e : Cursor} {ns : List Node}
    (hx : x.IsLiteral w) (h : run between g depth x c = some (e, ns)) :
    ∃ s n, ReadsString w.elements s ∧ s c.rest = some n ∧ e = c.advance n := by
  cases x with
  | scan s =>
    obtain ⟨n, hn, he, -⟩ := run_scan h
    exact ⟨s, n, hx, hn, he⟩
  | _ => exact hx.elim

private theorem run_tail {depth : Nat} {y : Rule P} {c e : Cursor} {ns : List Node}
    (hy : y.IsTail) (hs : y.Sound w) (h : run between g depth y c = some (e, ns)) :
    ∃ less k x xs, less < depth ∧ k ≠ Kind.template ∧ k ≠ Kind.string ∧
      (k = .attribute → w.elements) ∧ x.Sound w ∧
      run between g less x c = some (e, xs) ∧ ns = [.mk k none c.offset e.offset xs] := by
  induction depth using Nat.strongRecOn generalizing y with
  | ind depth ih =>
    cases y with
    | fail =>
      cases depth <;> simp [run] at h
    | alt x y =>
      obtain ⟨less, hless, hx | hy'⟩ := run_alt h
      · obtain ⟨m, k, z, zs, hm, hz⟩ := ih less hless hy.1 hs.1 hx
        exact ⟨m, k, z, zs, Nat.lt_trans hm hless, hz⟩
      · obtain ⟨m, k, z, zs, hm, hz⟩ := ih less hless hy.2 hs.2 hy'
        exact ⟨m, k, z, zs, Nat.lt_trans hm hless, hz⟩
    | node k x =>
      obtain ⟨less, xs, hless, hx, rfl⟩ := run_node h
      exact ⟨less, k, x, xs, hless, hy.1, hy.2, hs.2.2.2, hs.1, hx, rfl⟩
    | _ => exact hy.elim

/-- The rules of all smaller depths build proper trees. -/
private def BuildsBelow (between : Text → Nat) (g : P → Rule P) (w : Reach P) (source : Text)
    (depth : Nat) : Prop :=
  ∀ less < depth, ∀ {r : Rule P} {c e : Cursor} {ns : List Node}, r.Sound w → c.In source →
    run between g less r c = some (e, ns) → Builds w.elements source c.offset e ns

private theorem grown_builds {depth bound start : Nat} {heads ns : List Node}
    {admits : Kind → Bool} {y : Rule P} {c e : Cursor}
    (ih : BuildsBelow between g w source bound) (hbound : depth ≤ bound) (hy : y.IsTail)
    (hs : y.Sound w) (hstart : Boundary source start)
    (hheads : Builds w.elements source start c heads)
    (h : run between g depth (grown start heads admits y) c = some (e, ns)) :
    Builds w.elements source start e ns := by
  induction depth using Nat.strongRecOn generalizing heads c with
  | ind depth step =>
    obtain ⟨rfl, rfl⟩ | ⟨less, d, ys, hless, hrun, hrest⟩ := run_grown h
    · exact hheads
    · obtain ⟨m, k, x, xs, hm, hk, hstring, hattribute, hx, hrx, rfl⟩ := run_tail hy hs hrun
      have hxs := ih m (by omega) hx hheads.cursor hrx
      refine step less hless (by omega) ?_ hrest
      rw [List.map_singleton, adopt]
      refine Builds.node hk hstring hattribute hstart none (Builds.append ?_ hxs)
      split
      · exact hheads.withField _
      · exact hheads

/-- What a sound rule matches is built into proper trees. -/
theorem run_builds {r : Rule P} (hg : ∀ p, w.phrase p → (g p).Sound w) (hr : r.Sound w)
    {depth : Nat} {c e : Cursor} {ns : List Node} (hc : c.In source)
    (h : run between g depth r c = some (e, ns)) : Builds w.elements source c.offset e ns := by
  induction depth using Nat.strongRecOn generalizing r c e ns with
  | ind depth ih =>
    have below : BuildsBelow between g w source depth := fun less hless _ _ _ _ hr hc h =>
      ih less hless hr hc h
    cases r with
    | fail | done | gap | scan _ | ahead _ | absent _ =>
      obtain ⟨rfl, n, rfl⟩ := run_leaf h trivial
      exact .nil (hc.advance n) (c.le_advance n)
    | phrase p =>
      obtain ⟨less, hless, h⟩ := run_phrase h
      exact below less hless (hg p hr) hc h
    | seq x y =>
      obtain ⟨less, d, xs, ys, hless, hx, hy, rfl⟩ := run_seq h
      have hxs := below less hless hr.1 hc hx
      exact hxs.append (below less hless hr.2 hxs.cursor hy)
    | alt x y =>
      obtain ⟨less, hless, hx | hy⟩ := run_alt h
      · exact below less hless hr.1 hc hx
      · exact below less hless hr.2 hc hy
    | many x =>
      obtain ⟨rfl, rfl⟩ | ⟨less, d, xs, ys, hless, hx, hy, rfl⟩ := run_many h
      · exact .nil hc (Nat.le_refl _)
      · have hxs := below less hless (r := x) hr hc hx
        exact hxs.append (below less hless (r := .many x) hr hxs.cursor hy)
    | field f x =>
      obtain ⟨less, xs, hless, hx, rfl⟩ := run_field h
      exact (below less hless (r := x) hr hc hx).withField f
    | grow x admits y =>
      obtain ⟨hx, hs, hy⟩ := hr
      obtain ⟨less, d, xs, hless, hrx, hrest⟩ := run_grow h
      exact grown_builds below (Nat.le_of_lt hless) hy hs hc.boundary
        (below less hless hx hc hrx) hrest
    | grown start heads admits y => exact hr.elim
    | node k x =>
      obtain ⟨less, xs, hless, hrx, rfl⟩ := run_node h
      have hxs := below less hless hr.1 hc hrx
      by_cases hk : k = .template
      · obtain ⟨m, y, d, d', hm, hy, hsound, hd, -, hry, hopen, hclose, hbackquote⟩ :=
          run_quoted source (hr.2.1 hk) hrx
        have hys := below m (Nat.lt_trans hm hless) (hsound hr.1) (hd hc) hry
        refine ⟨hxs.cursor, ⟨Nat.le_refl _, hxs.ordered.le, Nat.le_refl _⟩, fun n hn => ?_⟩
        rw [List.mem_singleton.mp hn]
        have hstring (hs : k = .string) : False := by
          rw [hk] at hs
          cases hs
        refine .mk ⟨⟨⟨hc.boundary, hxs.cursor.boundary, hxs.ordered, fun _ => ?_⟩,
          fun hs => (hstring hs).elim, fun _ => hbackquote hc⟩, hr.2.2.2,
          fun hs => (hstring hs).elim⟩ hxs.read
        refine ⟨?_, ?_, ?_, kind_of_yields hy hry⟩
        · exact hopen ▸ (hd hc).boundary
        · have : e.offset - 1 = d'.offset := by omega
          exact this ▸ hys.cursor.boundary
        · have : e.offset - 1 = d'.offset := by omega
          exact this ▸ hopen ▸ hys.ordered
      · by_cases hs : k = .string
        · obtain ⟨s, n, hreads, hn, rfl⟩ := run_literal (hr.2.2.1 hs) hrx
          refine ⟨hxs.cursor, ⟨Nat.le_refl _, hxs.ordered.le, Nat.le_refl _⟩, fun m hm => ?_⟩
          rw [List.mem_singleton.mp hm]
          refine .mk ⟨⟨⟨hc.boundary, hxs.cursor.boundary, hxs.ordered, fun h => absurd h hk⟩,
            fun _ => ?_, fun h => absurd h hk⟩, hr.2.2.2,
            fun _ => ⟨s, hreads, hc.spans hn⟩⟩ hxs.read
          rw [Node.text, Node.start, Node.stop, hc.slice]
          exact hreads.isQuoted hn
        · exact Builds.node hk hs hr.2.2.2 hc.boundary none hxs

end Run

end Rule
end LocaleLift.Script
