import LocaleLift.Script.Rule

/-! The shape of syntax trees: children in order inside their parent, and backquotes around the
substitutions of a template. -/
namespace LocaleLift.Script

namespace Node

/-- Every node of a tree, its root included, has a property. -/
inductive All (p : Node → Prop) : Node → Prop where
  | mk {n : Node} (root : p n) (children : ∀ c ∈ n.children, All p c) : All p n

variable {p : Node → Prop} {n : Node}

theorem All.root (h : n.All p) : p n := by
  cases h with
  | mk root _ => exact root

theorem All.child {c : Node} (h : n.All p) (hc : c ∈ n.children) : c.All p := by
  cases h with
  | mk _ children => exact children c hc

theorem All.imp {q : Node → Prop} (hpq : ∀ n, p n → q n) (h : n.All p) : n.All q := by
  induction h with
  | mk root _ ih => exact .mk (hpq _ root) ih

theorem All.all (h : n.All p) : n.All (All p) := by
  induction h with
  | mk root children ih => exact .mk (.mk root children) ih

/-- Nodes stand in order and apart from each other between two offsets. -/
def Ordered (a b : Nat) : List Node → Prop
  | [] => a ≤ b
  | n :: ns => a ≤ n.start ∧ n.start ≤ n.stop ∧ Ordered n.stop b ns

instance decOrdered (a b : Nat) : (ns : List Node) → Decidable (Ordered a b ns)
  | [] => inferInstanceAs (Decidable (a ≤ b))
  | n :: ns =>
    have := decOrdered n.stop b ns
    inferInstanceAs (Decidable (a ≤ n.start ∧ n.start ≤ n.stop ∧ Ordered n.stop b ns))

theorem Ordered.le {a b : Nat} {ns : List Node} (h : Ordered a b ns) : a ≤ b := by
  induction ns generalizing a with
  | nil => exact h
  | cons n ns ih =>
    obtain ⟨ha, hn, hb⟩ := h
    have := ih hb
    omega

theorem Ordered.append {a b c : Nat} {ms ns : List Node} (hm : Ordered a b ms)
    (hn : Ordered b c ns) : Ordered a c (ms ++ ns) := by
  induction ms generalizing a with
  | nil =>
    cases ns with
    | nil => exact Nat.le_trans hm hn
    | cons n ns => exact ⟨Nat.le_trans hm hn.1, hn.2⟩
  | cons m ms ih => exact ⟨hm.1, hm.2.1, ih hm.2.2⟩

theorem Ordered.mono {a a' b : Nat} {ns : List Node} (h : Ordered a b ns) (ha : a' ≤ a) :
    Ordered a' b ns := by
  cases ns with
  | nil => exact Nat.le_trans ha h
  | cons n ns => exact ⟨Nat.le_trans ha h.1, h.2⟩

theorem Ordered.sublist {a b : Nat} {ms ns : List Node} (h : Ordered a b ns)
    (hs : ms.Sublist ns) : Ordered a b ms := by
  induction hs generalizing a with
  | slnil => exact h
  | cons n _ ih => exact (ih h.2.2).mono (Nat.le_trans h.1 h.2.1)
  | cons_cons n _ ih => exact ⟨h.1, h.2.1, ih h.2.2⟩

/-- Only starts and stops count for the order. -/
theorem Ordered.map {a b : Nat} {ns : List Node} {f : Node → Node} (h : Ordered a b ns)
    (hstart : ∀ n, (f n).start = n.start) (hstop : ∀ n, (f n).stop = n.stop) :
    Ordered a b (ns.map f) := by
  induction ns generalizing a with
  | nil => exact h
  | cons n ns ih =>
    obtain ⟨ha, hn, hb⟩ := h
    refine ⟨?_, ?_, ?_⟩
    · rwa [hstart]
    · rwa [hstart, hstop]
    · rw [hstop]
      exact ih hb

theorem Ordered.inside {a b : Nat} {ns : List Node} (h : Ordered a b ns) {n : Node}
    (hn : n ∈ ns) : a ≤ n.start ∧ n.start ≤ n.stop ∧ n.stop ≤ b := by
  induction ns generalizing a with
  | nil => cases hn
  | cons m ns ih =>
    obtain ⟨ha, hm, hb⟩ := h
    rcases List.mem_cons.mp hn with rfl | hn
    · exact ⟨ha, hm, hb.le⟩
    · obtain ⟨hstart, hle⟩ := ih hb hn
      exact ⟨by omega, hle⟩

/-- Two nodes in order that are not empty are one if they begin at the same offset. -/
theorem Ordered.eq_of_start {α : Type} {f : α → Node} {a b : Nat} {xs : List α}
    (h : Ordered a b (xs.map f)) {x y : α} (hx : x ∈ xs) (hy : y ∈ xs)
    (hstart : (f x).start = (f y).start) (hltx : (f x).start < (f x).stop)
    (hlty : (f y).start < (f y).stop) : x = y := by
  induction xs generalizing a with
  | nil => cases hx
  | cons z xs ih =>
    obtain ⟨-, -, hb⟩ := h
    rcases List.mem_cons.mp hx with hxz | hx
    · rcases List.mem_cons.mp hy with hyz | hy
      · exact hxz.trans hyz.symm
      · have := (hb.inside (List.mem_map_of_mem hy)).1
        rw [← hxz] at this
        omega
    · rcases List.mem_cons.mp hy with hyz | hy
      · have := (hb.inside (List.mem_map_of_mem hx)).1
        rw [← hyz] at this
        omega
      · exact ih hb hx hy

/-- A child that covers bytes plays a part in its parent exactly if it is the first that does. -/
theorem isPart_iff {n parent : Node} (h : Ordered parent.start parent.stop parent.children)
    (hn : n ∈ parent.children) (hlt : n.start < n.stop) (f : Field) :
    n.isPart parent f = true ↔ parent.child? f = some n := by
  rw [isPart]
  cases hc : parent.child? f with
  | none => exact iff_of_false Bool.false_ne_true nofun
  | some c =>
    dsimp only
    rw [same, Bool.and_eq_true, Bool.and_eq_true, beq_iff_eq, beq_iff_eq, beq_iff_eq,
      Option.some.injEq]
    constructor
    · rintro ⟨⟨-, hstart⟩, hstop⟩
      rw [← List.map_id parent.children] at h
      exact h.eq_of_start (List.mem_of_find?_eq_some hc) hn hstart
        (hstart ▸ hstop ▸ hlt) hlt
    · rintro rfl
      exact ⟨⟨rfl, rfl⟩, rfl⟩

/-- A node that begins and ends at places of a given kind, and whose children stand in order inside
it. In a template, they are substitutions between the backquotes. -/
structure Proper (place : Nat → Prop) (n : Node) : Prop where
  start : place n.start
  stop : place n.stop
  ordered : Ordered n.start n.stop n.children
  quoted : n.kind = .template → place (n.start + 1) ∧ place (n.stop - 1) ∧
    Ordered (n.start + 1) (n.stop - 1) n.children ∧ ∀ c ∈ n.children, c.kind = .substitution

/-- A node that begins and ends at places of a given kind, and whose children stand in order inside
it. A template begins and ends with a backquote of one byte, and all its children stand between. -/
structure Spaced (place : Nat → Prop) (n : Node) : Prop where
  start : place n.start
  stop : place n.stop
  ordered : Ordered n.start n.stop n.children
  quoted : n.kind = .template → place (n.start + 1) ∧ place (n.stop - 1) ∧
    Ordered (n.start + 1) (n.stop - 1) n.children

/-- Only the substitutions of a template hold templates: what else stands in it is text. -/
def IsFlat (n : Node) : Prop :=
  n.kind = .template → ∀ c ∈ n.children, c.kind ≠ .substitution →
    c.All fun m => m.kind ≠ .template

theorem Proper.spaced {place : Nat → Prop} (h : n.Proper place) : n.Spaced place where
  start := h.start
  stop := h.stop
  ordered := h.ordered
  quoted hk := ⟨(h.quoted hk).1, (h.quoted hk).2.1, (h.quoted hk).2.2.1⟩

theorem Proper.isFlat {place : Nat → Prop} (h : n.Proper place) : n.IsFlat :=
  fun hk c hc hne => absurd ((h.quoted hk).2.2.2 c hc) hne

@[simp] theorem kind_withField (f : Field) : (n.withField f).kind = n.kind := by
  cases n
  rfl

@[simp] theorem start_withField (f : Field) : (n.withField f).start = n.start := by
  cases n
  rfl

@[simp] theorem stop_withField (f : Field) : (n.withField f).stop = n.stop := by
  cases n
  rfl

@[simp] theorem children_withField (f : Field) : (n.withField f).children = n.children := by
  cases n
  rfl

variable {place : Nat → Prop}

theorem Proper.withField (h : n.Proper place) (f : Field) : (n.withField f).Proper place := by
  obtain ⟨start, stop, ordered, quoted⟩ := h
  constructor
  · rwa [start_withField]
  · rwa [stop_withField]
  · rwa [start_withField, stop_withField, children_withField]
  · intro hk
    rw [kind_withField] at hk
    rw [start_withField, stop_withField, children_withField]
    exact quoted hk

theorem All.withField {f : Field} (hp : ∀ n, p n → p (n.withField f)) (h : n.All p) :
    (n.withField f).All p := by
  refine .mk (hp n h.root) fun c hc => ?_
  rw [children_withField] at hc
  exact h.child hc

end Node

end LocaleLift.Script
