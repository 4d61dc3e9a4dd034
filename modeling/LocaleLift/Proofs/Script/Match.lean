import LocaleLift.Proofs.Script.Growth

/-! Following grammar rules forwards: what a rule must leave if it matches, and what it comes to
once its depth suffices. -/
namespace LocaleLift.Script.Rule

variable {P : Type} {between : Text → Nat} {g : P → Rule P}

/-- A phrase does not match a text at any depth. -/
def Refuses (between : Text → Nat) (g : P → Rule P) (p : P) (t : Text) : Prop :=
  ∀ depth offset, run between g depth (g p) ⟨offset, t⟩ = none

/-- What a rule that matches a text leaves of it satisfies a condition. Of phrases, loops and growth
it is only known that they do not match, or that a loop may do so no time. -/
def Leaves (between : Text → Nat) (g : P → Rule P) : Rule P → Text → (Text → Prop) → Prop
  | fail, _, _ => True
  | done, t, q => q t
  | gap, t, q => q (t.drop (between t))
  | scan s, t, q => ∀ n, s t = some n → q (t.drop n)
  | phrase p, t, _ => Refuses between g p t
  | seq x y, t, q => x.Leaves between g t fun u => y.Leaves between g u q
  | alt x y, t, q => x.Leaves between g t q ∧ y.Leaves between g t q
  | many x, t, q => (x.Leaves between g t fun _ => False) ∧ q t
  | ahead _, t, q => q t
  | absent _, t, q => q t
  | node _ x, t, q => x.Leaves between g t q
  | field _ x, t, q => x.Leaves between g t q
  | grow x _ _, t, _ => x.Leaves between g t fun _ => False
  | grown .., _, _ => False

theorem Leaves.of_run {r : Rule P} {c e : Cursor} {ns : List Node} {depth : Nat}
    {q : Text → Prop} (hr : r.Leaves between g c.rest q)
    (h : run between g depth r c = some (e, ns)) : q e.rest := by
  induction r generalizing c e ns depth q with
  | fail => cases depth <;> cases h
  | done =>
    cases depth with
    | zero => cases h
    | succ depth => cases h; exact hr
  | gap =>
    cases depth with
    | zero => cases h
    | succ depth => cases h; exact hr
  | scan s =>
    obtain ⟨n, hn, rfl, -⟩ := run_scan h
    exact hr n hn
  | phrase p =>
    obtain ⟨less, -, h⟩ := run_phrase h
    rw [hr less c.offset] at h
    cases h
  | seq x y ihx ihy =>
    obtain ⟨less, d, xs, ys, -, hx, hy, -⟩ := run_seq h
    exact ihy (ihx hr hx) hy
  | alt x y ihx ihy =>
    obtain ⟨less, -, hx | hy⟩ := run_alt h
    · exact ihx hr.1 hx
    · exact ihy hr.2 hy
  | many x ih =>
    obtain ⟨rfl, -⟩ | ⟨less, d, xs, ys, -, hx, -, -⟩ := run_many h
    · exact hr.2
    · exact (ih hr.1 hx).elim
  | ahead x =>
    cases depth with
    | zero => cases h
    | succ depth =>
      rw [run, Option.map_eq_some_iff] at h
      obtain ⟨_, -, h⟩ := h
      cases h
      exact hr
  | absent x =>
    cases depth with
    | zero => cases h
    | succ depth =>
      rw [run] at h
      split at h
      · cases h
      · cases h
        exact hr
  | node k x ih =>
    obtain ⟨less, xs, -, hx, -⟩ := run_node h
    exact ih hr hx
  | field f x ih =>
    obtain ⟨less, xs, -, hx, -⟩ := run_field h
    exact ih hr hx
  | grow x admits y ihx =>
    obtain ⟨less, d, xs, -, hx, -⟩ := run_grow h
    exact (ihx hr hx).elim
  | grown => exact hr.elim

/-- A rule that leaves nothing possible does not match. -/
theorem Leaves.run_eq_none {r : Rule P} {t : Text}
    (h : r.Leaves between g t fun _ => False) (depth offset : Nat) :
    run between g depth r ⟨offset, t⟩ = none := by
  cases hrun : run between g depth r ⟨offset, t⟩ with
  | none => rfl
  | some r => exact (h.of_run (c := ⟨offset, t⟩) hrun).elim

section Combinators

variable {x y : Rule P} {t : Text} {q : Text → Prop}

@[simp] theorem leaves_seq : (x >> y).Leaves between g t q ↔
    x.Leaves between g t fun u => y.Leaves between g u q := Iff.rfl

@[simp] theorem leaves_alt : (x <|> y).Leaves between g t q ↔
    x.Leaves between g t q ∧ y.Leaves between g t q := Iff.rfl

@[simp] theorem leaves_scan {s : Scanner} : (scan s : Rule P).Leaves between g t q ↔
    ∀ n, s t = some n → q (t.drop n) := Iff.rfl

@[simp] theorem leaves_phrase {p : P} : (phrase p).Leaves between g t q ↔
    Refuses between g p t := Iff.rfl

@[simp] theorem leaves_many : (many x).Leaves between g t q ↔
    (x.Leaves between g t fun _ => False) ∧ q t := Iff.rfl

@[simp] theorem leaves_ahead : (ahead x).Leaves between g t q ↔ q t := Iff.rfl

@[simp] theorem leaves_absent : (absent x).Leaves between g t q ↔ q t := Iff.rfl

@[simp] theorem leaves_node {k : Kind} : (node k x).Leaves between g t q ↔
    x.Leaves between g t q := Iff.rfl

@[simp] theorem leaves_field {f : Field} : (field f x).Leaves between g t q ↔
    x.Leaves between g t q := Iff.rfl

@[simp] theorem leaves_opt : (opt x).Leaves between g t q ↔ x.Leaves between g t q ∧ q t := Iff.rfl

@[simp] theorem leaves_when {condition : Bool} : (when condition x).Leaves between g t q ↔
    (condition = true → x.Leaves between g t q) := by
  cases condition <;> simp [when, Leaves]

@[simp] theorem leaves_token {s : Scanner} : (token s : Rule P).Leaves between g t q ↔
    ∀ n, s (t.drop (between t)) = some n → q ((t.drop (between t)).drop n) := Iff.rfl

@[simp] theorem leaves_tree {k : Kind} : (tree k x).Leaves between g t q ↔
    x.Leaves between g (t.drop (between t)) q := Iff.rfl

@[simp] theorem leaves_chain : (chain x y).Leaves between g t q ↔
    x.Leaves between g (t.drop (between t)) fun _ => False := Iff.rfl

@[simp] theorem leaves_grow {admits : Kind → Bool} : (grow x admits y).Leaves between g t q ↔
    x.Leaves between g t fun _ => False := Iff.rfl

end Combinators

/-- At every depth from a given one on, a rule comes to the same result at a place. -/
def Gives (between : Text → Nat) (g : P → Rule P) (depth : Nat) (r : Rule P) (c : Cursor)
    (result : Option (Cursor × List Node)) : Prop :=
  ∀ deeper, depth ≤ deeper → run between g deeper r c = result

namespace Gives

variable {x y : Rule P} {c d e : Cursor} {xs ys ns : List Node} {depth : Nat}
  {result : Option (Cursor × List Node)}

theorem mono {more : Nat} (h : Gives between g depth x c result) (hle : depth ≤ more) :
    Gives between g more x c result :=
  fun deeper hdeeper => h deeper (Nat.le_trans hle hdeeper)

theorem of_leaves {offset : Nat} {t : Text} (h : x.Leaves between g t fun _ => False) :
    Gives between g depth x ⟨offset, t⟩ none :=
  fun deeper _ => h.run_eq_none deeper offset

/-- One step of a run, at a depth that is not zero. -/
private theorem step {r : Rule P}
    (h : ∀ less, depth ≤ less → run between g (less + 1) r c = result) :
    Gives between g (depth + 1) r c result := by
  intro deeper hdeeper
  obtain ⟨less, rfl⟩ : ∃ less, deeper = less + 1 := ⟨deeper - 1, by omega⟩
  exact h less (by omega)

theorem done : Gives between g (depth + 1) done c (some (c, [])) :=
  step fun _ _ => rfl

theorem gap : Gives between g (depth + 1) gap c (some (c.advance (between c.rest), [])) :=
  step fun _ _ => rfl

theorem scan {s : Scanner} {n : Nat} (h : s c.rest = some n) :
    Gives between g (depth + 1) (scan s) c (some (c.advance n, [])) :=
  step fun _ _ => by rw [run, h]; rfl

theorem phrase {p : P} (h : Gives between g depth (g p) c result) :
    Gives between g (depth + 1) (phrase p) c result :=
  step fun less hless => by rw [run, h less hless]

theorem seq (hx : Gives between g depth x c (some (d, xs)))
    (hy : Gives between g depth y d (some (e, ys))) :
    Gives between g (depth + 1) (x >> y) c (some (e, xs ++ ys)) :=
  step fun less hless => by
    change run between g (less + 1) (Rule.seq x y) c = _
    rw [run, hx less hless]
    dsimp only
    rw [hy less hless]

theorem seq_none (hx : Gives between g depth x c (some (d, xs)))
    (hy : Gives between g depth y d none) : Gives between g (depth + 1) (x >> y) c none :=
  step fun less hless => by
    change run between g (less + 1) (Rule.seq x y) c = _
    rw [run, hx less hless]
    dsimp only
    rw [hy less hless]

/-- A first part that yields no nodes. -/
theorem seq_right (hx : Gives between g depth x c (some (d, [])))
    (hy : Gives between g depth y d (some (e, ys))) :
    Gives between g (depth + 1) (x >> y) c (some (e, ys)) :=
  seq hx hy

/-- A second part that yields no nodes. -/
theorem seq_left (hx : Gives between g depth x c (some (d, xs)))
    (hy : Gives between g depth y d (some (e, []))) :
    Gives between g (depth + 1) (x >> y) c (some (e, xs)) := by
  have h := seq hx hy
  rwa [List.append_nil] at h

theorem alt_left {r : Cursor × List Node} (hx : Gives between g depth x c (some r)) :
    Gives between g (depth + 1) (x <|> y) c (some r) :=
  step fun less hless => by
    change run between g (less + 1) (Rule.alt x y) c = _
    rw [run, hx less hless]

theorem alt_right (hx : Gives between g depth x c none) (hy : Gives between g depth y c result) :
    Gives between g (depth + 1) (x <|> y) c result :=
  step fun less hless => by
    change run between g (less + 1) (Rule.alt x y) c = _
    rw [run, hx less hless]
    exact hy less hless

theorem many_nil (h : Gives between g depth x c none) :
    Gives between g (depth + 1) (many x) c (some (c, [])) :=
  step fun less hless => by rw [run, h less hless]

theorem many_cons (hx : Gives between g depth x c (some (d, xs)))
    (hy : Gives between g depth (many x) d (some (e, ys))) :
    Gives between g (depth + 1) (many x) c (some (e, xs ++ ys)) :=
  step fun less hless => by
    rw [run, hx less hless]
    dsimp only
    rw [hy less hless]

theorem node {k : Kind} (h : Gives between g depth x c (some (d, xs))) :
    Gives between g (depth + 1) (node k x) c (some (d, [.mk k none c.offset d.offset xs])) :=
  step fun less hless => by rw [run, h less hless]; rfl

theorem field {f : Field} (h : Gives between g depth x c (some (d, xs))) :
    Gives between g (depth + 1) (field f x) c (some (d, xs.map (·.withField f))) :=
  step fun less hless => by rw [run, h less hless]; rfl

theorem grow {admits : Kind → Bool} (hx : Gives between g depth x c (some (d, xs)))
    (hy : Gives between g depth (grown c.offset xs admits y) d result) :
    Gives between g (depth + 1) (grow x admits y) c result :=
  step fun less hless => by
    rw [run, hx less hless]
    exact hy less hless

theorem grown_stop {admits : Kind → Bool} {start : Nat} (h : Gives between g depth y c none) :
    Gives between g (depth + 1) (grown start ns admits y) c (some (c, ns)) :=
  step fun less hless => by
    rw [run, h less hless]
    simp

theorem grown_next {admits : Kind → Bool} {start : Nat}
    (hadmits : ∀ n ∈ ns, admits n.kind = true)
    (hy : Gives between g depth y c (some (d, ys)))
    (hrest : Gives between g depth (grown start (ys.map (adopt start ns)) admits y) d result) :
    Gives between g (depth + 1) (grown start ns admits y) c result :=
  step fun less hless => by
    rw [run, if_pos (List.all_eq_true.mpr hadmits), hy less hless]
    exact hrest less hless

theorem opt_none (h : Gives between g depth x c none) :
    Gives between g (depth + 2) (opt x) c (some (c, [])) :=
  alt_right (h.mono (Nat.le_succ depth)) done

/-- What stands behind a gap. -/
theorem behind (hc : c.advance (between c.rest) = d)
    (h : Gives between g (depth + 1) x d (some (e, xs))) :
    Gives between g (depth + 2) (Rule.gap >> x) c (some (e, xs)) := by
  subst hc
  exact seq_right gap h

theorem token {s : Scanner} {n : Nat} (hc : c.advance (between c.rest) = d)
    (h : s d.rest = some n) :
    Gives between g (depth + 2) (token s) c (some (d.advance n, [])) :=
  behind hc (scan h)

theorem tree {k : Kind} (hc : c.advance (between c.rest) = d)
    (h : Gives between g depth x d (some (e, xs))) :
    Gives between g (depth + 2) (tree k x) c (some (e, [.mk k none d.offset e.offset xs])) :=
  behind hc (node h)

theorem chain (hc : c.advance (between c.rest) = d)
    (hx : Gives between g depth x d (some (e, xs)))
    (hy : Gives between g depth (grown d.offset xs (fun _ => true) y) e result)
    {f : Cursor} (hresult : result = some (f, ys)) :
    Gives between g (depth + 2) (chain x y) c result := by
  subst hresult
  exact behind hc (grow hx hy)

end Gives

end LocaleLift.Script.Rule
