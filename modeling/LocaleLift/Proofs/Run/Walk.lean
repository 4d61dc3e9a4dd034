import LocaleLift.Proofs.Run.Keeps
import LocaleLift.Proofs.Run.Unit
import LocaleLift.Proofs.Text.Order

/-! What a walk through a source tree comes to, from what each of its visits does. -/
namespace LocaleLift

/-- The path that some names lead to from another one. -/
def Path.below (p : Path) (names : List Text) : Path :=
  { p with names := p.names ++ names }

@[simp] theorem Path.below_names (p : Path) (names : List Text) :
    (p.below names).names = p.names ++ names := rfl

@[simp] theorem Path.below_nil (p : Path) : p.below [] = p := by
  simp [below]

@[simp] theorem Path.child_below (p : Path) (names : List Text) (n : Text) :
    (p.below names).child n = p.below (names ++ [n]) := by
  simp [below, child]

namespace Run

/-- Nothing on the way from the root of the sources is left out. -/
def Plan.Admits (plan : Plan) (rel : List Text) : Prop :=
  ∀ before, before <+: rel → before ≠ [] →
    isIgnored plan.base (plan.base.below before) plan.ignore = .ok false

theorem Plan.admits_nil (plan : Plan) : plan.Admits [] :=
  fun _ hpre hnil => absurd (List.prefix_nil.mp hpre) hnil

theorem Plan.Admits.concat {plan : Plan} {rel : List Text} {name : Text} (h : plan.Admits rel)
    (hname : isIgnored plan.base (plan.base.below (rel ++ [name])) plan.ignore = .ok false) :
    plan.Admits (rel ++ [name]) := by
  intro before hpre hnil
  obtain rfl | hpre := List.prefix_concat_iff.mp hpre
  · exact hname
  · exact h before hpre hnil

/-- The units of a tree, by the way to them from the root of the sources. -/
structure Plan.IsUnit (plan : Plan) (t : FileTree) (rel : List Text) : Prop where
  admitted : plan.Admits rel
  kind : (UnitKind.ofPath? (plan.base.below rel)).isSome
  file : (t.bytes? (plan.base.names ++ rel)).isSome

theorem Plan.IsUnit.not_mem_steps {plan : Plan} {t : FileTree} {rel : List Text}
    (h : plan.IsUnit t rel) (ht : t.IsValid) : (".." : Text) ∉ plan.base.names ++ rel := by
  obtain ⟨bytes, hbytes⟩ := Option.isSome_iff_exists.mp h.file
  obtain ⟨mode, hget⟩ := FileTree.bytes?_eq_some.mp hbytes
  exact ht.steps _ (by simp [hget])

/-- A step keeps an invariant, directories stay, and what has been done stays done. -/
structure Advances (inv : State → Prop) (done : List Text → State → Prop) (s s' : State) : Prop where
  inv : inv s'
  renewals : s.session.renewals ≤ s'.session.renewals
  directory : ∀ l, s.session.tree.get? l = some .directory →
    s'.session.tree.get? l = some .directory
  done : ∀ rel, done rel s → done rel s'

/-- What is to be shown of the visits of a walk. There is an invariant, which tells that the files of
the tree stay, and something that each unit has done to it, which no later step undoes. Where the walk
breaks off, another predicate holds. All this is to be shown only as long as no log file is rolled
over. -/
structure Follows [Script.Parser] (host : Host) (plan : Plan) (out : Path) (t : FileTree)
    (files : Location → Prop) (inv : State → Prop) (done : List Text → State → Prop)
    (off : State → Prop) : Prop where
  changes : ∀ s, inv s → FileTree.Changes files (fun l => (".." : Text) ∉ l) t s.session.tree
  quiet : ∀ s s', inv s → Quiet s s' → s'.session.renewals ≤ s.session.renewals →
    Advances inv done s s'
  stopped : ∀ s, inv s → off s
  visit : ∀ s rel bytes, inv s → plan.Admits rel →
    (UnitKind.ofPath? (plan.base.below rel)).isSome →
    s.session.tree.bytes? (plan.base.names ++ rel) = some bytes →
    s.session.tree.readBytes (plan.base.below rel) = .ok bytes →
    After (visitUnit host plan (plan.base.below rel) (out.below rel)) s
      (fun _ s' => s'.session.renewals ≤ s.session.renewals → Advances inv done s s' ∧ done rel s')
      fun _ s' => s'.session.renewals ≤ s.session.renewals → off s'

section Walk

variable {host : Host} {plan : Plan} {out : Path} {t t' : FileTree} {files made : Location → Prop}
  {inv off : State → Prop} {done : List Text → State → Prop} {s : State} {d rel : List Text}
  {name : Text}

theorem Advances.refl (h : inv s) : Advances inv done s s :=
  ⟨h, Nat.le_refl _, fun _ h => h, fun _ h => h⟩

theorem Advances.trans {s' s'' : State} (h : Advances inv done s s')
    (h' : Advances inv done s' s'') : Advances inv done s s'' :=
  ⟨h'.inv, Nat.le_trans h.renewals h'.renewals, fun l hl => h'.directory l (h.directory l hl),
    fun rel hrel => h'.done rel (h.done rel hrel)⟩

/-- On the way to a unit stand directories, also after changes. -/
private theorem Plan.IsUnit.on_way (hunit : plan.IsUnit t rel) (ht : t.IsValid)
    (hc : t.Changes files made t') (hd : d <+: rel) :
    (∃ bytes mode, t'.get? (plan.base.names ++ d) = some (.file bytes mode)) ∧ d = rel ∨
      t'.get? (plan.base.names ++ d) = some .directory ∧ d ≠ rel := by
  by_cases heq : d = rel
  · subst heq
    obtain ⟨bytes, hbytes⟩ := Option.isSome_iff_exists.mp (hc.file _ hunit.file)
    exact .inl ⟨⟨bytes, FileTree.bytes?_eq_some.mp hbytes⟩, rfl⟩
  · obtain ⟨rest, rfl⟩ := hd
    have hrest : rest ≠ [] := by simpa using heq
    have hget : t.get? ((plan.base.names ++ d) ++ rest) ≠ none := by
      intro hnone
      have hfile := hunit.file
      rw [← List.append_assoc, FileTree.bytes?, hnone] at hfile
      cases hfile
    exact .inr ⟨hc.directory _ (ht.directory hrest hget), heq⟩

/-- An entry of a directory that is reached through directories is found where it stands. -/
private theorem find_entry (hsteps : (".." : Text) ∉ plan.base.names ++ (d ++ [name]))
    (hdirectory : ∀ before, before <+: plan.base.names ++ d → t.get? before = some .directory) :
    (∃ e, t.find false (plan.base.below (d ++ [name])) = .error e ∧
        (e = .nameTooLong ∨ e = .nullInName)) ∨
      t.find false (plan.base.below (d ++ [name])) =
        .ok (plan.base.names ++ (d ++ [name]), t.get? (plan.base.names ++ (d ++ [name]))) := by
  refine FileTree.find_of_directories false hsteps (fun before hpre hne => hdirectory before ?_)
    (by simp)
  rw [Path.below_names, ← List.append_assoc] at hpre hne
  exact (List.prefix_concat_iff.mp hpre).resolve_left hne

/-- A directory that is reached through directories is listed where it stands. -/
private theorem readNames_below {names : List Text} (hsteps : (".." : Text) ∉ plan.base.names ++ d)
    (hdirectory : ∀ before, before <+: plan.base.names ++ d → t.get? before = some .directory)
    (h : t.readNames (plan.base.below d) = .ok names) :
    names = t.namesIn (plan.base.names ++ d) := by
  obtain ⟨l, hl, rfl⟩ := FileTree.readNames_eq_ok h
  have hhere := hdirectory _ (List.prefix_refl _)
  obtain ⟨_, hfind, -⟩ | hfind := FileTree.find_of_directories (p := plan.base.below d) true hsteps
    (fun before hpre _ => hdirectory before hpre) (fun _ => by simp [hhere])
  · rw [hl] at hfind
    cases hfind
  · rw [hl] at hfind
    rw [(Prod.mk.inj (Except.ok.inj hfind)).1, Path.below_names]

private theorem after_enter [Script.Parser] (h : Follows host plan out t files inv done off)
    (ht : t.IsValid)
    {descend : Path → Path → StepM Unit} (hd : plan.Admits d)
    (hsteps : (".." : Text) ∉ plan.base.names ++ (d ++ [name]))
    (hdirectory : ∀ before, before <+: plan.base.names ++ d →
      s.session.tree.get? before = some .directory)
    (hs : inv s)
    (hdescend : plan.Admits (d ++ [name]) →
      s.session.tree.get? (plan.base.names ++ (d ++ [name])) = some .directory →
      After (descend (plan.base.below (d ++ [name])) (out.below (d ++ [name]))) s
        (fun _ s' => s'.session.renewals ≤ s.session.renewals → Advances inv done s s' ∧
          ∀ rel, d ++ [name] <+: rel → d ++ [name] ≠ rel → plan.IsUnit t rel → done rel s')
        fun _ s' => s'.session.renewals ≤ s.session.renewals → off s') :
    After (enter host plan descend (plan.base.below (d ++ [name])) (out.below (d ++ [name]))) s
      (fun _ s' => s'.session.renewals ≤ s.session.renewals → Advances inv done s s' ∧
        ∀ rel, d ++ [name] <+: rel → plan.IsUnit t rel → done rel s')
      fun _ s' => s'.session.renewals ≤ s.session.renewals → off s' := by
  rw [enter, after_bind, after_lift]
  refine ⟨fun ignored hignored => ?_, fun _ _ _ => h.stopped s hs⟩
  cases ignored with
  | true =>
    refine fun _ => ⟨.refl hs, fun rel hpre hunit => ?_⟩
    have hnot := hunit.admitted _ hpre (by simp)
    rw [hignored] at hnot
    cases hnot
  | false =>
    have hadmits : plan.Admits (d ++ [name]) := hd.concat hignored
    rw [if_neg Bool.false_ne_true, after_bind, after_tree]
    have hway {rel : List Text} (hpre : d ++ [name] <+: rel) (hunit : plan.IsUnit t rel) :=
      hunit.on_way ht (h.changes s hs) hpre
    obtain ⟨_, hfind, rfl | rfl⟩ | hfind := find_entry hsteps hdirectory
    · rw [hfind]
      exact fun _ => h.stopped s hs
    · rw [hfind]
      exact fun _ => h.stopped s hs
    · rw [hfind]
      cases hentry : s.session.tree.get? (plan.base.names ++ (d ++ [name])) with
      | none =>
        simp only [hentry, reduceCtorEq, exists_false, false_and, or_false] at hway
        exact fun _ => ⟨.refl hs, fun rel hpre hunit => (hway hpre hunit).elim⟩
      | some e =>
        cases e with
        | link x =>
          simp only [hentry, Option.some.injEq, reduceCtorEq, exists_false, false_and, or_false]
            at hway
          refine after_log fun s' h' hr => ⟨h.quiet s s' hs h' hr, fun rel hpre hunit => ?_⟩
          exact (hway hpre hunit).elim
        | directory =>
          refine (hdescend hadmits hentry).imp (fun _ s' h' hr => ⟨(h' hr).1, fun rel hpre hunit => ?_⟩)
            fun _ _ h' => h'
          simp only [hentry, Option.some.injEq, reduceCtorEq, exists_false, false_and, false_or,
            true_and] at hway
          exact (h' hr).2 rel hpre (hway hpre hunit) hunit
        | file bytes mode =>
          simp only [hentry, Option.some.injEq, reduceCtorEq, false_and, or_false] at hway
          dsimp only
          split
          · rename_i hkind
            have hread : s.session.tree.readBytes (plan.base.below (d ++ [name])) = .ok bytes := by
              rw [hentry] at hfind
              exact FileTree.readBytes_eq_ok (FileTree.find_follow hfind (by simp))
            refine (h.visit s _ bytes hs hadmits hkind
              (FileTree.bytes?_eq_some.mpr ⟨mode, hentry⟩) hread).imp
              (fun _ s' h' hr => ⟨(h' hr).1, fun rel hpre hunit => ?_⟩) fun _ _ h' => h'
            obtain ⟨-, rfl⟩ := hway hpre hunit
            exact (h' hr).2
          · rename_i hkind
            refine fun _ => ⟨.refl hs, fun rel hpre hunit => ?_⟩
            obtain ⟨-, rfl⟩ := hway hpre hunit
            exact absurd hunit.kind hkind

/-- A walk through a directory keeps the invariant, and every unit below has done what it does. -/
theorem after_walk [Script.Parser] (h : Follows host plan out t files inv done off) (ht : t.IsValid)
    (hfiles : ∀ l, files l → (".." : Text) ∉ l) (depth : Nat) (hd : plan.Admits d)
    (hdirectory : ∀ before, before <+: plan.base.names ++ d →
      s.session.tree.get? before = some .directory)
    (hs : inv s) :
    After (walk host plan depth (plan.base.below d) (out.below d)) s
      (fun _ s' => s'.session.renewals ≤ s.session.renewals → Advances inv done s s' ∧
        ∀ rel, d <+: rel → d ≠ rel → plan.IsUnit t rel → done rel s')
      fun _ s' => s'.session.renewals ≤ s.session.renewals → off s' := by
  induction depth generalizing d s with
  | zero => exact fun _ => h.stopped s hs
  | succ depth ih =>
    rw [walk, after_bind, after_tree]
    split
    · exact fun _ => h.stopped s hs
    · rename_i names hnames
      have hvalid := (h.changes s hs).steps ht.steps hfiles fun _ hl => hl
      have hhere := hdirectory _ (List.prefix_refl _)
      obtain rfl := readNames_below (hvalid _ (by simp [hhere])) hdirectory hnames
      refine (after_forM (p := fun before s' => s'.session.renewals ≤ s.session.renewals →
        Advances inv done s s' ∧
          ∀ name ∈ before, ∀ rel, d ++ [name] <+: rel → plan.IsUnit t rel → done rel s')
        (fun _ => ⟨.refl hs, by simp⟩) fun before name after hnames s₁ h₁ => ?_).imp
        (fun _ s' h' hr => ?_) fun _ _ h' => h'
      · have hkept := isKept_renewals host plan (s.session.renewals + 1)
        have hlast : ((plan.base.below d).child name).names.getLast? =
            ((out.below d).child name).names.getLast? := by simp [Path.child]
        have hkeeps := keeps_enter hkept (keeps_walk hkept depth) hlast
        refine Keeps.after_while
          (by simpa only [Nat.not_le, Nat.lt_iff_add_one_le] using hkeeps) fun hr => ?_
        obtain ⟨hadvances, hbefore⟩ := h₁ hr
        have hname : s.session.tree.get? (plan.base.names ++ (d ++ [name])) ≠ none := by
          rw [← List.append_assoc, ← FileTree.mem_namesIn, ← (Text.sort_perm _).mem_iff, hnames]
          simp
        have hsince {s' : State} (hr : s'.session.renewals ≤ s.session.renewals) :=
          Nat.le_trans hr hadvances.renewals
        rw [Path.child_below, Path.child_below]
        refine (after_enter h ht hd (hvalid _ hname)
          (fun before hpre => hadvances.directory _ (hdirectory before hpre)) hadvances.inv
          fun hadmits hentry => ?_).imp (fun _ s₂ h₂ hr => ?_) fun _ _ h' hr => h' (hsince hr)
        · refine ih hadmits (fun before hpre => ?_) hadvances.inv
          rw [← List.append_assoc] at hpre hentry
          obtain rfl | hpre := List.prefix_concat_iff.mp hpre
          · exact hentry
          · exact hadvances.directory _ (hdirectory before hpre)
        · obtain ⟨hnext, hdone⟩ := h₂ (hsince hr)
          refine ⟨hadvances.trans hnext, fun n hn rel hpre hunit => ?_⟩
          obtain hn | rfl := List.mem_append.mp hn |>.imp_right List.mem_singleton.mp
          · exact hnext.done rel (hbefore n hn rel hpre hunit)
          · exact hdone rel hpre hunit
      · obtain ⟨hadvances, hall⟩ := h' hr
        refine ⟨hadvances, fun rel hpre hne hunit => ?_⟩
        obtain ⟨rest, rfl⟩ := hpre
        obtain ⟨n, rest, rfl⟩ := List.exists_cons_of_ne_nil (show rest ≠ [] by simpa using hne)
        have hpre : d ++ [n] <+: d ++ n :: rest := ⟨rest, by simp⟩
        refine hall n ?_ _ hpre hunit
        rw [(Text.sort_perm _).mem_iff, FileTree.mem_namesIn, List.append_assoc]
        obtain ⟨⟨bytes, mode, hget⟩, -⟩ | ⟨hget, -⟩ := hunit.on_way ht (h.changes s hs) hpre
        · simp [hget]
        · simp [hget]

end Walk

end Run

end LocaleLift
