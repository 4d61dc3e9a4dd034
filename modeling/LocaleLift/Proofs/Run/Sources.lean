import LocaleLift.Proofs.Run.Complete
import Mathlib

/-! Where a run writes, and when the units that it reads keep their bytes. -/
namespace LocaleLift.Run

/-- The files that a walk may hand over: the units of a tree, and copies that it comes upon. -/
inductive Plan.Handles (plan : Plan) (out : Path) (t : FileTree) : List Text → Prop
  | unit {rel : List Text} (unit : plan.IsUnit t rel) : Handles plan out t rel
  | copy {rel rel' : List Text} (handled : Handles plan out t rel) (admitted : plan.Admits rel')
      (place : t.LeadsTo (out.names ++ rel) (plan.base.names ++ rel')) : Handles plan out t rel'

/-- A file is copied to a place, which is no matter of a dry run. -/
def Plan.CopiesTo (plan : Plan) (out : Path) (t : FileTree) (l : Location) : Prop :=
  plan.dryRun = false ∧ ∃ rel, plan.Handles out t rel ∧ t.LeadsTo (out.names ++ rel) l

/-- The places that a run may write to: those of copies and of log files, and those of files that are
no units. -/
def Plan.Writes (plan : Plan) (out : Path) (s : State) (l : Location) : Prop :=
  (".." : Text) ∉ l ∧ (plan.CopiesTo out s.session.tree l ∨ l ∈ s.session.logPlaces ∨
    UnitKind.ofPath? ⟨1, l⟩ = none)

section Writes

variable {host : Host} {a : Arguments} {plan : Plan} {out : Path} {t : FileTree} {s₀ s : State}

/-- A file that a walk comes upon is one that it may hand over. -/
private theorem handles_of_bytes? {rel : List Text} {bytes : List UInt8}
    (hready : IsReady t plan out s₀)
    (hs : s.session.Within (plan.Writes out s₀) s₀.session.tree) (hadmits : plan.Admits rel)
    (hkind : (UnitKind.ofPath? (plan.base.below rel)).isSome)
    (hfile : s.session.tree.bytes? (plan.base.names ++ rel) = some bytes) :
    plan.Handles out s₀.session.tree rel := by
  by_cases hwrites : plan.Writes out s₀ (plan.base.names ++ rel)
  · obtain ⟨-, ⟨-, rel₀, hhandled, hplace⟩ | hlog | hnone⟩ := hwrites
    · exact .copy hhandled hadmits hplace
    · exact .unit ⟨hadmits, hkind, (hready.fresh.session.places _ hlog).2⟩
    · have hsame : UnitKind.ofPath? (plan.base.below rel) = none :=
        (UnitKind.ofPath?_congr rfl).trans hnone
      rw [hsame] at hkind
      cases hkind
  · refine .unit ⟨hadmits, hkind, ?_⟩
    rw [← hs.tree.bytes? hwrites, hfile]
    rfl

private theorem within_quiet {files : Location → Prop} {s s' : State}
    (hs : s.session.Within files t) (h : Quiet s s')
    (hcalm : s'.session.renewals ≤ s.session.renewals) : s'.session.Within files t :=
  hs.changes h.session hcalm (fun _ hl => hl.elim) fun _ hl => hl.elim

private theorem writes_log (hready : IsReady t plan out s₀) {l : Location}
    (hl : l ∈ s₀.session.logPlaces) : plan.Writes out s₀ l :=
  ⟨(hready.fresh.session.places l hl).1, .inr (.inl hl)⟩

private theorem follows_writes [Script.Parser] (host : Host) (hready : IsReady t plan out s₀) :
    Follows host plan out t (plan.Writes out s₀)
      (fun s => s.session.Within (plan.Writes out s₀) s₀.session.tree) (fun _ _ => True)
      fun s => s.session.Within (plan.Writes out s₀) s₀.session.tree where
  changes s hs :=
    (hready.fresh.session.within fun _ hl => writes_log hready hl).tree.trans hs.tree
  quiet s s' hs h hcalm := ⟨within_quiet hs h hcalm, h.session.renewals,
    (h.session.tree hcalm).directory, fun _ h => h⟩
  stopped s hs := hs
  visit s rel bytes hs hadmits hkind hfile hread := by
    have hhandles := handles_of_bytes? hready hs hadmits hkind hfile
    refine (after_visitUnit hread).imp (fun _ s' h hcalm => ?_) fun _ s' h hcalm => ?_
    · refine ⟨⟨hs.changes h.session hcalm (fun l hl => ?_) fun _ hl => hl, h.session.renewals,
        (h.session.tree hcalm).directory, fun _ h => h⟩, trivial⟩
      obtain ⟨hdry, -, hleads⟩ := hl
      exact ⟨hleads.not_mem_steps, .inl ⟨hdry, rel, hhandles, hleads.of_changes hs.tree⟩⟩
    · exact hs.changes h hcalm (fun _ hl => hl.elim) fun _ hl => hl

/-- Whatever becomes of a run that is ready, it writes to certain places only, as long as no log file
is rolled over. -/
private theorem after_complete_writes [Script.Parser] (host : Host) (a : Arguments) (ht : t.IsValid)
    (hready : IsReady t plan out s₀) :
    After (complete host a plan out) s₀
      (fun _ s => s.session.renewals ≤ s₀.session.renewals →
        s.session.Within (plan.Writes out s₀) s₀.session.tree)
      fun _ s => s.session.renewals ≤ s₀.session.renewals →
        s.session.Within (plan.Writes out s₀) s₀.session.tree := by
  have hends {walked s : State} {directory : Path}
      (hwalked : walked.session.Within (plan.Writes out s₀) s₀.session.tree)
      (h : Ends host directory walked s)
      (hcalm : s.session.renewals ≤ walked.session.renewals) :
      s.session.Within (plan.Writes out s₀) s₀.session.tree := by
    refine hwalked.changes h.session hcalm (fun l hl => ?_) fun _ hl => hl
    obtain ⟨p, -, hleads⟩ := hl
    exact ⟨hleads.not_mem_steps, .inr (.inr (Dictionary.ofPath?_of_leadsTo hleads))⟩
  have hstart : s₀.session.Within (plan.Writes out s₀) s₀.session.tree :=
    ⟨.refl _, fun l hl => writes_log hready (hready.fresh.session.open_ hl)⟩
  refine (after_complete (follows_writes host hready) ht (fun _ hl => hl.1)
    (fun _ _ hs h hcalm => within_quiet hs h hcalm) hready hstart).imp (fun _ s h hcalm => ?_)
    fun _ s h hcalm => ?_
  · obtain ⟨walked, directory, hwalked, h, hcalm, -⟩ := h hcalm
    exact hends hwalked h hcalm
  · obtain ⟨walked, directory, hwalked, h, hcalm⟩ := h hcalm
    exact hends hwalked h hcalm

/-- The same of a run from its start. -/
private theorem within_run [Script.Parser] (ht : t.IsValid)
    (hprepare : ((prepare host a).run.run (.start t) : Except Fault (Option (Plan × Path)) × State) =
      (.ok (some (plan, out)), s₀))
    (hcalm : ((run host a).run.run (.start t) : Except Fault Nat × State).2.session.renewals = 0) :
    IsReady t plan out s₀ ∧
      ((run host a).run.run (.start t) : Except Fault Nat × State).2.session.Within
        (plan.Writes out s₀) s₀.session.tree := by
  obtain ⟨-, hready⟩ := (after_prepare host a t).of_ok hprepare plan out rfl
  have hrenewals : After (run host a) (.start t)
      (fun _ s => s₀.session.renewals ≤ s.session.renewals)
      fun _ s => s₀.session.renewals ≤ s.session.renewals := by
    rw [run, after_bind, perform, after_bind, After, hprepare]
    exact keeps_complete_renewals _ out s₀ (Nat.le_refl _)
  have hready := hready (Nat.le_zero.mp (hcalm ▸ hrenewals.state))
  have hrun : After (run host a) (.start t)
      (fun _ s => s.session.renewals ≤ s₀.session.renewals →
        s.session.Within (plan.Writes out s₀) s₀.session.tree)
      fun _ s => s.session.renewals ≤ s₀.session.renewals →
        s.session.Within (plan.Writes out s₀) s₀.session.tree := by
    rw [run, after_bind, perform, after_bind, After, hprepare]
    exact after_complete_writes host a ht hready
  exact ⟨hready, After.state (p := fun s : State => s.session.renewals ≤ s₀.session.renewals →
    s.session.Within (plan.Writes out s₀) s₀.session.tree) hrun (hcalm ▸ Nat.zero_le _)⟩

/-- A unit has kept its bytes if it is no log file and no copy falls upon it. -/
private theorem bytes?_unit {u : Log.Session} {rel : List Text} (hready : IsReady t plan out s₀)
    (hwithin : u.Within (plan.Writes out s₀) s₀.session.tree) (hunit : plan.IsUnit t rel)
    (hlog : plan.base.names ++ rel ∉ s₀.session.logPlaces)
    (hcopy : ¬ plan.CopiesTo out s₀.session.tree (plan.base.names ++ rel)) :
    u.tree.bytes? (plan.base.names ++ rel) = t.bytes? (plan.base.names ++ rel) := by
  have hwrites : ¬ plan.Writes out s₀ (plan.base.names ++ rel) := by
    rintro ⟨-, hplace | hplace | hplace⟩
    · exact hcopy hplace
    · exact hlog hplace
    · have hkind := hunit.kind
      rw [UnitKind.ofPath?_congr (p := plan.base.below rel) (q := ⟨1, plan.base.names ++ rel⟩) rfl,
        hplace] at hkind
      cases hkind
  rw [hwithin.tree.bytes? hwrites, hready.fresh.session.tree.bytes? hlog]

end Writes

/-- Copies fall below the root of the output, unless links lead elsewhere. -/
theorem Plan.CopiesTo.exists_eq {plan : Plan} {out : Path} {t t' : FileTree} {l : Location}
    {files made : Location → Prop} (h : plan.CopiesTo out t' l)
    (hsteps : ∀ m, t'.get? m ≠ none → (".." : Text) ∉ m) (hout : (".." : Text) ∉ out.names)
    (hc : t.Changes files made t') (hlink : ∀ m x, t.get? m ≠ some (.link x)) :
    ∃ rel, plan.Handles out t' rel ∧ l = out.names ++ rel := by
  obtain ⟨-, rel, hhandled, hleads⟩ := h
  have hrel : (".." : Text) ∉ plan.base.names ++ rel := by
    cases hhandled with
    | unit hunit =>
      obtain ⟨bytes, hbytes⟩ := Option.isSome_iff_exists.mp hunit.file
      obtain ⟨mode, hget⟩ := FileTree.bytes?_eq_some.mp hbytes
      exact hsteps _ (by simp [hget])
    | copy _ _ place => exact place.not_mem_steps
  refine ⟨rel, hhandled, (hleads.of_changes hc).eq_names (fun _ _ _ => hlink _) ?_⟩
  simp only [List.mem_append, not_or] at hrel ⊢
  exact ⟨hout, hrel.2⟩

/-- A unit keeps its bytes, however the run ends, if it is no log file, no copy of a unit, or of such a
copy, falls upon it, and no log file is rolled over. -/
theorem run_keeps_unit [Script.Parser] (host : Host) (a : Arguments) {t : FileTree} {plan : Plan}
    {out : Path}
    {s : State} {rel : List Text} (ht : t.IsValid)
    (hprepare : ((prepare host a).run.run (.start t) : Except Fault (Option (Plan × Path)) × State) =
      (.ok (some (plan, out)), s))
    (hunit : plan.IsUnit t rel) (hlog : plan.base.names ++ rel ∉ s.session.logPlaces)
    (hcopy : ¬ plan.CopiesTo out s.session.tree (plan.base.names ++ rel))
    (hcalm : ((run host a).run.run (.start t) : Except Fault Nat × State).2.session.renewals = 0) :
    ((run host a).run.run (.start t) : Except Fault Nat × State).2.session.tree.bytes?
      (plan.base.names ++ rel) = t.bytes? (plan.base.names ++ rel) := by
  obtain ⟨hready, hwithin⟩ := within_run ht hprepare hcalm
  exact bytes?_unit hready hwithin hunit hlog hcopy

/-- If the roots are apart and no links are there, all units keep their bytes that are no log files, as
long as no log file is rolled over. -/
theorem run_keeps_units_of_apart [Script.Parser] (host : Host) (a : Arguments) {t : FileTree}
    {plan : Plan}
    {out : Path} {s : State} (ht : t.IsValid) (hlink : ∀ m x, t.get? m ≠ some (.link x))
    (hprepare : ((prepare host a).run.run (.start t) : Except Fault (Option (Plan × Path)) × State) =
      (.ok (some (plan, out)), s))
    (hapart : ¬ plan.base.names <+: out.names ∧ ¬ out.names <+: plan.base.names)
    (hcalm : ((run host a).run.run (.start t) : Except Fault Nat × State).2.session.renewals = 0) :
    ∀ rel, plan.IsUnit t rel → plan.base.names ++ rel ∉ s.session.logPlaces →
      ((run host a).run.run (.start t) : Except Fault Nat × State).2.session.tree.bytes?
        (plan.base.names ++ rel) = t.bytes? (plan.base.names ++ rel) := by
  intro rel hunit hlog
  obtain ⟨hready, hwithin⟩ := within_run ht hprepare hcalm
  refine bytes?_unit hready hwithin hunit hlog fun hcopy => ?_
  have hset := hready.fresh.session
  have hsteps := hset.tree.steps ht.steps (fun l hl => (hset.places l hl).1) fun _ hl => hl
  obtain ⟨rel', -, hplace⟩ := hcopy.exists_eq hsteps hready.target.steps hset.tree hlink
  have hbase : plan.base.names <+: out.names ++ rel' := ⟨rel, hplace⟩
  exact (List.prefix_or_prefix_of_prefix hbase (List.prefix_append _ _)).elim hapart.1 hapart.2

/-- A tree with one unit in a directory of its own. -/
def oneUnit : FileTree :=
  ⟨[(["src"], .directory), (["src", "a.vue"], .file [97] 0o644)]⟩

private theorem prepare_oneUnit :
    ((prepare .silent (rootsOnly "src" "out")).run.run (.start oneUnit) :
        Except Fault (Option (Plan × Path)) × State).1 =
      .ok (some (Plan.ofRoots ⟨1, ["src"]⟩ ⟨1, ["out"]⟩, ⟨1, ["out"]⟩)) := by
  cbv

private theorem session_oneUnit :
    ((prepare .silent (rootsOnly "src" "out")).run.run (.start oneUnit) :
        Except Fault (Option (Plan × Path)) × State).2.session.tree = oneUnit ∧
      ((prepare .silent (rootsOnly "src" "out")).run.run (.start oneUnit) :
        Except Fault (Option (Plan × Path)) × State).2.session.logPlaces = [] :=
  ⟨by cbv, by cbv⟩

theorem run_keeps_unit_apart :
    oneUnit.IsValid ∧ (Plan.ofRoots ⟨1, ["src"]⟩ ⟨1, ["out"]⟩).IsUnit oneUnit ["a.vue"] ∧
      ((run .silent (rootsOnly "src" "out")).run.run (.start oneUnit) :
        Except Fault Nat × State).2.session.tree.bytes? ["src", "a.vue"] = some [97] := by
  have hvalid : oneUnit.IsValid := FileTree.isValid_of_entries (by decide)
  have hlink := FileTree.ne_link_of_entries (t := oneUnit) (by simp [oneUnit])
  have hunit : (Plan.ofRoots ⟨1, ["src"]⟩ ⟨1, ["out"]⟩).IsUnit oneUnit ["a.vue"] :=
    ⟨(Plan.admits_nil _).concat (by cbv), by cbv, rfl⟩
  obtain ⟨htree, hlog⟩ := session_oneUnit
  refine ⟨hvalid, hunit, run_keeps_unit .silent (rootsOnly "src" "out") hvalid
    (Prod.ext prepare_oneUnit rfl) hunit ?_ ?_ (by cbv)⟩
  · rw [hlog]
    exact List.not_mem_nil
  · rw [htree]
    intro hcopy
    have hrefl : oneUnit.Changes (fun _ => False) (fun _ => False) oneUnit := .refl oneUnit
    obtain ⟨rel, -, hrel⟩ := hcopy.exists_eq hvalid.steps (by decide) hrefl hlink
    cases hrel

/-- A tree with a unit, and another one in a directory that is named as the one above. -/
def nestedUnits : FileTree :=
  ⟨[(["p"], .directory), (["p", "src"], .directory), (["p", "src", "a.vue"], .file [97] 0o644),
    (["p", "src", "src"], .directory), (["p", "src", "src", "a.vue"], .file [98] 0o644)]⟩

/-- With an output root above the sources, a copy falls upon a unit that has been read. -/
theorem run_overwrites_unit :
    ((prepare .silent (rootsOnly "p/src" "p")).run.run (.start nestedUnits) :
        Except Fault (Option (Plan × Path)) × State).1 =
      .ok (some (Plan.ofRoots ⟨1, ["p", "src"]⟩ ⟨1, ["p"]⟩, ⟨1, ["p"]⟩)) ∧
    (Plan.ofRoots ⟨1, ["p", "src"]⟩ ⟨1, ["p"]⟩).IsUnit nestedUnits ["a.vue"] ∧
    nestedUnits.bytes? ["p", "src", "a.vue"] = some [97] ∧
    ((run .silent (rootsOnly "p/src" "p")).run.run (.start nestedUnits) :
        Except Fault Nat × State).2.session.tree.bytes? ["p", "src", "a.vue"] = some [98] := by
  exact ⟨by cbv, ⟨(Plan.admits_nil _).concat (by cbv), by cbv, rfl⟩, rfl, by cbv⟩

end LocaleLift.Run
