import LocaleLift.Proofs.Run.Machine
import LocaleLift.Proofs.Run.Mirror
import LocaleLift.Proofs.SourceUnit.Isolation
import Mathlib.Data.List.Induction

/-! What a walk has counted, at each point between its turns. -/
namespace LocaleLift.Run

namespace Stats

/-- The counts of two parts of a run together. -/
instance : Add Stats where
  add a b := ⟨a.scanned + b.scanned, a.changed + b.changed, a.failed + b.failed,
    a.skipped + b.skipped, a.extracted + b.extracted⟩

/-- What has been counted since. -/
instance : Sub Stats where
  sub a b := ⟨a.scanned - b.scanned, a.changed - b.changed, a.failed - b.failed,
    a.skipped - b.skipped, a.extracted - b.extracted⟩

variable (a b : Stats)

@[simp] theorem scanned_add : (a + b).scanned = a.scanned + b.scanned := rfl

@[simp] theorem changed_add : (a + b).changed = a.changed + b.changed := rfl

@[simp] theorem failed_add : (a + b).failed = a.failed + b.failed := rfl

@[simp] theorem skipped_add : (a + b).skipped = a.skipped + b.skipped := rfl

@[simp] theorem extracted_add : (a + b).extracted = a.extracted + b.extracted := rfl

theorem eq_iff {a b : Stats} : a = b ↔ a.scanned = b.scanned ∧ a.changed = b.changed ∧
    a.failed = b.failed ∧ a.skipped = b.skipped ∧ a.extracted = b.extracted := by
  cases a
  cases b
  exact Iff.of_eq (mk.injEq ..)

protected theorem add_assoc (c : Stats) : a + b + c = a + (b + c) := by
  simp [eq_iff, Nat.add_assoc]

protected theorem zero_add : zero + a = a := by
  simp [eq_iff, zero]

protected theorem add_sub_cancel_left : a + b - a = b :=
  eq_iff.mpr ⟨Nat.add_sub_cancel_left .., Nat.add_sub_cancel_left .., Nat.add_sub_cancel_left ..,
    Nat.add_sub_cancel_left .., Nat.add_sub_cancel_left ..⟩

end Stats

/-- A part of a run adds to the counts. What it files is counted, and so is what it puts into the list
of diffs, if there is to be one. -/
structure Adds (plan : Plan) (d : Stats) (s s' : State) : Prop where
  stats : s'.stats = s.stats + d
  size : s'.registry.size = s.registry.size + d.extracted
  diffs : s'.diffs.length = s.diffs.length + if plan.diff then d.changed else 0

/-- A part of a run handles one unit, which counts as one of changed, failed and skipped or as none. -/
def Handles (plan : Plan) (s s' : State) : Prop :=
  ∃ d : Stats, Adds plan d s s' ∧ d.scanned = 1 ∧ d.changed + d.failed + d.skipped ≤ 1

section Unit

variable {host : Host} {plan : Plan} {d d' : Stats} {s s' s'' : State} {source target : Path}
  {text : Text} {r : Fault → State → Prop}

theorem Adds.trans (h : Adds plan d s s') (h' : Adds plan d' s' s'') : Adds plan (d + d') s s'' where
  stats := by rw [h'.stats, h.stats, Stats.add_assoc]
  size := by rw [h'.size, h.size, Stats.extracted_add, Nat.add_assoc]
  diffs := by
    rw [h'.diffs, h.diffs, Stats.changed_add, Nat.add_assoc]
    split <;> rfl

/-- What only changes the session counts nothing. -/
theorem adds_session (s : State) (u : Log.Session) : Adds plan .zero s { s with session := u } :=
  ⟨rfl, rfl, by simp [Stats.zero]⟩

private theorem adds_log (plan : Plan) {q : PUnit → State → Prop} {level : Log.Level} {message : Text}
    (h : ∀ s', Adds plan .zero s s' → q ⟨⟩ s') : After (log host level message) s q r :=
  h _ (adds_session s _)

private theorem adds_localizeUnit [Script.Parser] :
    After (localizeUnit host plan source text) s
      (fun _ s' => ∃ n, Adds plan ⟨0, 0, 0, 0, n⟩ s s') fun _ s' => Adds plan .zero s s' := by
  rw [localizeUnit, after_bind, after_get]
  dsimp only
  rw [after_bind, logAll, after_modify]
  split
  · rw [after_bind]
    exact adds_session s _
  · split
    · rw [after_bind]
      exact adds_session s _
    · rw [after_bind, after_modify, after_bind, count, after_modify]
      refine ⟨_, rfl, ?_, by simp⟩
      exact (Nat.add_sub_of_le (SourceUnit.process_keeps ..).size_le).symm

/-- A unit counts as failed at most once, and then it keeps its text. -/
private theorem adds_renew [Script.Parser] :
    After (renew host plan source text) s
      (fun new s' => ∃ f n, (f = 0 ∨ f = 1 ∧ new = text) ∧ Adds plan ⟨0, 0, f, 0, n⟩ s s')
      fun _ s' => ∃ f n, f ≤ 1 ∧ Adds plan ⟨0, 0, f, 0, n⟩ s s' := by
  rw [renew, after_bind]
  refine adds_localizeUnit.imp (fun x s₁ h₁ => ?_) fun _ _ h => ⟨0, 0, Nat.zero_le _, h⟩
  obtain ⟨n, h₁⟩ := h₁
  split
  · exact ⟨0, n, .inl rfl, h₁⟩
  · rw [after_bind, count, after_modify, after_bind]
    refine adds_log plan fun s₂ h₂ => ?_
    have hfailed : Adds plan ⟨0, 0, 1, 0, 0⟩ s₁ s₂ := ⟨h₂.stats, h₂.size, h₂.diffs⟩
    split
    · rw [after_bind]
      exact ⟨1, n, Nat.le_refl _, h₁.trans hfailed⟩
    · exact ⟨1, n, .inr ⟨rfl, rfl⟩, h₁.trans hfailed⟩
  · exact ⟨0, n, Nat.zero_le _, h₁⟩

private theorem adds_noteChange {new : Text} :
    After (noteChange plan source text new) s
      (fun _ s' => Adds plan ⟨0, if new = text then 0 else 1, 0, 0, 0⟩ s s') r := by
  rw [noteChange]
  by_cases hnew : new = text
  · rw [if_neg (not_not.mpr hnew), if_pos hnew]
    exact adds_session s s.session
  · rw [if_pos hnew, if_neg hnew, after_bind, count, after_modify]
    split
    · rename_i hdiff
      exact ⟨rfl, rfl, by simp [hdiff]⟩
    · rename_i hdiff
      exact ⟨rfl, rfl, by simp [hdiff]⟩

private theorem adds_put {new : Text} {level : Log.Level} {message : Text} :
    After (do onSession (Log.Session.write target new); log host level message) s
      (fun _ s' => Adds plan .zero s s') fun _ s' => Adds plan .zero s s' := by
  rw [after_bind, after_onSession]
  refine After.imp after_self (fun _ u _ => ?_) fun _ u _ => adds_session s u
  exact adds_log plan fun s' h' => (adds_session s u).trans h'

/-- A unit that has been read and counted once is not counted as changed if it failed. -/
private theorem handles_deliver [Script.Parser] {level : Log.Level} {message : Text}
    (h : Adds plan ⟨1, 0, 0, 0, 0⟩ s s') :
    After (do
        let new ← renew host plan source text
        noteChange plan source text new
        if plan.dryRun then return
        onSession (Log.Session.write target new)
        log host level message) s'
      (fun _ s'' => Handles plan s s'') fun _ s'' => Handles plan s s'' := by
  rw [after_bind]
  refine adds_renew.imp (fun new s₁ h₁ => ?_) fun _ _ h₁ => ?_
  · obtain ⟨f, n, hf, h₁⟩ := h₁
    rw [after_bind]
    refine adds_noteChange.imp (fun _ s₂ h₂ => ?_) fun _ _ h₂ => h₂
    have honce : (if new = text then 0 else 1) + f ≤ 1 := by
      obtain rfl | ⟨rfl, hnew⟩ := hf
      · split <;> simp
      · rw [if_pos hnew]
    have hhandles (s₃ : State) (h₃ : Adds plan .zero s₂ s₃) : Handles plan s s₃ :=
      ⟨_, ((h.trans h₁).trans h₂).trans h₃, rfl, by simpa [Stats.zero] using honce⟩
    split
    · exact hhandles s₂ (adds_session s₂ s₂.session)
    · exact adds_put.imp (fun _ => hhandles) fun _ => hhandles
  · obtain ⟨f, n, hf, h₁⟩ := h₁
    exact ⟨_, h.trans h₁, rfl, by simpa using hf⟩

/-- A unit that is visited is counted once, and as one of changed, failed and skipped at most. -/
theorem handles_visitUnit [Script.Parser] :
    After (visitUnit host plan source target) s
      (fun _ s' => Handles plan s s') fun _ s' => Handles plan s s' := by
  rw [visitUnit, after_bind, count, after_modify, after_bind, after_tree]
  dsimp only
  rw [after_bind, after_lift]
  let s₁ : State := { s with stats := { s.stats with scanned := s.stats.scanned + 1 } }
  have h₁ : Adds plan ⟨1, 0, 0, 0, 0⟩ s s₁ := ⟨rfl, rfl, by simp [s₁]⟩
  refine ⟨fun large _ => ?_, fun _ _ => ⟨_, h₁, rfl, Nat.zero_le _⟩⟩
  split
  · rw [after_bind]
    refine adds_log plan fun s₂ h₂ => ?_
    rw [after_bind, count, after_modify, after_pure]
    have hskipped : Adds plan ⟨0, 0, 0, 1, 0⟩ s₂
        { s₂ with stats := { s₂.stats with skipped := s₂.stats.skipped + 1 } } :=
      ⟨rfl, rfl, by simp⟩
    exact ⟨_, (h₁.trans h₂).trans hskipped, rfl, Nat.le_refl _⟩
  · rw [after_bind, after_tree]
    dsimp only
    split
    · rw [after_bind]
      refine adds_log plan fun s₂ h₂ => ?_
      rw [count, after_modify]
      have hfailed : Adds plan ⟨0, 0, 1, 0, 0⟩ s₂
          { s₂ with stats := { s₂.stats with failed := s₂.stats.failed + 1 } } :=
        ⟨rfl, rfl, by simp⟩
      exact ⟨_, (h₁.trans h₂).trans hfailed, rfl, Nat.le_refl _⟩
    · exact handles_deliver h₁

end Unit

def Handover.counts (h : Handover) : Stats :=
  h.after.stats - h.before.stats

def Handover.total (handed : List Handover) : Stats :=
  handed.foldl (fun c h => c + h.counts) .zero

/-- What has been counted since a state is what the units that were handed over added, each of them one
of changed, failed and skipped at most. -/
structure Tallies [Script.Parser] (host : Host) (plan : Plan) (s : State) (handed : List Handover)
    (s' : State) :
    Prop where
  visited : ∀ h ∈ handed,
    ((visitUnit host plan h.source h.target).run.run h.before : Except Fault Unit × State).2 = h.after
  once : ∀ h ∈ handed, h.counts.scanned = 1 ∧
    h.counts.changed + h.counts.failed + h.counts.skipped ≤ 1
  adds : Adds plan (Handover.total handed) s s'

section Walk

variable {host : Host} {plan : Plan} {s s₁ s₂ : State} {handed : List Handover}

private theorem Tallies.handover [Script.Parser] (h : Tallies host plan s handed s₁)
    {source target : Path}
    (hvisit : ((visitUnit host plan source target).run.run s₁ : Except Fault Unit × State).2 = s₂)
    (hhandles : Handles plan s₁ s₂) :
    Tallies host plan s (handed ++ [⟨source, target, s₁, s₂⟩]) s₂ := by
  obtain ⟨d, hd, hscanned, honce⟩ := hhandles
  have hcounts : Handover.counts ⟨source, target, s₁, s₂⟩ = d := by
    rw [Handover.counts, hd.stats, Stats.add_sub_cancel_left]
  refine ⟨fun u hu => ?_, fun u hu => ?_, ?_⟩
  · obtain hu | hu := List.mem_append.mp hu
    · exact h.visited u hu
    · rw [List.mem_singleton.mp hu]
      exact hvisit
  · obtain hu | hu := List.mem_append.mp hu
    · exact h.once u hu
    · rw [List.mem_singleton.mp hu, hcounts]
      exact ⟨hscanned, honce⟩
  · rw [Handover.total, List.foldl_append, List.foldl_cons, List.foldl_nil, hcounts]
    exact h.adds.trans hd

private theorem tallies_turn [Script.Parser] (t : Task) (h : Tallies host plan s handed s₁) :
    After (t.turn host plan) s₁ (fun _ s' => Tallies host plan s (handed ++ t.handovers s₁ s') s')
      fun _ s' => Tallies host plan s (handed ++ t.handovers s₁ s') s' := by
  cases t with
  | unit source target =>
    rw [Task.turn, after_bind]
    refine (after_self.and handles_visitUnit).imp (fun _ s₂ h' => ?_) fun _ s₂ h' => ?_
    · exact h.handover (congrArg Prod.snd h'.1) h'.2
    · exact h.handover (congrArg Prod.snd h'.1) h'.2
  | _ =>
    have hsession {s₂ : State} (h' : ∃ u, s₂ = { s₁ with session := u }) :
        Tallies host plan s (handed ++ []) s₂ := by
      obtain ⟨u, rfl⟩ := h'
      rw [List.append_nil]
      exact ⟨h.visited, h.once, h.adds.trans (adds_session s₁ u)⟩
    exact (Task.after_turn _ s₁).imp (fun _ _ h' => hsession (h'.2 rfl))
      fun _ _ h' => hsession (h' rfl)

/-- One turn keeps the tally. -/
theorem Tallies.next [Script.Parser] {p q : Point} (h : Tallies host plan s p.handed p.state)
    (hnext : p.next? host plan = some q) : Tallies host plan s q.handed q.state := by
  rw [Point.next?] at hnext
  split at hnext
  · rename_i t agenda _ _
    have hturn := tallies_turn t h
    split at hnext
    · rename_i hok
      cases hnext
      exact hturn.of_ok hok
    · rename_i herror
      cases hnext
      exact hturn.of_error herror
  · cases hnext

/-- The tally is right wherever a walk comes to. -/
theorem Tallies.reaches [Script.Parser] {p q : Point} (h : Tallies host plan s p.handed p.state)
    (hq : Point.Reaches host plan p q) : Tallies host plan s q.handed q.state := by
  induction hq with
  | refl => exact h
  | tail _ hnext ih => exact ih.next hnext

private theorem scanned_total (honce : ∀ h ∈ handed, h.counts.scanned = 1 ∧
    h.counts.changed + h.counts.failed + h.counts.skipped ≤ 1) :
    (Handover.total handed).scanned = handed.length ∧
      (Handover.total handed).changed + (Handover.total handed).failed +
        (Handover.total handed).skipped ≤ handed.length := by
  induction handed using List.reverseRecOn with
  | nil => exact ⟨rfl, Nat.le_refl _⟩
  | append_singleton handed h ih =>
    rw [List.forall_mem_append, List.forall_mem_singleton] at honce
    obtain ⟨hscanned, hmarks⟩ := ih honce.1
    obtain ⟨hone, hmark⟩ := honce.2
    have htotal : Handover.total (handed ++ [h]) = Handover.total handed + h.counts := by
      rw [Handover.total, List.foldl_append]
      rfl
    simp only [htotal, Stats.scanned_add, Stats.changed_add, Stats.failed_add, Stats.skipped_add,
      List.length_append, List.length_singleton]
    omega

end Walk

/-- The turns of a walk that starts with no counts and nothing filed come to where it ends or breaks off.
At each point between them the counts are consistent: they are what the units that were handed over
added, each of them one of changed, failed and skipped at most. As many texts have been extracted as
are filed, and there is a diff for each change, if there are to be any. -/
theorem walk_tallies [Script.Parser] (host : Host) (plan : Plan) (depth : Nat)
    (source target : Path) {s : State}
    (hstats : s.stats = .zero) (hentries : s.registry.entries = []) :
    (∃ handed, Point.Reaches host plan (.start depth source target s)
      (.last handed ((walk host plan depth source target).run.run s))) ∧
    ∀ p, Point.Reaches host plan (.start depth source target s) p →
      (∀ h ∈ p.handed,
        ((visitUnit host plan h.source h.target).run.run h.before : Except Fault Unit × State).2 =
          h.after ∧
        h.counts.changed + h.counts.failed + h.counts.skipped ≤ 1) ∧
      p.state.stats = Handover.total p.handed ∧
      p.state.stats.scanned = p.handed.length ∧
      p.state.stats.changed + p.state.stats.failed + p.state.stats.skipped ≤ p.state.stats.scanned ∧
      p.state.stats.extracted = p.state.registry.size ∧
      p.state.diffs.length = s.diffs.length + if plan.diff then p.state.stats.changed else 0 := by
  constructor
  · obtain ⟨handed, h⟩ := Point.reaches_last host plan depth source target s
    exact ⟨handed, h _ .refl⟩
  · intro p hp
    have hstart : Tallies host plan s [] s := ⟨nofun, nofun, adds_session s s.session⟩
    have h : Tallies host plan s p.handed p.state :=
      Tallies.reaches (p := .start depth source target s) hstart hp
    have hcounts : p.state.stats = Handover.total p.handed := by
      rw [h.adds.stats, hstats, Stats.zero_add]
    have hsize : s.registry.size = 0 := by rw [Registry.size, hentries]; rfl
    obtain ⟨hscanned, hmarks⟩ := scanned_total h.once
    refine ⟨fun u hu => ⟨h.visited u hu, (h.once u hu).2⟩, hcounts, ?_, ?_, ?_, ?_⟩
    · rw [hcounts, hscanned]
    · rw [hcounts, hscanned]
      exact hmarks
    · rw [h.adds.size, hsize, Nat.zero_add, hcounts]
    · rw [h.adds.diffs, hcounts]

/-- A tree with two files, one of which cannot be decoded. -/
def oneReadable : FileTree :=
  ⟨[(["src"], .directory), (["src", "a.vue"], .file [97] 0o644),
    (["src", "b.vue"], .file [255] 0o644)]⟩

theorem walk_tallies_two :
    let plan := Plan.ofRoots ⟨1, ["src"]⟩ ⟨1, ["out"]⟩
    let start := Point.start FileTree.maxPath ⟨1, ["src"]⟩ ⟨1, ["out"]⟩ (.start oneReadable)
    (State.start oneReadable).stats = .zero ∧ (State.start oneReadable).registry.entries = [] ∧
    ∃ handed s', Point.Reaches .silent plan start ⟨handed, [], s', none⟩ ∧
      handed.length = 2 ∧ Handover.total handed = ⟨2, 0, 1, 0, 0⟩ ∧ s'.registry.size = 0 := by
  intro plan start
  have hok : ((walk .silent plan FileTree.maxPath ⟨1, ["src"]⟩ ⟨1, ["out"]⟩).run.run
      (.start oneReadable) : Except Fault Unit × State).1 = .ok () := by cbv
  have hcounts : ((walk .silent plan FileTree.maxPath ⟨1, ["src"]⟩ ⟨1, ["out"]⟩).run.run
      (.start oneReadable) : Except Fault Unit × State).2.stats = ⟨2, 0, 1, 0, 0⟩ := by cbv
  obtain ⟨⟨handed, hlast⟩, htallies⟩ := walk_tallies .silent plan FileTree.maxPath ⟨1, ["src"]⟩
    ⟨1, ["out"]⟩ (s := .start oneReadable) rfl rfl
  obtain ⟨-, htotal, hscanned, -, hextracted, -⟩ := htallies _ hlast
  rw [Point.last, hok] at hlast
  refine ⟨rfl, rfl, handed, _, hlast, ?_, ?_, ?_⟩
  · exact hscanned.symm.trans (congrArg Stats.scanned hcounts)
  · exact htotal.symm.trans hcounts
  · exact hextracted.symm.trans (congrArg Stats.extracted hcounts)

end LocaleLift.Run
