import LocaleLift.Run.Walk
import LocaleLift.Proofs.Run.State
import Mathlib.Logic.Relation

/-! The walk as a machine that takes one turn after another, so that it can be looked at between
them. -/
namespace LocaleLift.Run

/-- A unit that was handed over to be localized, with the states before and after. -/
structure Handover where
  source : Path
  target : Path
  before : State
  after : State

/-- What a walk has to do: walk through a directory, deal with an entry of one, or localize a unit. -/
inductive Task where
  | directory (depth : Nat) (source target : Path)
  | entry (depth : Nat) (source target : Path)
  | unit (source target : Path)

namespace Task

def run [Script.Parser] (host : Host) (plan : Plan) : Task → StepM Unit
  | directory depth source target => walk host plan depth source target
  | entry depth source target => enter host plan (walk host plan depth) source target
  | unit source target => visitUnit host plan source target

/-- Do the first part of a task. The answer is what is left to do of it. -/
def turn [Script.Parser] (host : Host) (plan : Plan) : Task → StepM (List Task)
  | directory 0 source _ => throw (.directory source .nameTooLong)
  | directory (depth + 1) source target => do
    match (← tree).readNames source with
    | .error e => throw (.directory source e)
    | .ok names =>
      return (Text.sort names).map fun name => entry depth (source.child name) (target.child name)
  | entry depth source target => do
    if ← liftM (isIgnored plan.base source plan.ignore) then return []
    match (← tree).find false source with
    | .ok (_, some (.link _)) =>
      log host .warning ("Skipping symlink: " ++ source.toText)
      return []
    | .ok (_, some .directory) => return [directory depth source target]
    | .ok (_, some (.file _ _)) =>
      return if (UnitKind.ofPath? source).isSome then [unit source target] else []
    | .error .nameTooLong => throw (.file .nameTooLong)
    | .error .nullInName => throw (.file .nullInName)
    | _ => return []
  | unit source target => do
    visitUnit host plan source target
    return []

variable {host : Host} {plan : Plan}

/-- A task is its first part, and then what is left to do. -/
theorem run_eq [Script.Parser] (t : Task) :
    t.run host plan = t.turn host plan >>= fun ts => ts.forM (run host plan) := by
  cases t with
  | directory depth source target =>
    cases depth with
    | zero => rfl
    | succ depth =>
      rw [run, walk, turn, bind_assoc]
      refine bind_congr fun t => ?_
      cases t.readNames source with
      | error e => rfl
      | ok names =>
        rw [pure_bind]
        dsimp only
        induction Text.sort names with
        | nil => rfl
        | cons name names ih => exact bind_congr fun _ => ih
  | entry depth source target =>
    rw [run, enter, turn, bind_assoc]
    refine bind_congr fun ignored => ?_
    split
    · rfl
    · rw [bind_assoc]
      refine bind_congr fun t => ?_
      rcases t.find false source with e | ⟨_, _ | e⟩
      · cases e <;> rfl
      · rfl
      · cases e with
        | link _ =>
          dsimp only
          rw [bind_assoc]
          exact bind_pure_unit.symm
        | directory => exact bind_pure_unit.symm
        | file _ _ =>
          rw [pure_bind]
          dsimp only
          split
          · exact bind_pure_unit.symm
          · rfl
  | unit source target =>
    rw [turn, bind_assoc]
    exact bind_pure_unit.symm

/-- How many parts a task has at most, one inside the other. -/
def rank : Task → Nat
  | directory depth _ _ => 2 * depth + 1
  | entry depth _ _ => 2 * depth + 2
  | unit _ _ => 0

/-- The unit that a task hands over, with the states before and after. -/
def handovers (t : Task) (s s' : State) : List Handover :=
  match t with
  | unit source target => [⟨source, target, s, s'⟩]
  | _ => []

/-- A turn leaves tasks of lower rank only. If it hands no unit over, it changes the session only. -/
theorem after_turn [Script.Parser] (t : Task) (s : State) :
    After (t.turn host plan) s
      (fun ts s' => (∀ u ∈ ts, u.rank < t.rank) ∧
        (t.handovers s s' = [] → ∃ u, s' = { s with session := u }))
      fun _ s' => t.handovers s s' = [] → ∃ u, s' = { s with session := u } := by
  cases t with
  | directory depth source target =>
    cases depth with
    | zero => exact fun _ => ⟨_, rfl⟩
    | succ depth =>
      rw [turn, after_bind, after_tree]
      split
      · exact fun _ => ⟨_, rfl⟩
      · refine ⟨fun u hu => ?_, fun _ => ⟨_, rfl⟩⟩
        obtain ⟨name, -, rfl⟩ := List.mem_map.mp hu
        simp only [rank]
        omega
  | entry depth source target =>
    rw [turn, after_bind, after_lift]
    refine ⟨fun ignored _ => ?_, fun _ _ _ => ⟨_, rfl⟩⟩
    split
    · exact ⟨by simp, fun _ => ⟨_, rfl⟩⟩
    · rw [after_bind, after_tree]
      split
      · exact ⟨by simp, fun _ => ⟨_, rfl⟩⟩
      · exact ⟨by simp [rank], fun _ => ⟨_, rfl⟩⟩
      · refine ⟨?_, fun _ => ⟨_, rfl⟩⟩
        split <;> simp [rank]
      · exact fun _ => ⟨_, rfl⟩
      · exact fun _ => ⟨_, rfl⟩
      · exact ⟨by simp, fun _ => ⟨_, rfl⟩⟩
  | unit source target =>
    rw [turn, after_bind]
    refine After.imp after_self (fun _ s' _ => ⟨by simp, fun h => ?_⟩) fun _ s' _ h => ?_
    · exact absurd h (List.cons_ne_nil _ _)
    · exact absurd h (List.cons_ne_nil _ _)

end Task

/-- A point of a walk: the units that have been handed over, the tasks that are left, the state, and the
fault, if the walk broke off. -/
structure Point where
  handed : List Handover
  agenda : List Task
  state : State
  fault : Option Fault

namespace Point

def start (depth : Nat) (source target : Path) (s : State) : Point :=
  ⟨[], [.directory depth source target], s, none⟩

/-- The point where a walk ends with a result and a state. -/
def last (handed : List Handover) (x : Except Fault Unit × State) : Point :=
  ⟨handed, [], x.2, match x.1 with | .ok _ => none | .error e => some e⟩

/-- The point after the next turn, which the first task takes. -/
def next? [Script.Parser] (host : Host) (plan : Plan) (p : Point) : Option Point :=
  match p.fault, p.agenda with
  | none, t :: agenda =>
    match ((t.turn host plan).run.run p.state : Except Fault (List Task) × State) with
    | (.ok ts, s) => some ⟨p.handed ++ t.handovers p.state s, ts ++ agenda, s, none⟩
    | (.error e, s) => some ⟨p.handed ++ t.handovers p.state s, [], s, some e⟩
  | _, _ => none

/-- One point comes after another, however many turns there are between them. -/
def Reaches [Script.Parser] (host : Host) (plan : Plan) : Point → Point → Prop :=
  Relation.ReflTransGen fun p q => p.next? host plan = some q

variable {host : Host} {plan : Plan} {p : Point}

private theorem next?_last [Script.Parser] (handed : List Handover) (x : Except Fault Unit × State)
    :
    (last handed x).next? host plan = none := by
  rw [next?, last]
  split
  · rename_i h
    cases h
  · rfl

theorem next?_of_ok [Script.Parser] {t : Task} {agenda ts : List Task} {handed : List Handover}
    {s s' : State}
    (h : ((t.turn host plan).run.run s : Except Fault (List Task) × State) = (.ok ts, s')) :
    next? host plan ⟨handed, t :: agenda, s, none⟩ =
      some ⟨handed ++ t.handovers s s', ts ++ agenda, s', none⟩ := by
  simp only [next?, h]

theorem next?_of_error [Script.Parser] {t : Task} {agenda : List Task} {handed : List Handover}
    {s s' : State}
    {e : Fault}
    (h : ((t.turn host plan).run.run s : Except Fault (List Task) × State) = (.error e, s')) :
    next? host plan ⟨handed, t :: agenda, s, none⟩ =
      some ⟨handed ++ t.handovers s s', [], s', some e⟩ := by
  simp only [next?, h]

/-- Once a task is done, the walk goes on with the others. -/
private theorem reaches_task [Script.Parser] (t : Task) (agenda : List Task)
    {handed : List Handover} {s : State}
    (h : Reaches host plan p ⟨handed, t :: agenda, s, none⟩) :
    After (t.run host plan) s
      (fun _ s' => ∃ handed, Reaches host plan p ⟨handed, agenda, s', none⟩)
      fun e s' => ∃ handed, Reaches host plan p ⟨handed, [], s', some e⟩ := by
  -- By induction on the rank: what is left to do of a task may be a longer list, but has less in it.
  induction hrank : t.rank using Nat.strongRecOn generalizing t agenda handed s with
  | _ n ih =>
    subst hrank
    have htasks (ts : List Task) (hts : ∀ u ∈ ts, u.rank < t.rank) : ∀ {handed s},
        Reaches host plan p ⟨handed, ts ++ agenda, s, none⟩ →
          After (ts.forM (Task.run host plan)) s
            (fun _ s' => ∃ handed, Reaches host plan p ⟨handed, agenda, s', none⟩)
            fun e s' => ∃ handed, Reaches host plan p ⟨handed, [], s', some e⟩ := by
      induction ts with
      | nil => exact fun {handed _} h => ⟨handed, h⟩
      | cons u ts ihts =>
        obtain ⟨hu, hts⟩ := List.forall_mem_cons.mp hts
        intro handed s h
        change After (u.run host plan >>= fun _ => ts.forM (Task.run host plan)) s _ _
        rw [after_bind]
        refine (ih u.rank hu u (ts ++ agenda) h rfl).imp (fun _ s' h' => ?_) fun _ _ h' => h'
        obtain ⟨handed', h'⟩ := h'
        exact ihts hts h'
    rw [Task.run_eq, after_bind]
    refine (after_self.and (t.after_turn s)).imp (fun ts s' h' => ?_) fun e s' h' => ?_
    · exact htasks ts h'.2.1 (h.tail (next?_of_ok h'.1))
    · exact ⟨_, h.tail (next?_of_error h'.1)⟩

/-- The turns taken one after another come to where the walk ends, with its result and its state, and
every point that they come to lies on the way there. -/
theorem reaches_last [Script.Parser] (host : Host) (plan : Plan) (depth : Nat)
    (source target : Path) (s : State) :
    ∃ handed, ∀ p, Reaches host plan (start depth source target s) p →
      Reaches host plan p (last handed ((walk host plan depth source target).run.run s)) := by
  obtain ⟨handed, h⟩ : ∃ handed, Reaches host plan (start depth source target s)
      (last handed ((walk host plan depth source target).run.run s)) := by
    have h : After (walk host plan depth source target) s
        (fun _ s' => ∃ handed,
          Reaches host plan (start depth source target s) ⟨handed, [], s', none⟩)
        fun e s' => ∃ handed,
          Reaches host plan (start depth source target s) ⟨handed, [], s', some e⟩ :=
      reaches_task (.directory depth source target) [] .refl
    rw [After] at h
    cases hwalk : ((walk host plan depth source target).run.run s : Except Fault Unit × State) with
    | mk x s' =>
      rw [hwalk] at h
      cases x <;> exact h
  refine ⟨handed, fun p hp => ?_⟩
  -- Each point has at most one next point, so that of two that are reached one lies behind the other.
  obtain hlast | hlast := h.total_of_right_unique
    (fun _ _ _ ha hb => Option.some.inj (ha.symm.trans hb)) hp
  · obtain rfl | ⟨q, hq, -⟩ := hlast.cases_head
    · exact .refl
    · rw [next?_last] at hq
      cases hq
  · exact hlast

end Point

end LocaleLift.Run
