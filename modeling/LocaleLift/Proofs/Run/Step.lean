import LocaleLift.Proofs.Run.State
import LocaleLift.Run.Command

/-! Steps of a walk once it is known what they find. -/
namespace LocaleLift.Run

variable {host : Host} {plan : Plan} {source target : Path} {s : State} {q : PUnit → State → Prop}
  {r : Fault → State → Prop}

/-- A unit that is small enough and can be read is localized. -/
theorem after_visitUnit_of_read [Script.Parser] {text : Text}
    (hsize : isTooLarge plan.maxFileSize
      ((s.session.tree.readBytes source).toOption.getD []).length = .ok false)
    (htext : s.session.tree.readText source = .ok text)
    (h : After (do
        let new ← renew host plan source text
        noteChange plan source text new
        if plan.dryRun then return
        onSession (Log.Session.write target new)
        log host .info ("Converted " ++ source.toText ++ " => " ++ target.toText))
      { s with stats := { s.stats with scanned := s.stats.scanned + 1 } } q r) :
    After (visitUnit host plan source target) s q r := by
  rw [visitUnit, after_bind, count, after_modify, after_bind, after_tree]
  dsimp only
  rw [hsize, after_bind, after_lift]
  refine ⟨fun large hlarge => ?_, fun e he => by cases he⟩
  obtain rfl := Except.ok.inj hlarge
  rw [if_neg Bool.false_ne_true, after_bind, after_tree]
  dsimp only
  rw [htext]
  exact h

/-- A unit whose text stays as it is is copied. -/
theorem after_visitUnit_of_same [Script.Parser] {text : Text}
    (hsize : isTooLarge plan.maxFileSize
      ((s.session.tree.readBytes source).toOption.getD []).length = .ok false)
    (htext : s.session.tree.readText source = .ok text)
    (hrenew : After (renew host plan source text)
      { s with stats := { s.stats with scanned := s.stats.scanned + 1 } }
      (fun new s' => new = text ∧
        s' = { s with stats := { s.stats with scanned := s.stats.scanned + 1 } }) fun _ _ => False)
    (hdry : plan.dryRun = false)
    (h : After (do
        onSession (Log.Session.write target text)
        log host .info ("Converted " ++ source.toText ++ " => " ++ target.toText))
      { s with stats := { s.stats with scanned := s.stats.scanned + 1 } } q r) :
    After (visitUnit host plan source target) s q r := by
  refine after_visitUnit_of_read hsize htext ?_
  rw [after_bind]
  refine hrenew.imp (fun new s' hsame => ?_) fun _ _ => False.elim
  obtain ⟨rfl, rfl⟩ := hsame
  rw [noteChange, if_neg (not_not_intro rfl), pure_bind, hdry, if_neg Bool.false_ne_true]
  exact h

/-- A unit that is not left out is visited. -/
theorem after_enter_of_unit [Script.Parser] {descend : Path → Path → StepM Unit} {l : Location}
    {bytes : List UInt8} {mode : Nat} (hignored : isIgnored plan.base source plan.ignore = .ok false)
    (hfind : s.session.tree.find false source = .ok (l, some (.file bytes mode)))
    (hkind : (UnitKind.ofPath? source).isSome = true)
    (h : After (visitUnit host plan source target) s q r) :
    After (enter host plan descend source target) s q r := by
  rw [enter, hignored, after_bind, after_lift]
  refine ⟨fun ignored hout => ?_, fun e he => by cases he⟩
  obtain rfl := Except.ok.inj hout
  rw [if_neg Bool.false_ne_true, after_bind, after_tree, hfind]
  dsimp only
  rw [if_pos hkind]
  exact h

/-- A directory that can be listed is walked through in the order of its names. -/
theorem after_walk_of_names [Script.Parser] {depth : Nat} {names sorted : List Text}
    (hnames : s.session.tree.readNames source = .ok names) (hsorted : Text.sort names = sorted)
    (h : After (sorted.forM fun name =>
      enter host plan (walk host plan depth) (source.child name) (target.child name)) s q r) :
    After (walk host plan (depth + 1) source target) s q r := by
  rw [walk, after_bind, after_tree, hnames]
  dsimp only
  rw [hsorted]
  exact h

/-- In a directory with a single unit, this is visited. -/
theorem after_walk_of_unit [Script.Parser] {depth : Nat} {name : Text} {l : Location}
    {bytes : List UInt8} {mode : Nat}
    (hnames : s.session.tree.readNames source = .ok [name])
    (hignored : isIgnored plan.base (source.child name) plan.ignore = .ok false)
    (hfind : s.session.tree.find false (source.child name) = .ok (l, some (.file bytes mode)))
    (hkind : (UnitKind.ofPath? (source.child name)).isSome = true)
    (h : After (visitUnit host plan (source.child name) (target.child name)) s q r) :
    After (walk host plan (depth + 1) source target) s q r := by
  have hsorted : Text.sort [name] = [name] := by simp [Text.sort]
  refine after_walk_of_names hnames hsorted ?_
  rw [after_forM_cons]
  exact (after_enter_of_unit hignored hfind hkind h).imp (fun _ _ h => h) fun _ _ h => h

/-- Once the walk has been done, a run goes on to the dictionaries. -/
theorem after_complete_of_walk [Script.Parser] {a : Arguments} {out : Path} {walked : State}
    {q : Outcome → State → Prop}
    (hwalk : After (walk host plan FileTree.maxPath plan.base out) s (fun _ s' => s' = walked)
      fun _ _ => False)
    (h : After (do
        modify fun s => { s with output := if a.diff then Text.join "\n" s.diffs else s.output }
        let directory ← dictionaryDirectory host a out
        if !(← finishDictionaries host plan directory) then return .broken
        let stats := (← get).stats
        log host .info ("Done. " ++ stats.text)
        return .finished plan out directory stats) walked q r) :
    After (complete host a plan out) s q r := by
  rw [complete, after_bind, convert, after_tryCatch, after_bind]
  refine hwalk.imp (fun _ s' hs => ?_) fun _ _ => False.elim
  subst hs
  exact h

end LocaleLift.Run
