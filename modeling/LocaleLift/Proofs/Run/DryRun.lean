import LocaleLift.Proofs.Run.Keeps
import LocaleLift.Proofs.Run.Sources
import Mathlib

/-! A dry run leaves all files as they are. -/
namespace LocaleLift.Run

/-- The files are those of a tree, and records go to none of them. -/
structure Untouched (t : FileTree) (u : Log.Session) : Prop where
  tree : u.tree = t
  files : u.logger.files = []

section DryRun

variable {host : Host} {a : Arguments} {plan : Plan} {t : FileTree} {s : State}

private theorem untouched_handle {u : Log.Session} {time : Text} (r : Log.Record) (i : Nat)
    (h : Untouched t u) : Untouched t (u.handle time r i) := by
  rw [Log.Session.handle]
  split
  · exact ⟨h.tree, h.files⟩
  · rename_i f hf
    have hmem : f ∈ u.logger.files := List.mem_filterMap.mpr ⟨_, List.mem_of_getElem? hf, rfl⟩
    rw [h.files] at hmem
    cases hmem
  · exact h

private theorem untouched_log {u : Log.Session} (r : Log.Record) (h : Untouched t u) :
    Untouched t (u.log host.time r) := by
  have hfold (is : List Nat) (v : Log.Session) (hv : Untouched t v) :
      Untouched t (is.foldl (Log.Session.handle host.time r) v) := by
    induction is generalizing v with
    | nil => exact hv
    | cons i is ih => exact ih _ (untouched_handle r i hv)
  rw [Log.Session.log]
  split
  · exact h
  · split
    · split
      · exact ⟨h.tree, h.files⟩
      · exact h
    · exact hfold _ u h

private theorem isKept_untouched (hdry : plan.dryRun = true) : IsKept host plan (Untouched t) where
  log _ r h := untouched_log r h
  write hwet := by
    rw [hdry] at hwet
    cases hwet

private theorem keeps_orWrongKind {α : Type} (x : Option α) :
    Keeps (fun s => Untouched t s.session) (orWrongKind x) := by
  cases x with
  | none => exact keeps_throw _
  | some a => exact keeps_pure a

private theorem keeps_filledText (v : JsonValue) :
    Keeps (fun s => Untouched t s.session) (filledText v) := by
  rw [filledText]
  split
  · exact (keeps_orWrongKind _).map _
  · exact keeps_pure none

private theorem keeps_loadConfig : Keeps (fun s => Untouched t s.session) (loadConfig host a) := by
  refine keeps_tree.bind fun u => ?_
  split
  refine (keeps_logAll (fun _ r => untouched_log r) _).bind fun _ => ?_
  split
  · exact (keeps_pure _).bind fun _ => keeps_orWrongKind _
  · exact keeps_throw_bind _
  · exact keeps_throw_bind _

private theorem keeps_setUpLogger {c : Config} (hlog : c.logFile.isFilled = false) :
    Keeps (fun s => Untouched t s.session) (setUpLogger host c) := by
  have hnone : filledText c.logFile = pure none := by
    rw [filledText, hlog]
    rfl
  rw [setUpLogger, hnone, pure_bind]
  have hconsole : Keeps (Untouched t) Log.Session.addConsole :=
    keeps_modify fun _ h => ⟨h.tree, by rw [Log.Logger.files_withConsole, h.files]⟩
  refine (keeps_onSession hconsole).bind fun _ => ?_
  refine (keeps_orWrongKind _).bind fun level => ?_
  exact keeps_onSession (keeps_modify fun _ h => ⟨h.tree, h.files⟩)

private theorem keeps_loadTerms (c : Config) :
    Keeps (fun s => Untouched t s.session) (loadTerms host c) := by
  refine (keeps_filledText _).bind fun name => ?_
  split
  · exact keeps_pure _
  · refine keeps_tree.bind fun u => ?_
    split
    exact (keeps_logAll (fun _ r => untouched_log r) _).bind fun _ => keeps_pure _

/-- Getting ready touches no file if the settings name no log file. -/
private theorem after_prepare_untouched
    (hlog : ∀ c s, ((loadConfig host a).run.run (.start t) : Except Fault Config × State) =
      (.ok c, s) → c.logFile.isFilled = false) :
    After (prepare host a) (.start t) (fun _ s => Untouched t s.session)
      fun _ s => Untouched t s.session := by
  rw [prepare, after_bind]
  refine (after_self.and (keeps_loadConfig (.start t) ⟨rfl, rfl⟩)).imp (fun c s h => ?_)
    fun _ _ h => h.2
  obtain ⟨hload, hs⟩ := h
  refine Keeps.bind (keeps_setUpLogger (hlog c s hload)) (fun _ => ?_) s hs
  refine (keeps_resolve _).bind fun src => (keeps_resolve _).bind fun out => ?_
  refine keeps_tree.bind fun u => ?_
  have herror (message : Text) : Keeps (fun s => Untouched t s.session) (log host .error message) :=
    keeps_log (fun _ r => untouched_log r) _ _
  split
  · exact (herror _).bind fun _ => keeps_pure _
  · split
    · exact (herror _).bind fun _ => keeps_pure _
    · refine (keeps_loadTerms c).bind fun terms => ?_
      exact Keeps.bind (keeps_modify fun _ h => h) fun _ => keeps_pure _

private theorem keeps_finishDictionaries (hdry : plan.dryRun = true) (directory : Path) :
    Keeps (fun s => Untouched t s.session) (finishDictionaries host plan directory) := by
  rw [finishDictionaries, if_pos hdry]
  refine Keeps.bind (keeps_get.bind fun s => ?_) fun _ => keeps_pure _
  dsimp only
  split
  · exact keeps_throw_bind _
  · exact keeps_log (fun _ r => untouched_log r) _ _

end DryRun

/-- However a dry run ends, all files are as they were before it, if the settings name no log file. -/
theorem run_dry [Script.Parser] (host : Host) (a : Arguments) {t : FileTree}
    (hdry : a.dryRun = true)
    (hlog : ∀ c s, ((loadConfig host a).run.run (.start t) : Except Fault Config × State) =
      (.ok c, s) → c.logFile.isFilled = false) :
    ((run host a).run.run (.start t) : Except Fault Nat × State).2.session.tree = t := by
  have hrun : After (run host a) (.start t) (fun _ s => Untouched t s.session)
      fun _ s => Untouched t s.session := by
    rw [run, after_bind, perform, after_bind]
    refine ((after_prepare host a t).and (after_prepare_untouched hlog)).imp (fun x s h => ?_)
      fun _ _ h => h.2
    obtain ⟨hplan, hs⟩ := h
    split
    · rename_i plan out
      have hdry := (hplan plan out rfl).1.trans hdry
      exact keeps_complete (isKept_untouched hdry) (keeps_finishDictionaries hdry) out s hs
    · exact hs
  exact hrun.state.tree

private theorem loadConfig_oneUnit :
    ((loadConfig .silent { rootsOnly "src" "out" with dryRun := true }).run.run (.start oneUnit) :
      Except Fault Config × State).1.map (fun c => c.logFile.isFilled) = .ok false := by
  cbv

theorem run_dry_oneUnit :
    (∀ c s, ((loadConfig .silent { rootsOnly "src" "out" with dryRun := true }).run.run
        (.start oneUnit) : Except Fault Config × State) = (.ok c, s) →
      c.logFile.isFilled = false) ∧
    ((run .silent { rootsOnly "src" "out" with dryRun := true }).run.run (.start oneUnit) :
      Except Fault Nat × State).2.session.tree = oneUnit := by
  have hlog (c : Config) (s : State)
      (h : ((loadConfig .silent { rootsOnly "src" "out" with dryRun := true }).run.run
        (.start oneUnit) : Except Fault Config × State) = (.ok c, s)) :
      c.logFile.isFilled = false := by
    have hload := loadConfig_oneUnit
    rw [h] at hload
    exact Except.ok.inj hload
  exact ⟨hlog, run_dry .silent { rootsOnly "src" "out" with dryRun := true } rfl hlog⟩

end LocaleLift.Run
