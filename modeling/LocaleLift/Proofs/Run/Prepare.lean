import LocaleLift.Run.Command
import LocaleLift.Proofs.Run.State
import LocaleLift.Proofs.Registry.Filing

/-! What a run finds and what it has changed when it is ready to walk. -/
namespace LocaleLift.Run

/-- Nothing has been converted yet: only log files have changed, no text is filed, and no failure is
counted. -/
structure IsFresh (t : FileTree) (s : State) : Prop where
  session : s.session.IsSetUp t
  registry : s.registry.toList = []
  failed : s.stats.failed = 0

theorem isFresh_start (t : FileTree) : IsFresh t (.start t) :=
  ⟨Log.Session.isSetUp_start t, rfl, rfl⟩

theorem IsFresh.quiet {t : FileTree} {s s' : State} (h : s.session.renewals = 0 → IsFresh t s)
    (hs : Quiet s s') (hcalm : s'.session.renewals = 0) : IsFresh t s' := by
  have hle := hs.session.renewals
  have h := h (by omega)
  exact ⟨h.session.log hs.session (by omega), by rw [hs.registry, h.registry],
    by rw [hs.failed, h.failed]⟩

/-- A run is ready to walk: it knows where its roots are, and the first of them is a directory. -/
structure IsReady (t : FileTree) (plan : Plan) (out : Path) (s : State) : Prop where
  fresh : IsFresh t s
  source : s.session.tree.Resolved plan.base.names
  directory : ∀ before, before <+: plan.base.names → s.session.tree.get? before = some .directory
  target : s.session.tree.Resolved out.names
  roots : plan.base.root = 1 ∧ out.root = 1

section Prepare

variable {host : Host} {a : Arguments} {t : FileTree} {s : State}

private theorem after_orWrongKind {α : Type} (x : Option α) :
    After (orWrongKind x) s (fun _ s' => s' = s) fun _ _ => True := by
  cases x with
  | none => exact trivial
  | some a => exact rfl

private theorem after_filledText (v : JsonValue) :
    After (filledText v) s (fun _ s' => s' = s) fun _ _ => True := by
  rw [filledText]
  split
  · rw [after_map]
    exact after_orWrongKind v.text?
  · exact rfl

private theorem after_loadConfig (h : s.session.renewals = 0 → IsFresh t s) :
    After (loadConfig host a) s (fun _ s' => s'.session.renewals = 0 → IsFresh t s')
      fun _ _ => True := by
  rw [loadConfig, after_bind, after_tree]
  split
  rw [after_bind]
  refine after_logAll fun s' h' => ?_
  split
  · rw [pure_bind]
    exact (after_orWrongKind _).imp (fun _ _ hs => hs ▸ IsFresh.quiet h h') fun _ _ h => h
  · rw [after_bind]
    exact trivial
  · rw [after_bind]
    exact trivial

private theorem after_setUpLogger (c : Config) (h : s.session.renewals = 0 → IsFresh t s) :
    After (setUpLogger host c) s (fun _ s' => s'.session.renewals = 0 → IsFresh t s')
      fun _ _ => True := by
  have hlevel {s : State} (h : s.session.renewals = 0 → IsFresh t s) :
      After (orWrongKind (Log.Level.ofValue? c.logLevel) >>= fun level =>
        onSession (Log.Session.setLevel level)) s (fun _ s' => s'.session.renewals = 0 → IsFresh t s')
        fun _ _ => True := by
    rw [after_bind]
    refine (after_orWrongKind _).imp (fun level s' hs => ?_) fun _ _ h => h
    subst hs
    rw [after_onSession, Log.Session.setLevel, after_modify]
    intro hcalm
    obtain ⟨⟨htree, hplaces, hopen⟩, hregistry, hfailed⟩ := h hcalm
    exact ⟨⟨htree, hplaces, hopen⟩, hregistry, hfailed⟩
  rw [setUpLogger, after_bind, after_onSession, Log.Session.addConsole, after_modify, after_bind]
  refine (after_filledText _).imp (fun name s₁ hs => ?_) fun _ _ h => h
  subst hs
  let session := { s.session with logger := s.session.logger.withConsole }
  have h₁ (hcalm : session.renewals = 0) : IsFresh t { s with session } :=
    have h := h hcalm
    ⟨h.session.withConsole, h.registry, h.failed⟩
  cases name with
  | none => exact hlevel h₁
  | some name =>
    dsimp only
    rw [after_bind, after_onSession]
    refine (Log.Session.after_addFile (s := session) _ fun hcalm => (h₁ hcalm).session).imp
      (fun _ s₂ h₂ => ?_) fun _ _ h => h
    exact hlevel fun hcalm =>
      have h := h (h₂.1.symm.trans hcalm)
      ⟨h₂.2 hcalm, h.registry, h.failed⟩

private theorem after_resolve {name : Text} :
    After (resolve host name) s
      (fun p s' => s' = s ∧ p.root = 1 ∧ s.session.tree.Resolved p.names) fun _ s' => s' = s := by
  rw [resolve, after_bind, after_tree]
  split
  · rename_i p hp
    exact ⟨rfl, FileTree.resolved_of_resolve hp⟩
  · exact rfl

theorem after_dictionaryDirectory {out : Path} :
    After (dictionaryDirectory host a out) s (fun _ s' => s' = s) fun _ s' => s' = s := by
  rw [dictionaryDirectory]
  split
  · exact after_resolve.imp (fun _ _ h => h.1) fun _ _ h => h
  · exact rfl

private theorem after_loadTerms (c : Config) :
    After (loadTerms host c) s (fun _ s' => Quiet s s') fun _ _ => True := by
  rw [loadTerms, after_bind]
  refine (after_filledText _).imp (fun name s' hs => ?_) fun _ _ h => h
  subst hs
  cases name with
  | none => exact .refl s'
  | some name =>
    dsimp only
    rw [after_bind, after_tree, after_bind]
    exact after_logAll fun _ h => h

/-- Nothing has been converted when a run is ready to walk, nor if its roots cannot be used, as long
as no log file has been rolled over. -/
theorem after_prepare_fresh (host : Host) (a : Arguments) (t : FileTree) :
    After (prepare host a) (.start t)
      (fun x s => (s.session.renewals = 0 → IsFresh t s) ∧ ∀ plan out, x = some (plan, out) →
        plan.dryRun = a.dryRun ∧ (s.session.renewals = 0 → IsReady t plan out s))
      fun _ _ => True := by
  rw [prepare, after_bind]
  refine (after_loadConfig fun _ => isFresh_start t).imp (fun c s₁ h₁ => ?_) fun _ _ _ => trivial
  rw [after_bind]
  refine (after_setUpLogger c h₁).imp (fun _ s₂ h₂ => ?_) fun _ _ _ => trivial
  rw [after_bind]
  refine after_resolve.imp (fun src s₃ hsrc => ?_) fun _ _ _ => trivial
  obtain ⟨rfl, hsrcroot, hsrc⟩ := hsrc
  rw [after_bind]
  refine after_resolve.imp (fun out s₄ hout => ?_) fun _ _ _ => trivial
  obtain ⟨rfl, houtroot, hout⟩ := hout
  rw [after_bind, after_tree]
  split
  · rw [after_bind]
    exact after_log fun _ hs => ⟨IsFresh.quiet h₂ hs, by simp⟩
  · rename_i hdirectory
    split
    · rw [after_bind]
      exact after_log fun _ hs => ⟨IsFresh.quiet h₂ hs, by simp⟩
    · rw [after_bind]
      refine (after_loadTerms c).imp (fun terms s₅ h₅ => ?_) fun _ _ _ => trivial
      have hsource : s₄.session.tree.isDirectory src = true := by simpa using hdirectory
      have hready (hcalm : s₅.session.renewals = 0) :
          IsFresh t { s₅ with registry := .empty terms } :=
        have hfresh := IsFresh.quiet h₂ h₅ hcalm
        ⟨hfresh.session, rfl, hfresh.failed⟩
      rw [after_bind, after_modify, after_pure]
      refine ⟨hready, ?_⟩
      rintro plan out' ⟨⟩
      refine ⟨rfl, fun hcalm => ?_⟩
      have hchanges := h₅.session.tree (hcalm ▸ Nat.zero_le _)
      exact ⟨hready hcalm, hsrc.of_changes hchanges,
        fun before hpre => hchanges.directory before (hsrc.directory hsource hpre),
        hout.of_changes hchanges, hsrcroot, houtroot⟩

/-- What holds once a run is ready to walk. -/
theorem after_prepare (host : Host) (a : Arguments) (t : FileTree) :
    After (prepare host a) (.start t)
      (fun x s => ∀ plan out, x = some (plan, out) →
        plan.dryRun = a.dryRun ∧ (s.session.renewals = 0 → IsReady t plan out s)) fun _ _ => True :=
  (after_prepare_fresh host a t).imp (fun _ _ h => h.2) fun _ _ h => h

end Prepare

/-- A host with nothing to say, which works in the root of its file system. -/
def Host.silent : Host :=
  ⟨⟨1, []⟩, [], fun _ => [], fun _ => []⟩

/-- A command line that names the two roots only. -/
def rootsOnly (src out : Text) : Arguments :=
  ⟨src, out, none, none, none, none, [], false, false, false, none, none, none⟩

def Plan.ofRoots (src out : Path) : Plan where
  base := src
  ns := Config.default.ns
  commonNs := Config.default.commonNs
  function := Config.default.function
  ignore := Config.default.ignore.map (fun v => v.text?.map Glob.ofText) ++
    (outputPatterns src out).map fun t => some (Glob.ofText t)
  dryRun := false
  diff := false
  failFast := false
  maxFileSize := Config.default.maxFileSize

end LocaleLift.Run
