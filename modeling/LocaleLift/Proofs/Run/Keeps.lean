import LocaleLift.Proofs.Dictionary
import LocaleLift.Proofs.Run.State
import LocaleLift.Run.Command

/-! What the walk keeps of the log session, if logging and writing a unit keep it. -/
namespace LocaleLift.Run

variable {host : Host} {plan : Plan} {p : Log.Session → Prop} {source target : Path}

/-- A property of sessions that logging keeps, and so does writing the file of a unit, unless the run
is a dry one. -/
structure IsKept (host : Host) (plan : Plan) (p : Log.Session → Prop) : Prop where
  log : ∀ u r, p u → p (u.log host.time r)
  write : plan.dryRun = false → ∀ target, (UnitKind.ofPath? target).isSome →
    ∀ text, Keeps p (Log.Session.write target text)

/-- That log files have been rolled over is not undone. -/
theorem isKept_renewals (host : Host) (plan : Plan) (n : Nat) :
    IsKept host plan fun u => n ≤ u.renewals where
  log u r hu := Nat.le_trans hu (Log.Session.le_renewals_log host.time r u)
  write _ target _ text := Log.Session.keeps_renewals_write n target text

theorem keeps_logAll (h : ∀ u r, p u → p (u.log host.time r)) (rs : List Log.Record) :
    Keeps (fun s => p s.session) (logAll host rs) := by
  refine keeps_modify fun s hs => ?_
  induction rs generalizing s with
  | nil => exact hs
  | cons r rs ih => exact ih { s with session := s.session.log host.time r } (h _ r hs)

theorem keeps_log (h : ∀ u r, p u → p (u.log host.time r)) (level : Log.Level) (message : Text) :
    Keeps (fun s => p s.session) (log host level message) :=
  keeps_logAll h _

theorem keeps_count (f : Stats → Stats) : Keeps (fun s => p s.session) (count f) :=
  keeps_modify fun _ hs => hs

theorem keeps_tree : Keeps (fun s => p s.session) tree :=
  fun _ hs => hs

theorem keeps_onSession {α : Type} {step : Log.Session.StepM α} (h : Keeps p step) :
    Keeps (fun s => p s.session) (onSession step) :=
  fun s hs => after_onSession.mpr (h s.session hs)

private theorem keeps_localizeUnit [Script.Parser] (h : IsKept host plan p) (text : Text) :
    Keeps (fun s => p s.session) (localizeUnit host plan source text) := by
  refine keeps_get.bind fun s => (keeps_logAll h.log _).bind fun _ => ?_
  dsimp only
  split
  · exact keeps_throw_bind _
  · split
    · exact keeps_throw_bind _
    · refine Keeps.bind (keeps_modify fun _ hs => hs) fun _ => ?_
      exact (keeps_count _).bind fun _ => keeps_pure _

private theorem keeps_renew [Script.Parser] (h : IsKept host plan p) (text : Text) :
    Keeps (fun s => p s.session) (renew host plan source text) := by
  refine (keeps_localizeUnit h text).bind fun result => ?_
  split
  · exact keeps_pure _
  · refine (keeps_count _).bind fun _ => (keeps_log h.log _ _).bind fun _ => ?_
    split
    · exact keeps_throw _
    · exact keeps_pure _
  · exact keeps_throw _

private theorem keeps_noteChange (text new : Text) :
    Keeps (fun s => p s.session) (noteChange plan source text new) := by
  rw [noteChange]
  split
  · refine (keeps_count _).bind fun _ => ?_
    split
    · exact keeps_modify fun _ hs => hs
    · exact keeps_pure _
  · exact keeps_pure _

private theorem keeps_visitUnit [Script.Parser] (h : IsKept host plan p)
    (hkind : (UnitKind.ofPath? target).isSome) :
    Keeps (fun s => p s.session) (visitUnit host plan source target) := by
  refine (keeps_count _).bind fun _ => keeps_tree.bind fun t => (keeps_lift _).bind fun large => ?_
  split
  · exact (keeps_log h.log _ _).bind fun _ => (keeps_count _).bind fun _ => keeps_pure _
  · refine keeps_tree.bind fun t => ?_
    split
    · exact (keeps_log h.log _ _).bind fun _ => keeps_count _
    · refine (keeps_renew h _).bind fun new => (keeps_noteChange _ new).bind fun _ => ?_
      split
      · exact keeps_pure _
      · rename_i hdry
        exact (keeps_onSession (h.write (by simpa using hdry) target hkind new)).bind fun _ =>
          keeps_log h.log _ _

theorem keeps_enter [Script.Parser] (h : IsKept host plan p) {descend : Path → Path → StepM Unit}
    (hdescend : ∀ source target, Keeps (fun s => p s.session) (descend source target))
    (hname : source.names.getLast? = target.names.getLast?) :
    Keeps (fun s => p s.session) (enter host plan descend source target) := by
  refine (keeps_lift _).bind fun ignored => ?_
  split
  · exact keeps_pure _
  · refine keeps_tree.bind fun t => ?_
    split
    · exact keeps_log h.log _ _
    · exact hdescend source target
    · split
      · rename_i hkind
        exact keeps_visitUnit h (UnitKind.ofPath?_congr hname ▸ hkind)
      · exact keeps_pure _
    · exact keeps_throw _
    · exact keeps_throw _
    · exact keeps_pure _

theorem keeps_walk [Script.Parser] (h : IsKept host plan p) (depth : Nat) (source target : Path) :
    Keeps (fun s => p s.session) (walk host plan depth source target) := by
  induction depth generalizing source target with
  | zero => exact keeps_throw _
  | succ depth ih =>
    refine keeps_tree.bind fun t => ?_
    split
    · exact keeps_throw _
    · refine keeps_forM fun name _ => keeps_enter h ih ?_
      simp [Path.child]

/-- The walk as a whole keeps what its steps keep, also where it breaks off. -/
theorem keeps_convert [Script.Parser] (h : IsKept host plan p) (out : Path) :
    Keeps (fun s => p s.session) (convert host plan out) := by
  refine ((keeps_walk h _ _ _).bind fun _ => keeps_pure _).tryCatch fun e => ?_
  split
  · exact (keeps_log h.log _ _).bind fun _ => keeps_pure _
  · exact keeps_throw _

theorem keeps_resolve (name : Text) : Keeps (fun s => p s.session) (resolve host name) := by
  refine keeps_tree.bind fun u => ?_
  split
  · exact keeps_pure _
  · exact keeps_throw _

/-- A run that is ready keeps what its walk keeps, if the dictionaries do not change it. -/
theorem keeps_complete [Script.Parser] {a : Arguments} (h : IsKept host plan p)
    (hfinish : ∀ directory, Keeps (fun s => p s.session) (finishDictionaries host plan directory))
    (out : Path) : Keeps (fun s => p s.session) (complete host a plan out) := by
  refine (keeps_convert h out).bind fun ok => ?_
  split
  · exact keeps_pure _
  · refine Keeps.bind (keeps_modify fun _ h => h) fun _ => Keeps.bind ?_ fun directory => ?_
    · rw [dictionaryDirectory]
      split
      · exact keeps_resolve _
      · exact keeps_pure _
    · refine (hfinish directory).bind fun ok => ?_
      split
      · exact keeps_pure _
      · refine keeps_get.bind fun s => Keeps.bind ?_ fun _ => keeps_pure _
        exact keeps_log h.log _ _

end LocaleLift.Run
