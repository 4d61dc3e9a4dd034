import LocaleLift.Run.State
import LocaleLift.Proofs.Log.Session

/-! What small steps of a run change. -/
namespace LocaleLift.Run

variable {host : Host} {s s' s'' : State} {α : Type} {r : Fault → State → Prop}

@[simp] theorem after_onSession {step : Log.Session.StepM α} {q : α → State → Prop} :
    After (onSession step) s q r ↔ After step s.session (fun a t => q a { s with session := t })
      fun e t => r (.file e) { s with session := t } := by
  rw [onSession, after_bind, after_get]
  unfold After
  cases h : (step.run.run s.session : Except FileError α × Log.Session) with
  | mk x t => cases x <;> exact Iff.rfl

@[simp] theorem after_tree {q : FileTree → State → Prop} :
    After tree s q r ↔ q s.session.tree s := Iff.rfl

/-- A quiet step changes no files but log files. It files no text and counts no failure. -/
structure Quiet (s s' : State) : Prop where
  session : Log.Session.Changes (fun _ => False) (fun _ => False) s.session s'.session
  registry : s'.registry = s.registry
  failed : s'.stats.failed = s.stats.failed

theorem Quiet.refl (s : State) : Quiet s s :=
  ⟨.refl _, rfl, rfl⟩

theorem Quiet.trans (h : Quiet s s') (h' : Quiet s' s'') : Quiet s s'' :=
  ⟨h.session.trans h'.session, h'.registry.trans h.registry, h'.failed.trans h.failed⟩

theorem after_logAll {q : PUnit → State → Prop} {rs : List Log.Record}
    (h : ∀ s', Quiet s s' → q ⟨⟩ s') : After (logAll host rs) s q r :=
  h _ ⟨Log.Session.changes_logAll host.time rs s.session, rfl, rfl⟩

theorem after_log {q : PUnit → State → Prop} {level : Log.Level} {message : Text}
    (h : ∀ s', Quiet s s' → q ⟨⟩ s') : After (log host level message) s q r :=
  after_logAll h

end LocaleLift.Run
