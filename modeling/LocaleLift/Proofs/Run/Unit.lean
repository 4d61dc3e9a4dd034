import LocaleLift.Run.Walk
import LocaleLift.Proofs.Run.State
import LocaleLift.Proofs.SourceUnit.Isolation

/-! What becomes of one unit. -/
namespace LocaleLift.Run

/-- What becomes of a unit: it is passed over for its size, it cannot be decoded, it is copied as it
is since it does not parse, or it is converted and its texts are filed. -/
inductive Fate where
  | skipped
  | unreadable
  | copied (text : Text)
  | converted (text : Text) (entries : List (Text × Text))
  deriving DecidableEq, Repr

namespace Fate

def output? : Fate → Option Text
  | copied text => some text
  | converted text _ => some text
  | _ => none

def entries : Fate → List (Text × Text)
  | converted _ entries => entries
  | _ => []

def isFailure : Fate → Bool
  | unreadable => true
  | copied _ => true
  | _ => false

end Fate

/-- What becomes of a unit that has been decoded. -/
def Plan.textFate [Script.Parser] (plan : Plan) (common : CommonTerms) (source : Path)
    (text : Text) : Fate :=
  let o := SourceUnit.process (.empty common) plan.ns.plain plan.function.plain source.toText text
  match o.result with
  | .ok new => .converted new o.registry.toList
  | .error _ => .copied text

/-- What becomes of a unit with some bytes. It depends on the common terms, not on other units. -/
def Plan.fate [Script.Parser] (plan : Plan) (common : CommonTerms) (source : Path)
    (bytes : List UInt8) : Fate :=
  match isTooLarge plan.maxFileSize bytes.length with
  | .ok true => .skipped
  | _ =>
    match Text.ofBytes? bytes with
    | none => .unreadable
    | some text => plan.textFate common source text

/-- The registry and the count of failures say that a unit has met its fate. -/
structure Fate.Met (fate : Fate) (s s' : State) : Prop where
  common : s'.registry.common = s.registry.common
  registry : ∀ p, p ∈ s'.registry.toList ↔ p ∈ s.registry.toList ∨ p ∈ fate.entries
  failed : s'.stats.failed = s.stats.failed + if fate.isFailure then 1 else 0

theorem Fate.Met.congr {fate : Fate} {s s' s'' : State} (h : fate.Met s s')
    (hregistry : s''.registry = s'.registry) (hfailed : s''.stats.failed = s'.stats.failed) :
    fate.Met s s'' where
  common := by rw [hregistry, h.common]
  registry p := by rw [hregistry, h.registry]
  failed := by rw [hfailed, h.failed]

/-- A unit has met its fate, and its text, if one is written, stands where the target leads, unless a
log file has been rolled over. -/
structure Visited (plan : Plan) (target : Path) (fate : Fate) (s s' : State) : Prop where
  met : fate.Met s s'
  session : Log.Session.Changes
    (fun l => plan.dryRun = false ∧ fate.output?.isSome ∧ s.session.tree.LeadsTo target.names l)
    (fun l => (".." : Text) ∉ l) s.session s'.session
  written : s'.session.renewals ≤ s.session.renewals → plan.dryRun = false →
    ∀ new, fate.output? = some new →
      ∃ l, s.session.tree.LeadsTo target.names l ∧ s'.session.Holds l new

section Unit

variable {host : Host} {plan : Plan} {s : State} {source target : Path} {text : Text}

private theorem after_localizeUnit [Script.Parser] :
    let o := SourceUnit.process s.registry plan.ns.plain plan.function.plain source.toText text
    After (localizeUnit host plan source text) s
      (fun x s' => Quiet s { s' with registry := s.registry } ∧ s'.registry = o.registry ∧
        x = o.result)
      fun _ s' => Quiet s s' := by
  intro o
  rw [localizeUnit, after_bind, after_get]
  dsimp only
  rw [after_bind]
  refine after_logAll fun s₁ h₁ => ?_
  split
  · rw [after_bind]
    exact h₁
  · split
    · rw [after_bind]
      exact h₁
    · rw [after_bind, after_modify, after_bind, count, after_modify]
      exact ⟨⟨h₁.session, rfl, h₁.failed⟩, rfl, rfl⟩

/-- A unit that is processed in any registry with the common terms meets its fate. -/
private theorem met_process [Script.Parser] {s' : State} {result : Except Failure Text}
    (hprocess : (SourceUnit.process s.registry plan.ns.plain plan.function.plain source.toText
      text).result = result)
    (hregistry : s'.registry = (SourceUnit.process s.registry plan.ns.plain plan.function.plain
      source.toText text).registry)
    (hfailed : s'.stats.failed = s.stats.failed + if result.isOk then 0 else 1) :
    (plan.textFate s.registry.common source text).Met s s' ∧
      (plan.textFate s.registry.common source text).output? =
        some (result.toOption.getD text) := by
  have halone : (SourceUnit.process (.empty s.registry.common) plan.ns.plain plan.function.plain
      source.toText text).result = result := by
    have hempty : (Registry.empty s.registry.common).common = s.registry.common := rfl
    rw [← hprocess]
    exact SourceUnit.process_result_congr hempty ..
  have hcommon : s'.registry.common = s.registry.common := by
    rw [hregistry]
    exact (SourceUnit.process_keeps ..).common
  cases result with
  | error e =>
    rw [SourceUnit.process_error hprocess] at hregistry
    simp only [Plan.textFate, halone]
    exact ⟨⟨hcommon, fun p => by simp [hregistry, Fate.entries], hfailed⟩, rfl⟩
  | ok new =>
    simp only [Plan.textFate, halone]
    refine ⟨⟨hcommon, fun p => ?_, hfailed⟩, rfl⟩
    rw [hregistry]
    exact SourceUnit.mem_process_registry

private theorem after_renew [Script.Parser] :
    After (renew host plan source text) s
      (fun new s' => (plan.textFate s.registry.common source text).Met s s' ∧
        (plan.textFate s.registry.common source text).output? = some new ∧
        Log.Session.Changes (fun _ => False) (fun _ => False) s.session s'.session)
      fun _ s' => Log.Session.Changes (fun _ => False) (fun _ => False) s.session s'.session := by
  rw [renew, after_bind]
  refine after_localizeUnit.imp (fun x s₁ h => ?_) fun _ _ h => h.session
  obtain ⟨hquiet, hregistry, rfl⟩ := h
  split
  · rename_i new hprocess
    obtain ⟨hmet, houtput⟩ := met_process hprocess hregistry hquiet.failed
    exact ⟨hmet, houtput, hquiet.session⟩
  · rename_i d hprocess
    rw [after_bind, count, after_modify, after_bind]
    refine after_log fun s₂ h₂ => ?_
    have hsession := hquiet.session.trans h₂.session
    split
    · rw [after_bind]
      exact hsession
    · obtain ⟨hmet, houtput⟩ := met_process hprocess (h₂.registry.trans hregistry)
        (h₂.failed.trans (congrArg (· + 1) hquiet.failed))
      exact ⟨hmet, houtput, hsession⟩
  · exact hquiet.session

private theorem after_noteChange {new : Text} {q : PUnit → State → Prop} {r : Fault → State → Prop}
    (h : ∀ s', Quiet s s' → q ⟨⟩ s') : After (noteChange plan source text new) s q r := by
  rw [noteChange]
  split
  · rw [after_bind, count, after_modify]
    split
    · exact h _ ⟨.refl _, rfl, rfl⟩
    · exact h _ ⟨.refl _, rfl, rfl⟩
  · exact h s (.refl s)

private theorem after_put {level : Log.Level} {message new : Text} :
    After (do onSession (Log.Session.write target new); log host level message) s
      (fun _ s' => (s'.registry = s.registry ∧ s'.stats.failed = s.stats.failed) ∧
        ∃ l, s.session.tree.LeadsTo target.names l ∧
          Log.Session.Changes (· = l) (fun l => (".." : Text) ∉ l) s.session s'.session ∧
          (s'.session.renewals ≤ s.session.renewals → s'.session.Holds l new))
      fun _ s' => Log.Session.Changes (fun _ => False) (fun l => (".." : Text) ∉ l) s.session
        s'.session := by
  rw [after_bind, after_onSession]
  refine (Log.Session.after_write s.session target new).imp (fun _ t h => ?_) fun _ _ h => h.2
  obtain ⟨-, l, hleads, hchanges, hholds⟩ := h
  refine after_log fun s' h' => ⟨⟨h'.registry, h'.failed⟩, l, hleads, ?_, fun hr => ?_⟩
  · exact hchanges.trans (h'.session.mono (fun _ hl => hl.elim) fun _ hl => hl.elim)
  · exact hholds.changes h'.session (hchanges.calm h'.session hr).2 id

private theorem after_deliver {fate : Fate} {s₁ : State} {new : Text} {level : Log.Level}
    {message : Text} (hmet : fate.Met s s₁) (houtput : fate.output? = some new)
    (hsession : Log.Session.Changes (fun _ => False) (fun _ => False) s.session s₁.session) :
    After (do
        noteChange plan source text new
        if plan.dryRun then return
        onSession (Log.Session.write target new)
        log host level message) s₁
      (fun _ s' => Visited plan target fate s s')
      fun _ s' => Log.Session.Changes (fun _ => False) (fun l => (".." : Text) ∉ l) s.session
        s'.session := by
  rw [after_bind]
  refine after_noteChange fun s₂ h₂ => ?_
  have hmet := hmet.congr h₂.registry h₂.failed
  have hsession := hsession.trans h₂.session
  split
  · rename_i hdry
    refine ⟨hmet, hsession.mono (fun _ hl => hl.elim) fun _ hl => hl.elim, ?_⟩
    simp [hdry]
  · rename_i hdry
    refine after_put.imp (fun _ s₃ h₃ => ?_) fun _ _ h => ?_
    · obtain ⟨⟨hregistry, hfailed⟩, l, hleads, hchanges, hholds⟩ := h₃
      have hleads (hr : s₂.session.renewals ≤ s.session.renewals) :=
        hleads.of_changes (hsession.tree hr)
      refine ⟨hmet.congr hregistry hfailed, ?_, fun hr _ new' hnew => ?_⟩
      · by_cases hr : s₂.session.renewals ≤ s.session.renewals
        · refine (hsession.mono (fun _ hl => hl.elim) fun _ hl => hl.elim).trans
            (hchanges.mono (fun _ hl => ?_) fun _ hl => hl)
          rw [hl, houtput]
          exact ⟨by simpa using hdry, rfl, hleads hr⟩
        · exact hsession.of_renewed hr hchanges
      · obtain ⟨hr, hr'⟩ := hsession.calm hchanges hr
        obtain rfl := Option.some.inj (houtput.symm.trans hnew)
        exact ⟨l, hleads hr, hholds hr'⟩
    · exact (hsession.mono (fun _ hl => hl) fun _ hl => hl.elim).trans h

/-- A unit meets its fate, unless the run breaks off. -/
theorem after_visitUnit [Script.Parser] {bytes : List UInt8}
    (hbytes : s.session.tree.readBytes source = .ok bytes) :
    After (visitUnit host plan source target) s
      (fun _ s' => Visited plan target (plan.fate s.registry.common source bytes) s s')
      fun _ s' => Log.Session.Changes (fun _ => False) (fun l => (".." : Text) ∉ l) s.session
        s'.session := by
  have hnone {s' : State} {fate : Fate} (hmet : fate.Met s s') (houtput : fate.output? = none)
      (h : Log.Session.Changes (fun _ => False) (fun _ => False) s.session s'.session) :
      Visited plan target fate s s' :=
    ⟨hmet, h.mono (fun _ hl => hl.elim) fun _ hl => hl.elim, fun _ _ new hnew => by
      rw [houtput] at hnew
      cases hnew⟩
  rw [visitUnit, after_bind, count, after_modify, after_bind, after_tree]
  dsimp only
  rw [hbytes, after_bind, after_lift]
  refine ⟨fun large hlarge => ?_, fun _ _ => .refl _⟩
  have hlarge : isTooLarge plan.maxFileSize bytes.length = .ok large := hlarge
  cases large with
  | true =>
    have hfate : plan.fate s.registry.common source bytes = .skipped := by
      simp [Plan.fate, hlarge]
    rw [hfate, if_pos rfl, after_bind]
    refine after_log fun s₁ h₁ => ?_
    rw [after_bind, count, after_modify, after_pure]
    exact hnone ⟨congrArg _ h₁.registry, fun p => by simp [h₁.registry, Fate.entries], h₁.failed⟩
      rfl h₁.session
  | false =>
    rw [if_neg Bool.false_ne_true, after_bind, after_tree]
    dsimp only
    cases htext : Text.ofBytes? bytes with
    | none =>
      have hfate : plan.fate s.registry.common source bytes = .unreadable := by
        simp [Plan.fate, hlarge, htext]
      have hread : s.session.tree.readText source = .error .notText := by
        simp [FileTree.readText, hbytes, htext]
      rw [hfate, hread]
      dsimp only
      rw [after_bind]
      refine after_log fun s₁ h₁ => ?_
      rw [count, after_modify]
      exact hnone ⟨congrArg _ h₁.registry, fun p => by simp [h₁.registry, Fate.entries],
        congrArg (· + 1) h₁.failed⟩ rfl h₁.session
    | some text =>
      have hfate : plan.fate s.registry.common source bytes =
          plan.textFate s.registry.common source text := by
        simp [Plan.fate, hlarge, htext]
      have hread : s.session.tree.readText source = .ok text := by
        simp [FileTree.readText, hbytes, htext]
      rw [hfate, hread]
      dsimp only
      rw [after_bind]
      refine after_renew.imp (fun new s₁ h₁ => ?_)
        fun _ _ h => h.mono (fun _ hl => hl) fun _ hl => hl.elim
      obtain ⟨hmet, houtput, hsession⟩ := h₁
      exact after_deliver ⟨hmet.common, hmet.registry, hmet.failed⟩ houtput hsession

end Unit

end LocaleLift.Run
