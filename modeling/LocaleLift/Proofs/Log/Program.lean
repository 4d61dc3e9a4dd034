import LocaleLift.Log.Program
import LocaleLift.Proofs.Log.Attached

/-! Log programs: at every point the logger is attached to what has been asked for, and a level that is
set for a while is undone. -/
namespace LocaleLift

namespace Log

mutual

/-- The files that a step asks for, one after another, with `none` where it sets the logger up without
one. -/
def Step.asked : Step → List (Option Path)
  | .setUp _ file => [file]
  | .emit _ _ => []
  | .within _ steps => Step.askedAll steps

def Step.askedAll : List Step → List (Option Path)
  | [] => []
  | s :: ss => s.asked ++ Step.askedAll ss

end

/-- A point of a program that is run: the session, what has been asked for so far, and the steps to
come in the list that the program is in. -/
structure Point where
  session : Session
  asked : List (Option Path)
  steps : List Step

/-- The points that a program comes to, also inside steps that set a level for a while. -/
inductive Reaches (time : Text) (s : Session) (program : List Step) : Point → Prop
  | start : Reaches time s program ⟨s, [], program⟩
  | next {q q' : Session} {asked : List (Option Path)} {step : Step} {steps : List Step}
      {events : List Event} (h : Reaches time s program ⟨q, asked, step :: steps⟩)
      (hrun : ((step.run time).run.run q : Except FileError (List Event) × Session) =
        (.ok events, q')) : Reaches time s program ⟨q', asked ++ step.asked, steps⟩
  | inside {q : Session} {asked : List (Option Path)} {level : Level} {inner steps : List Step}
      (h : Reaches time s program ⟨q, asked, .within level inner :: steps⟩) :
      Reaches time s program ⟨{ q with logger := { q.logger with level } }, asked, inner⟩

section Run

variable {time : Text} {s q : Session} {program : List Step} {all asked : List (Option Path)}
  {n : Nat} {roll : Prop}

theorem after_keepingLevel {α : Type} {step : Session.StepM α} {p : α → Session → Prop}
    {r : FileError → Session → Prop} :
    After (keepingLevel step) s p r ↔
      After step s
        (fun a s' => p a { s' with logger := { s'.logger with level := s.logger.level } })
        fun e s' => r e { s' with logger := { s'.logger with level := s.logger.level } } := by
  rw [keepingLevel, after_bind, after_get]
  dsimp only
  rw [after_tryCatch, after_bind]
  rfl

/-- Whatever a step within another one does, the level is what it was before. -/
theorem after_within (time : Text) (q : Session) (level : Level) (steps : List Step) :
    After ((Step.within level steps).run time) q
      (fun _ q' => q'.logger.level = q.logger.level) fun _ q' => q'.logger.level = q.logger.level := by
  rw [Step.run, after_bind, after_keepingLevel]
  exact after_self.imp (fun _ _ _ => rfl) fun _ _ _ => rfl

/-- The next step asks for a file that cannot be opened. -/
def Point.IsRefused (p : Point) : Prop :=
  ∃ level file steps, p.steps = .setUp level (some file) :: steps ∧
    ¬ Session.Opens p.session.tree file

mutual

/-- A step keeps the logger attached to what has been asked for, or breaks off at a file that cannot
be opened. -/
theorem Step.after_run (step : Step) {q : Session} {asked : List (Option Path)} {steps : List Step}
    (hattached : q.Attached all n roll asked) (hknown : ∀ file ∈ step.asked, file ∈ all)
    (hroot : ∀ f, some f ∈ step.asked → f.root = 1)
    (hreach : Reaches time s program ⟨q, asked, step :: steps⟩) :
    After (step.run time) q (fun _ q' => q'.Attached all n roll (asked ++ step.asked))
      fun _ _ => ∃ p, Reaches time s program p ∧ p.IsRefused := by
  cases step with
  | setUp level file =>
    rw [Step.run, after_bind]
    refine (Session.after_setUp hattached level (hknown file (List.mem_singleton_self _)) fun f hf =>
      hroot f (hf ▸ List.mem_singleton_self _)).imp (fun _ q' h => h.1) fun _ _ ⟨f, hf, hopens⟩ => ?_
    exact ⟨_, hreach, level, f, steps, by rw [hf], hopens⟩
  | emit level message =>
    rw [Step.run, after_bind, after_modify, Step.asked, List.append_nil]
    exact hattached.log time _
  | within level inner =>
    rw [Step.run, after_bind, after_keepingLevel, after_bind]
    exact (Step.after_runAll inner (hattached.setLevel level) hknown hroot hreach.inside).imp
      (fun _ q' h => h.1.setLevel q.logger.level) fun _ _ h => h

/-- So do steps one after another, which come to their end otherwise. -/
theorem Step.after_runAll (steps : List Step) {q : Session} {asked : List (Option Path)}
    (hattached : q.Attached all n roll asked) (hknown : ∀ file ∈ Step.askedAll steps, file ∈ all)
    (hroot : ∀ f, some f ∈ Step.askedAll steps → f.root = 1)
    (hreach : Reaches time s program ⟨q, asked, steps⟩) :
    After (Step.runAll time steps) q
      (fun _ q' => q'.Attached all n roll (asked ++ Step.askedAll steps) ∧
        Reaches time s program ⟨q', asked ++ Step.askedAll steps, []⟩)
      fun _ _ => ∃ p, Reaches time s program p ∧ p.IsRefused := by
  cases steps with
  | nil =>
    rw [Step.runAll, after_pure, Step.askedAll, List.append_nil]
    exact ⟨hattached, hreach⟩
  | cons step steps =>
    rw [Step.askedAll] at hknown hroot
    rw [Step.runAll, after_bind]
    refine (after_self.and (Step.after_run step hattached
      (fun f hf => hknown f (List.mem_append_left _ hf))
      (fun f hf => hroot f (List.mem_append_left _ hf)) hreach)).imp
        (fun _ q' ⟨hrun, h⟩ => ?_) fun _ _ h => h.2
    have hrest := Step.after_runAll steps h (fun f hf => hknown f (List.mem_append_right _ hf))
      (fun f hf => hroot f (List.mem_append_right _ hf)) (hreach.next hrun)
    rw [after_bind, Step.askedAll, ← List.append_assoc]
    exact hrest.imp (fun _ _ h => h) fun _ _ h => h

end

/-- At every point the logger is attached to what has been asked for. -/
theorem Reaches.attached {p : Point} (h : Reaches time s program p) (hs : s.Attached all n roll [])
    (hknown : ∀ file ∈ Step.askedAll program, file ∈ all)
    (hroot : ∀ f, some f ∈ Step.askedAll program → f.root = 1) :
    p.session.Attached all n roll p.asked ∧ (∀ file ∈ Step.askedAll p.steps, file ∈ all) ∧
      ∀ f, some f ∈ Step.askedAll p.steps → f.root = 1 := by
  induction h with
  | start => exact ⟨hs, hknown, hroot⟩
  | @next q q' asked step steps events h hrun ih =>
    obtain ⟨hattached, hknown, hroot⟩ := ih
    rw [Step.askedAll] at hknown hroot
    refine ⟨?_, fun f hf => hknown f (List.mem_append_right _ hf),
      fun f hf => hroot f (List.mem_append_right _ hf)⟩
    exact (Step.after_run step hattached (fun f hf => hknown f (List.mem_append_left _ hf))
      (fun f hf => hroot f (List.mem_append_left _ hf)) h).of_ok hrun
  | @inside q asked level inner steps h ih =>
    obtain ⟨hattached, hknown, hroot⟩ := ih
    rw [Step.askedAll, Step.asked] at hknown hroot
    exact ⟨hattached.setLevel level, fun f hf => hknown f (List.mem_append_left _ hf),
      fun f hf => hroot f (List.mem_append_left _ hf)⟩

/-- A logger without handlers is attached to nothing. -/
private theorem attached_nil (hhandlers : s.logger.handlers = []) (hlinks : s.tree.Linkless)
    (all : List (Option Path)) : s.Attached all s.renewals (CanRoll all s.tree) [] := by
  have hfiles : s.logger.files = [] := by rw [Logger.files, hhandlers, List.filterMap_nil]
  refine ⟨⟨by rw [hhandlers]; rfl, by rw [hfiles]; exact List.nodup_nil, fun p => ?_⟩, hlinks,
    Nat.le_refl _, fun _ h => absurd h List.not_mem_nil, fun _ => ?_, id⟩
  · rw [hfiles]
    exact Iff.rfl
  · rw [hfiles]
    exact List.forall_mem_nil _

/-- Where no links are, a program of which no file is asked for by a path with two leading slashes
finds the logger attached at every point to what has been asked for: once to the console and once to
each file. From then on, a record that is let through is shown once, any other does nothing, and a
step that sets a level for a while leaves the level as it was. The record is also written once to
each file, as long as none has been rolled over, or if all can be. The program runs to its end,
unless it comes to a file that cannot be opened. -/
theorem runAll_attachesOnce (time : Text) {s : Session} {program : List Step}
    (hhandlers : s.logger.handlers = []) (hlinks : s.tree.Linkless)
    (hroot : ∀ f, some f ∈ Step.askedAll program → f.root = 1) :
    (∀ p, Reaches time s program p →
      p.session.logger.AttachedOnce p.asked ∧
      (p.asked ≠ [] → ∀ level message, After ((Step.emit level message).run time) p.session
        (fun _ s' => if p.session.logger.admits level then
            s'.console = p.session.console ++ Record.consoleLine ⟨.program, level, message⟩ ∧
            (s'.renewals = s.renewals ∨ CanRoll (Step.askedAll program) s.tree →
              Session.WritesOnce time ⟨.program, level, message⟩ p.asked p.session s')
          else s' = p.session)
        fun _ _ => False) ∧
      ∀ level steps, After ((Step.within level steps).run time) p.session
        (fun _ s' => s'.logger.level = p.session.logger.level)
        fun _ s' => s'.logger.level = p.session.logger.level) ∧
    After (Step.runAll time program) s
      (fun _ s' => Reaches time s program ⟨s', Step.askedAll program, []⟩)
      fun _ _ => ∃ p, Reaches time s program p ∧ p.IsRefused := by
  have hs := attached_nil hhandlers hlinks (Step.askedAll program)
  refine ⟨fun p h => ?_, (Step.after_runAll program hs (fun _ h => h) hroot .start).imp
    (fun _ _ h => h.2) fun _ _ h => h⟩
  have hattached := (h.attached hs (fun _ h => h) hroot).1
  refine ⟨hattached.once, fun hne level message => ?_, fun level steps => after_within ..⟩
  rw [Step.run, after_bind, after_modify]
  change if _ then _ else _
  split
  · rename_i hadmits
    refine ⟨?_, fun hcase => hattached.writesOnce hne time hadmits (hcase.imp_left Nat.le_of_eq)⟩
    rw [Session.console_log (hattached.handlers_ne_nil hne) hadmits, Logger.count_closed,
      hattached.once.console, if_neg hne]
    simp
  · rename_i hrefused
    rw [Session.log, if_pos (by simpa using hrefused)]

end Run

/-- A program that asks for two files, for one of them again in other words, and changes the level in
between. -/
def askingTwice : List Step :=
  [.setUp 20 (some ⟨1, ["a"]⟩),
    .within 10 [.setUp 30 (some ⟨1, ["b"]⟩), .setUp 40 (some ⟨1, ["..", "a"]⟩)]]

private theorem canRoll_askingTwice : CanRoll (Step.askedAll askingTwice) ⟨[]⟩ := by
  have hrequested : requested (Step.askedAll askingTwice) = [⟨1, ["a"]⟩, ⟨1, ["b"]⟩, ⟨1, ["a"]⟩] := by
    decide
  refine ⟨FileTree.isValid_of_entries nofun, ?_, ?_, fun p hp n hn hdirectory => ?_⟩
  · rw [hrequested]
    have hfits : ∀ p ∈ ([⟨1, ["a"]⟩, ⟨1, ["b"]⟩, ⟨1, ["a"]⟩] : List Path),
        ∀ n ≤ Rollover.standard.backups, (backup p n).hasNull = false ∧
          Utf8.size (backup p n).toText ≤ FileTree.maxPath ∧
          ∀ m ∈ (backup p n).names, Utf8.size m ≤ FileTree.maxName := by decide
    exact fun p hp n hn => have h := hfits p hp n hn; ⟨h.1, h.2.1, h.2.2⟩
  · rw [hrequested]
    have hapart : ∀ p ∈ ([⟨1, ["a"]⟩, ⟨1, ["b"]⟩, ⟨1, ["a"]⟩] : List Path),
        ∀ names ∈ ([["a"], ["b"], ["..", "a"]] : List (List Text)), ∀ n < Rollover.standard.backups,
          ∀ before ∈ names.inits, slot p (n + 1) ≠ FileTree.straight [] before := by decide
    intro p hp file hfile n hn before hpre
    refine hapart p hp file.names ?_ n hn before ((List.mem_inits _ _).mpr hpre)
    simp only [askingTwice, Step.askedAll, Step.asked, List.append_nil, List.cons_append,
      List.nil_append, List.mem_cons, Option.some.injEq, List.not_mem_nil, or_false] at hfile
    rcases hfile with rfl | rfl | rfl <;> simp
  · simp [slot_succ, FileTree.get?, Assoc.get?] at hdirectory

/-- It ends with one handler for each of the two files, and with the level from before the change. -/
theorem runAll_attachesOnce_askingTwice :
    (Session.start ⟨[]⟩).logger.handlers = [] ∧ (Session.start ⟨[]⟩).tree.Linkless ∧
      (∀ f, some f ∈ Step.askedAll askingTwice → f.root = 1) ∧
      ∃ events s', ((Step.runAll "" askingTwice).run.run (Session.start ⟨[]⟩) :
          Except FileError (List Event) × Session) = (.ok events, s') ∧
        s'.logger.level = 20 ∧
        s'.logger.AttachedOnce [some ⟨1, ["a"]⟩, some ⟨1, ["b"]⟩, some ⟨1, ["..", "a"]⟩] ∧
        After ((Step.emit 50 "m").run "") s'
          (fun _ => Session.WritesOnce "" ⟨.program, 50, "m"⟩
            [some ⟨1, ["a"]⟩, some ⟨1, ["b"]⟩, some ⟨1, ["..", "a"]⟩] s')
          fun _ _ => False := by
  have hlinks : (Session.start ⟨[]⟩).tree.Linkless := FileTree.ne_link_of_entries nofun
  have hroot : ∀ f, some f ∈ Step.askedAll askingTwice → f.root = 1 := by
    simp [askingTwice, Step.askedAll, Step.asked]
  have hok : ((Step.runAll "" askingTwice).run.run (Session.start ⟨[]⟩) :
      Except FileError (List Event) × Session).1.isOk = true := by cbv
  have hlevel : ((Step.runAll "" askingTwice).run.run (Session.start ⟨[]⟩) :
      Except FileError (List Event) × Session).2.logger.level = 20 := by cbv
  obtain ⟨hpoints, hend⟩ := runAll_attachesOnce "" (s := Session.start ⟨[]⟩) rfl hlinks hroot
  refine ⟨rfl, hlinks, hroot, ?_⟩
  cases hrun : ((Step.runAll "" askingTwice).run.run (Session.start ⟨[]⟩) :
      Except FileError (List Event) × Session) with
  | mk result s' =>
    rw [hrun] at hok hlevel
    cases result with
    | error e => cases hok
    | ok events =>
      obtain ⟨honce, hwrites, -⟩ := hpoints _ (hend.of_ok hrun)
      have hadmits : s'.logger.admits 50 = true := by
        rw [Logger.admits, Logger.threshold, show s'.logger.level = 20 from hlevel]
        decide
      refine ⟨events, s', rfl, hlevel, honce, (hwrites (List.cons_ne_nil _ _) 50 "m").imp
        (fun _ t h => ?_) fun _ _ h => h⟩
      rw [if_pos hadmits] at h
      exact h.2 (.inr canRoll_askingTwice)

/-- A file that is asked for twice by a path with two leading slashes, and a record. -/
def askingSlashes : List Step :=
  [.setUp 20 (some ⟨2, ["x"]⟩), .setUp 20 (some ⟨2, ["x"]⟩), .emit 20 "m"]

def slashedFile : LogFile :=
  ⟨⟨2, ["x"]⟩, ["x"], .standard, some (.visible ["x"])⟩

/-- The two slashes stay in the name of a handler, but not in the path that is looked for among these
names: the file gets a second handler, and the record is written to it twice. -/
theorem runAll_attachesAgain_askingSlashes :
    let s := ((Step.runAll "" askingSlashes).run.run (Session.start ⟨[]⟩) :
      Except FileError (List Event) × Session).2
    s.logger.handlers = [.console, .file slashedFile, .file slashedFile] ∧
      s.tree.bytes? ["x"] =
        Utf8.encode (Record.fileLine "" ⟨.program, 20, "m"⟩ ++ Record.fileLine "" ⟨.program, 20, "m"⟩) ∧
      ¬ s.logger.AttachedOnce (Step.askedAll askingSlashes) := by
  have hhandlers : ((Step.runAll "" askingSlashes).run.run (Session.start ⟨[]⟩) :
      Except FileError (List Event) × Session).2.logger.handlers =
      [.console, .file slashedFile, .file slashedFile] := by cbv
  refine ⟨hhandlers, by cbv, fun honce => ?_⟩
  have hnodup := honce.nodup
  rw [Logger.files, hhandlers] at hnodup
  exact absurd hnodup (by decide)

end Log
end LocaleLift
