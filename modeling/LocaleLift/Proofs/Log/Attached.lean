import LocaleLift.Proofs.Log.Line

/-! Setting the logger up: it gets one handler for the console and one for each file that is asked for,
however often. -/
namespace LocaleLift

namespace Log

/-- The absolute paths of the files that were asked for when a logger was set up, once and again. -/
def requested (asked : List (Option Path)) : List Path :=
  asked.filterMap fun file => file.map Path.withoutSteps

@[simp] theorem requested_append (asked more : List (Option Path)) :
    requested (asked ++ more) = requested asked ++ requested more :=
  List.filterMap_append

@[simp] theorem requested_nil : requested [] = [] := rfl

@[simp] theorem requested_none (asked : List (Option Path)) :
    requested (none :: asked) = requested asked := rfl

@[simp] theorem requested_some (file : Path) (asked : List (Option Path)) :
    requested (some file :: asked) = file.withoutSteps :: requested asked := rfl

theorem mem_requested {asked : List (Option Path)} {p : Path} :
    p ∈ requested asked ↔ ∃ file, some file ∈ asked ∧ file.withoutSteps = p := by
  simp [requested]

/-- What has come of a logger that was set up so many times, each time with a file or without one:
there is one handler for the console and one for each file. -/
structure Logger.AttachedOnce (asked : List (Option Path)) (l : Logger) : Prop where
  console : l.handlers.count .console = if asked = [] then 0 else 1
  nodup : (l.files.map (·.path)).Nodup
  mem_files : ∀ p, p ∈ l.files.map (·.path) ↔ p ∈ requested asked

theorem Logger.AttachedOnce.of_closed {asked : List (Option Path)} {l l' : Logger}
    (h : l.AttachedOnce asked) (hclosed : l'.closed = l.closed) : l'.AttachedOnce asked := by
  have hpaths := map_path_congr hclosed
  refine ⟨?_, hpaths ▸ h.nodup, fun p => hpaths ▸ h.mem_files p⟩
  rw [← count_closed, hclosed, count_closed, h.console]

/-- A record is written once to each file that was asked for. Besides those, only their older files
change. -/
structure Session.WritesOnce (time : Text) (r : Record) (asked : List (Option Path))
    (s s' : Session) : Prop where
  file : ∀ p ∈ requested asked, Written p (r.fileLine time) s.tree s'.tree
  others : ∀ l, (∀ p ∈ requested asked, ¬ Touches p (r.fileLine time) s.tree l) →
    s'.tree.get? l = s.tree.get? l
  logger : s'.logger = s.logger

/-- Files that are asked for can be rolled over: the paths of the older ones are not too long, none
of these is on the way to a file that is asked for, and no directory stands in its place. -/
structure CanRoll (asked : List (Option Path)) (t : FileTree) : Prop where
  valid : t.IsValid
  fits : ∀ p ∈ requested asked, ∀ n ≤ Rollover.standard.backups, (backup p n).Fits
  apart : ∀ p ∈ requested asked, ∀ file, some file ∈ asked → ∀ n < Rollover.standard.backups,
    ∀ before, before <+: file.names → slot p (n + 1) ≠ FileTree.straight [] before
  plain : ∀ p ∈ requested asked, ∀ n < Rollover.standard.backups,
    t.get? (slot p (n + 1)) ≠ some .directory

namespace CanRoll

variable {asked : List (Option Path)} {t t' : FileTree} {fs : List LogFile}

theorem roomy (h : CanRoll asked t) (ht : t.Linkless) (hfs : ∀ f ∈ fs, f.path ∈ requested asked)
    (hopen : ∀ f ∈ fs, f.IsOpen t) : Roomy fs t where
  can f hf := by
    obtain ⟨file, -, hpath⟩ := mem_requested.mp (hfs f hf)
    have hfile : t.get? f.path.names ≠ none := by
      obtain ⟨old, hold⟩ := Option.isSome_iff_exists.mp (hopen f hf).file
      obtain ⟨mode, hold⟩ := FileTree.bytes?_eq_some.mp hold
      simp [hold]
    have hplain : t.get? f.path.names ≠ some .directory := by
      intro hdirectory
      have hfile := (hopen f hf).file
      simp [FileTree.bytes?, hdirectory] at hfile
    have hnonempty : f.path.names ≠ [] := fun hnil => hplain (by rw [hnil, FileTree.get?_nil])
    refine ⟨h.valid, ht, hnonempty, h.valid.steps _ hfile, ?_, h.fits _ (hfs f hf), fun n hn => ?_⟩
    · have hconcat := List.dropLast_append_getLast hnonempty
      exact h.valid.parent _ (f.path.names.getLast hnonempty) (by rwa [hconcat])
    · cases n with
      | zero => exact hplain
      | succ n => exact h.plain _ (hfs f hf) n hn
  apart f hf g hg hne n hn hpre := by
    obtain ⟨file, hfile, hpath⟩ := mem_requested.mp (hfs g hg)
    obtain ⟨old, hold⟩ := Option.isSome_iff_exists.mp (hopen g hg).file
    obtain ⟨mode, hold⟩ := FileTree.bytes?_eq_some.mp hold
    obtain ⟨rest, hrest⟩ := hpre
    by_cases hnil : rest = []
    · rw [hnil, List.append_nil] at hrest
      cases n with
      | zero => exact hne ((hopen f hf).path_eq (hopen g hg) hrest)
      | succ n =>
        refine h.apart _ (hfs f hf) file hfile n hn file.names (List.prefix_refl _) ?_
        rw [hrest, ← hpath]
        rfl
    · have hdirectory := h.valid.directory (l := slot f.path n) hnil (by simp [hrest, hold])
      cases n with
      | zero =>
        have hfile := (hopen f hf).file
        rw [FileTree.bytes?, show t.get? f.path.names = some .directory from hdirectory] at hfile
        cases hfile
      | succ n => exact h.plain _ (hfs f hf) n hn hdirectory

/-- Files can still be rolled over when a line has been written to some of them. -/
theorem of_writes {line : Text} {may : Prop} (h : CanRoll asked t)
    (hwrites : Writes line may (fs.map (·.path)) t t')
    (hnames : ((fs.map (·.path)).map Path.names).Nodup)
    (hroomy : Roomy fs t) (hroomy' : Roomy fs t') : CanRoll asked t' where
  valid := by
    cases fs with
    | nil => cases hwrites; exact h.valid
    | cons f fs => exact (hroomy'.can f List.mem_cons_self).valid
  fits := h.fits
  apart := h.apart
  plain p hp n hn := by
    have hothers := (hwrites.written hnames fun _ q hq r hr hne n hn m hm => by
      obtain ⟨f, hf, rfl⟩ := List.mem_map.mp hq
      obtain ⟨g, hg, rfl⟩ := List.mem_map.mp hr
      exact hroomy.slot_ne hf hg hne hn hm).2
    by_cases htouch : ∃ f ∈ fs, Touches f.path line t (slot p (n + 1))
    · obtain ⟨f, hf, heq | ⟨-, m, hm, heq⟩⟩ := htouch
      · rw [heq]
        exact (hroomy'.can f hf).plain 0 (Nat.zero_le _)
      · rw [heq]
        exact (hroomy'.can f hf).plain (m + 1) hm
    · rw [hothers _ fun q hq h => ?_]
      · exact h.plain p hp n hn
      · obtain ⟨f, hf, rfl⟩ := List.mem_map.mp hq
        exact htouch ⟨f, hf, h⟩

/-- Files can still be rolled over when directories have been made on the way to one of them. -/
theorem of_changes {files : Location → Prop} {file : Path} (h : CanRoll asked t)
    (ht : t.Linkless) (ht' : t'.IsValid) (hfile : some file ∈ asked)
    (hc : FileTree.Changes files (t.MayMake file.parent.names) t t')
    (hfiles : ∀ l, files l → t'.get? l ≠ some .directory) : CanRoll asked t' where
  valid := ht'
  fits := h.fits
  apart := h.apart
  plain p hp n hn hdirectory := by
    obtain hsame | ⟨⟨before, hpre, hleads⟩, -⟩ := hc.kept _ fun hl => hfiles _ hl hdirectory
    · exact h.plain p hp n hn (hsame ▸ hdirectory)
    · exact h.apart p hp file hfile n hn before (hpre.trans (List.dropLast_prefix _))
        (hleads.eq_straight (ht.clear before))

end CanRoll

namespace Session

/-- The logger is attached to what has been asked for, in a tree without links. As long as no log file
has been rolled over, or if all can be, the files are open. -/
structure Attached (all : List (Option Path)) (n : Nat) (roll : Prop) (asked : List (Option Path))
    (s : Session) : Prop where
  once : s.logger.AttachedOnce asked
  linkless : s.tree.Linkless
  renewals : n ≤ s.renewals
  known : ∀ file, some file ∈ asked → some file ∈ all
  files : s.renewals ≤ n ∨ roll → ∀ f ∈ s.logger.files, f.IsOpen s.tree
  room : roll → CanRoll all s.tree

variable {all : List (Option Path)} {n : Nat} {roll : Prop} {asked : List (Option Path)}
  {s : Session} {time : Text} {r : Record}

namespace Attached

/-- Different files stand at different places. -/
private theorem nodup_names (h : s.Attached all n roll asked)
    (hopen : ∀ f ∈ s.logger.files, f.IsOpen s.tree) :
    ((s.logger.files.map (·.path)).map Path.names).Nodup := by
  refine List.Nodup.map_on (fun p hp q hq heq => ?_) h.once.nodup
  obtain ⟨f, hf, rfl⟩ := List.mem_map.mp hp
  obtain ⟨g, hg, rfl⟩ := List.mem_map.mp hq
  exact (hopen f hf).path_eq (hopen g hg) heq

private theorem roomy (h : s.Attached all n roll asked) (hroll : roll) :
    Roomy s.logger.files s.tree := by
  refine (h.room hroll).roomy h.linkless (fun f hf => ?_) (h.files (.inr hroll))
  obtain ⟨file, hfile, hpath⟩ := mem_requested.mp ((h.once.mem_files _).mp (List.mem_map_of_mem hf))
  exact mem_requested.mpr ⟨file, h.known _ hfile, hpath⟩

theorem handlers_ne_nil (h : s.Attached all n roll asked) (hne : asked ≠ []) :
    s.logger.handlers ≠ [] := by
  intro hnil
  have hcount := h.once.console
  rw [hnil, if_neg hne] at hcount
  cases hcount

/-- A record that is let through is written once to each file, unless one of them that cannot be
rolled over has been. -/
theorem writesOnce (h : s.Attached all n roll asked) (hne : asked ≠ []) (time : Text)
    (hadmits : s.logger.admits r.level = true) (hcase : (s.log time r).renewals ≤ n ∨ roll) :
    WritesOnce time r asked s (s.log time r) := by
  have hle := le_renewals_log time r s
  have hopen := h.files (hcase.imp_left fun hr => Nat.le_trans hle hr)
  have hnames := h.nodup_names hopen
  obtain ⟨hlogger, hwrites, -, -⟩ := writes_log (h.handlers_ne_nil hne) hadmits h.linkless hopen
    h.once.nodup h.roomy (hcase.symm.imp_right fun hr => Nat.le_trans hr h.renewals)
  obtain ⟨hwritten, hothers⟩ := hwrites.written hnames fun hroll p hp q hq hne n hn m hm => by
    obtain ⟨f, hf, rfl⟩ := List.mem_map.mp hp
    obtain ⟨g, hg, rfl⟩ := List.mem_map.mp hq
    exact (h.roomy hroll).slot_ne hf hg hne hn hm
  exact ⟨fun p hp => (hwritten p ((h.once.mem_files p).mpr hp)).1,
    fun l hl => hothers l fun p hp => hl p ((h.once.mem_files p).mp hp), hlogger⟩

theorem log (h : s.Attached all n roll asked) (time : Text) (r : Record) :
    (s.log time r).Attached all n roll asked := by
  have hchanges : Changes (fun _ => False) (fun _ => False) s (s.log time r) := changes_log time r s
  have hlinks := hchanges.linkless h.linkless
  have hrenewals := Nat.le_trans h.renewals hchanges.renewals
  by_cases hlogs : s.logger.admits r.level = true ∧ s.logger.handlers ≠ []
  · obtain ⟨hadmits, hne⟩ := hlogs
    have hwrites (hcase : (s.log time r).renewals ≤ n ∨ roll) :=
      have hopen := h.files (hcase.imp_left fun hr => Nat.le_trans hchanges.renewals hr)
      (⟨hopen, writes_log hne hadmits h.linkless hopen h.once.nodup h.roomy
        (hcase.symm.imp_right fun hr => Nat.le_trans hr h.renewals)⟩ : _ ∧ _)
    refine ⟨h.once.of_closed hchanges.logger, hlinks, hrenewals, h.known, fun hcase => ?_,
      fun hroll => ?_⟩
    · obtain ⟨-, hlogger, -, hopen, -⟩ := hwrites hcase
      rwa [hlogger]
    · obtain ⟨hopen, -, hwritten, -, hroomy⟩ := hwrites (.inr hroll)
      exact (h.room hroll).of_writes hwritten (h.nodup_names hopen) (h.roomy hroll) (hroomy hroll)
  · have hsame : (s.log time r).tree = s.tree ∧ (s.log time r).logger = s.logger := by
      rw [Session.log]
      split
      · exact ⟨rfl, rfl⟩
      · rename_i hadmits
        have hnil : s.logger.handlers = [] := Decidable.byContradiction fun hne =>
          hlogs ⟨by simpa using hadmits, hne⟩
        rw [hnil]
        dsimp only [List.isEmpty_nil]
        rw [if_pos rfl]
        split <;> exact ⟨rfl, rfl⟩
    refine ⟨hsame.2 ▸ h.once, hlinks, hrenewals, h.known, fun hcase => ?_, fun hroll => ?_⟩
    · rw [hsame.1, hsame.2]
      exact h.files (hcase.imp_left fun hr => Nat.le_trans hchanges.renewals hr)
    · rw [hsame.1]
      exact h.room hroll

end Attached

/-- Open a log file, and make the directories above it if there are none. -/
def openLog (file : Path) : FileM Location := do
  FileM.ensureDirectories file.parent
  FileM.openForAppending file.withoutSteps

/-- A path leads somewhere, and a log file can be opened there. -/
structure Opens (t : FileTree) (file : Path) : Prop where
  resolve : ∃ p, t.resolve file = .ok p
  openLog : After (openLog file) t (fun _ _ => True) fun _ _ => False

/-- Only a file that cannot be opened fails to be added. -/
private theorem after_addFile_refused (s : Session) (rollover : Rollover) (file : Path) :
    After (addFile rollover file) s (fun _ _ => True) fun _ _ => ¬ Opens s.tree file := by
  rw [addFile, after_bind, after_get]
  cases hresolve : s.tree.resolve file with
  | error e =>
    rintro ⟨⟨p, hp⟩, -⟩
    rw [hresolve] at hp
    cases hp
  | ok resolved =>
    dsimp only
    rw [pure_bind, after_bind, after_get]
    split
    · exact trivial
    · rw [after_bind, after_onFiles]
      refine after_self.imp (fun _ t hmade => ?_) fun e t hmade hopens => ?_
      · rw [after_bind, after_onFiles]
        refine after_self.imp (fun _ _ _ => trivial) fun e t' hopened hopens => ?_
        have hopen := hopens.openLog
        rw [Session.openLog, after_bind] at hopen
        exact (hopen.of_ok hmade).of_error hopened
      · have hopen := hopens.openLog
        rw [Session.openLog, after_bind] at hopen
        exact hopen.of_error hmade

private theorem after_valid {α : Type} {step : FileM α} {t : FileTree}
    (h : Keeps FileTree.IsValid step) :
    After step t (fun _ t' => t.IsValid → t'.IsValid) fun _ t' => t.IsValid → t'.IsValid := by
  by_cases ht : t.IsValid
  · exact (h t ht).imp (fun _ _ h _ => h) fun _ _ h _ => h
  · exact after_self.imp (fun _ _ _ h => absurd h ht) fun _ _ _ h => absurd h ht

private theorem count_withConsole {l : Logger} (h : l.handlers.count .console ≤ 1) :
    l.withConsole.handlers.count .console = 1 := by
  rw [Logger.withConsole]
  split
  · rename_i hcontains
    have hpos := List.count_pos_iff.mpr (List.contains_iff_mem.mp hcontains)
    omega
  · rename_i hcontains
    have hzero := List.count_eq_zero.mpr fun hmem => hcontains (List.contains_iff_mem.mpr hmem)
    simp [hzero]

private theorem count_withFile (l : Logger) (f : LogFile) :
    (l.withFile f).handlers.count .console = l.handlers.count .console := by
  simp [Logger.withFile]

namespace Attached

theorem setLevel (h : s.Attached all n roll asked) (level : Level) :
    Attached all n roll asked { s with logger := { s.logger with level } } :=
  ⟨⟨h.once.console, h.once.nodup, h.once.mem_files⟩, h.linkless, h.renewals, h.known, h.files, h.room⟩

private theorem withConsole (h : s.Attached all n roll asked) :
    Attached all n roll (asked ++ [none]) { s with logger := s.logger.withConsole } := by
  have hfiles : s.logger.withConsole.files = s.logger.files := Logger.files_withConsole _
  refine ⟨⟨?_, hfiles ▸ h.once.nodup, fun p => ?_⟩, h.linkless, h.renewals,
    fun file hfile => h.known file (by simpa using hfile), fun hcase => ?_, h.room⟩
  · have hle : s.logger.handlers.count .console ≤ 1 := by
      rw [h.once.console]
      split <;> omega
    rw [count_withConsole hle, if_neg (by simp)]
  · rw [hfiles, h.once.mem_files]
    simp
  · rw [hfiles]
    exact h.files hcase

private theorem congr {asked' : List (Option Path)} (h : s.Attached all n roll asked)
    (hnil : asked = [] ↔ asked' = []) (hsome : ∀ file, some file ∈ asked' ↔ some file ∈ asked) :
    s.Attached all n roll asked' := by
  refine ⟨⟨?_, h.once.nodup, fun p => ?_⟩, h.linkless, h.renewals,
    fun file hfile => h.known file ((hsome file).mp hfile), h.files, h.room⟩
  · rw [h.once.console]
    simp only [hnil]
  · rw [h.once.mem_files]
    simp only [mem_requested, hsome]

/-- Asking for a file that is there already changes nothing. -/
private theorem again (h : s.Attached all n roll asked) (hne : asked ≠ []) {file : Path}
    (hknown : some file ∈ all) (hfile : file.withoutSteps ∈ s.logger.files.map (·.path)) :
    s.Attached all n roll (asked ++ [some file]) := by
  refine ⟨⟨?_, h.once.nodup, fun p => ?_⟩, h.linkless, h.renewals, fun other hother => ?_, h.files,
    h.room⟩
  · rw [h.once.console, if_neg hne, if_neg (by simp)]
  · rw [h.once.mem_files] at hfile ⊢
    rw [requested_append, requested_some, requested_nil, List.mem_append, List.mem_singleton]
    exact ⟨.inl, fun hp => hp.elim id fun hp => hp ▸ hfile⟩
  · obtain hmem | hsame := List.mem_append.mp hother
    · exact h.known other hmem
    · exact List.mem_singleton.mp hsame ▸ hknown

/-- A file that is new gets a handler. -/
private theorem withFile (h : s.Attached all n roll asked) (hne : asked ≠ []) {file : Path}
    {t : FileTree} (hknown : some file ∈ all)
    (hfile : file.withoutSteps ∉ s.logger.files.map (·.path)) (ht : t.Linkless)
    (hdirectory : ∀ l, s.tree.get? l = some .directory → t.get? l = some .directory)
    (hkept : ∀ l, (s.tree.bytes? l).isSome → (t.bytes? l).isSome)
    (hroot : file.root = 1) (hopen : (t.bytes? file.withoutSteps.names).isSome)
    (hfind : t.find true file.withoutSteps =
      .ok (file.withoutSteps.names, t.get? file.withoutSteps.names))
    (hroom : roll → CanRoll all t) :
    Attached all n roll (asked ++ [some file])
      { s with
        tree := t
        logger := s.logger.withFile ⟨file.withoutSteps, file.withoutSteps.names, .standard,
          some (.visible file.withoutSteps.names)⟩ } := by
  refine ⟨⟨?_, ?_, fun p => ?_⟩, ht, h.renewals, fun other hother => ?_, fun hcase f hf => ?_, hroom⟩
  · rw [count_withFile, h.once.console, if_neg hne, if_neg (by simp)]
  · rw [Logger.files_withFile, List.map_append, List.map_singleton]
    exact List.nodup_append.mpr ⟨h.once.nodup, List.nodup_singleton _, fun p hp q hq => by
      obtain rfl := List.mem_singleton.mp hq
      rintro rfl
      exact hfile hp⟩
  · rw [Logger.files_withFile, List.map_append, List.mem_append, h.once.mem_files,
      requested_append, List.mem_append]
    rfl
  · obtain hmem | hsame := List.mem_append.mp hother
    · exact h.known other hmem
    · exact List.mem_singleton.mp hsame ▸ hknown
  · rw [Logger.files_withFile, List.mem_append, List.mem_singleton] at hf
    rcases hf with hf | rfl
    · have hf := h.files hcase f hf
      exact hf.of_directories h.linkless ht hdirectory (hkept _ hf.file)
    · exact ⟨hroot, rfl, rfl, hfind, hopen⟩

end Attached

/-- A file that is asked for has one handler from then on. -/
private theorem after_addFile_attached (h : s.Attached all n roll asked) (hne : asked ≠ [])
    {file : Path} (hknown : some file ∈ all) (hroot : file.root = 1) :
    After (addFile .standard file) s (fun _ s' => s'.Attached all n roll (asked ++ [some file]))
      fun _ _ => True := by
  rw [addFile, after_bind, after_get]
  cases hresolve : s.tree.resolve file with
  | error e => exact trivial
  | ok resolved =>
    have hresolved : resolved = file.withoutSteps := by
      rw [FileTree.resolve_of_linkless h.linkless hresolve, Path.withoutSteps, hroot]
      rfl
    dsimp only
    rw [pure_bind, after_bind, after_get, hresolved]
    split
    · rename_i hold
      obtain ⟨f, hf, hpath⟩ := List.any_eq_true.mp hold
      exact h.again hne hknown (List.mem_map.mpr ⟨f, hf, beq_iff_eq.mp hpath⟩)
    · rename_i hnew
      have hnew : file.withoutSteps ∉ s.logger.files.map (·.path) := fun hmem => by
        obtain ⟨f, hf, hpath⟩ := List.mem_map.mp hmem
        exact hnew (List.any_eq_true.mpr ⟨f, hf, beq_iff_eq.mpr hpath⟩)
      have hrefl : s.tree.Changes (fun _ => False) (s.tree.MayMake file.parent.names) s.tree := .refl _
      rw [after_bind, after_onFiles]
      refine ((FileM.after_ensureDirectories hrefl fun _ hl => hl).and
        (after_valid (FileM.keeps_valid_ensureDirectories _))).imp (fun _ t hmade => ?_)
        fun _ _ _ => trivial
      obtain ⟨hmade, hvalid⟩ := hmade
      have hlinks := h.linkless.of_changes hmade
      rw [after_bind, after_onFiles]
      refine (((FileM.after_openForAppending fun _ => False).and
        (FileM.after_openForAppending_linkless hlinks file.withoutSteps)).and
          (after_valid (FileM.keeps_valid_openForAppending _))).imp
            (fun l t' hopened => ?_) fun _ _ _ => trivial
      obtain ⟨⟨⟨-, hchanges, hfile⟩, hplace, hfind⟩, hvalid'⟩ := hopened
      rw [FileTree.straight_withoutSteps] at hplace
      subst hplace
      rw [after_modify]
      refine h.withFile hne hknown hnew (hlinks.of_changes hchanges)
        (fun m hm => hchanges.directory m (hmade.directory m hm))
        (fun m hm => hchanges.file m (hmade.file m hm)) hroot hfile hfind fun hroll => ?_
      have hroom := h.room hroll
      have hmid := hroom.of_changes h.linkless (hvalid hroom.valid) hknown hmade fun _ => False.elim
      refine hmid.of_changes hlinks (hvalid' (hvalid hroom.valid)) hknown
        (hchanges.mono (fun _ hm => hm) fun _ => False.elim) fun m hm hdirectory => ?_
      rw [hm] at hdirectory
      rw [FileTree.bytes?, hdirectory] at hfile
      cases hfile

/-- Setting the logger up attaches the console and the file, unless this is one that cannot be
opened. -/
theorem after_setUp (h : s.Attached all n roll asked) (level : Level) {file : Option Path}
    (hknown : file ∈ all) (hroot : ∀ f, file = some f → f.root = 1) :
    After (setUp .standard level file) s
      (fun _ s' => s'.Attached all n roll (asked ++ [file]) ∧ s'.logger.level = level)
      fun _ _ => ∃ f, file = some f ∧ ¬ Opens s.tree f := by
  -- Attaching the console is like asking for no file.
  have hconsole := h.withConsole
  rw [setUp, after_bind, addConsole, after_modify]
  cases file with
  | none => exact ⟨hconsole.setLevel level, rfl⟩
  | some f =>
    dsimp only
    rw [after_bind]
    refine ((after_addFile_attached hconsole (by simp) hknown (hroot f rfl)).and
      (after_addFile_refused _ .standard f)).imp (fun _ s' h => ?_) fun e s' h => ⟨f, rfl, h.2⟩
    exact ⟨(h.1.congr (by simp) (by simp)).setLevel level, rfl⟩

end Session

end Log
end LocaleLift
