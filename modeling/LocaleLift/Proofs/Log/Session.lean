import LocaleLift.Dictionary
import LocaleLift.Proofs.Files.Write

/-! What steps of a log session change: files that are written, and the log files as long as they are
in place. That is all, as long as no log file is rolled over. -/
namespace LocaleLift.Log

namespace Logger

def closed (g : Logger) : Logger :=
  { g with handlers := g.handlers.map (Handler.mapFile fun f => { f with stream := none }) }

private theorem mapFile_mapFile (g h : LogFile → LogFile) (x : Handler) :
    (x.mapFile g).mapFile h = x.mapFile (h ∘ g) := by
  cases x <;> rfl

@[simp] theorem closed_mapStreams (g : Logger) (h : OpenFile → OpenFile) :
    (g.mapStreams h).closed = g.closed := by
  simp only [closed, mapStreams, List.map_map]
  refine congrArg (Logger.mk g.level) (List.map_congr_left fun x _ => ?_)
  exact mapFile_mapFile _ _ x

@[simp] theorem closed_setStream (g : Logger) (i : Nat) (stream : Option OpenFile) :
    (g.setStream i stream).closed = g.closed := by
  simp only [closed, setStream]
  refine congrArg (Logger.mk g.level) ?_
  generalize g.handlers = hs
  induction hs generalizing i with
  | nil => cases i <;> rfl
  | cons x hs ih =>
    cases i with
    | zero => exact congrArg (· :: _) (mapFile_mapFile _ _ x)
    | succ i => exact congrArg (_ :: ·) (ih i)

/-- What is open does not change where the log files were opened. -/
theorem files_closed (g : Logger) : g.closed.files = g.files.map fun f => { f with stream := none } := by
  rw [files, closed, List.filterMap_map, files, List.map_filterMap]
  refine congrArg (fun f => List.filterMap f g.handlers) (funext fun x => ?_)
  cases x <;> rfl

theorem count_closed (g : Logger) : g.closed.handlers.count .console = g.handlers.count .console := by
  rw [closed, List.count, List.countP_map]
  refine List.countP_congr fun x _ => ?_
  cases x <;> simp [Handler.mapFile]

theorem map_path_congr {g g' : Logger} (h : g'.closed = g.closed) :
    g'.files.map (·.path) = g.files.map (·.path) := by
  have hpaths (k : Logger) : k.files.map (·.path) = k.closed.files.map (·.path) := by
    rw [files_closed, List.map_map]
    rfl
  rw [hpaths g', hpaths g, h]

theorem mem_files_setStream {g : Logger} {i : Nat} {stream : Option OpenFile} {f : LogFile}
    (h : f ∈ (g.setStream i stream).files) : f ∈ g.files ∨ f.stream = stream := by
  rw [files, setStream] at h
  rw [files]
  generalize g.handlers = hs at h ⊢
  induction hs generalizing i with
  | nil => cases i <;> cases h
  | cons h₀ hs ih =>
    cases i with
    | zero =>
      cases h₀ with
      | console => exact .inl h
      | file f₀ =>
        obtain rfl | h := List.mem_cons.mp (show f ∈ { f₀ with stream } :: hs.filterMap _ from h)
        · exact .inr rfl
        · exact .inl (List.mem_cons_of_mem _ h)
    | succ i =>
      cases h₀ with
      | console => exact ih h
      | file f₀ =>
        obtain rfl | h := List.mem_cons.mp
          (show f ∈ f₀ :: (hs.modify i _).filterMap Handler.file? from h)
        · exact .inl List.mem_cons_self
        · exact (ih h).imp (List.mem_cons_of_mem _) id

end Logger

namespace Session

open FileTree (LeadsTo MayMake)

variable {files made files' made' files'' made'' : Location → Prop} {s s' s'' : Session} {i : Nat}
  {f : LogFile} {p : Path}

def logPlaces (s : Session) : List Location :=
  s.logger.files.map (·.location)

/-- Where records go to a file that can be seen. -/
def openPlaces (s : Session) : List Location :=
  s.logger.files.filterMap fun f => f.stream.bind OpenFile.place?

theorem logPlaces_congr (h : s'.logger.closed = s.logger.closed) : s'.logPlaces = s.logPlaces := by
  have hplaces (u : Session) : u.logPlaces = u.logger.closed.files.map (·.location) := by
    rw [logPlaces, Logger.files_closed, List.map_map]
    rfl
  rw [hplaces, hplaces, h]

theorem mem_openPlaces {l : Location} :
    l ∈ s.openPlaces ↔ ∃ f ∈ s.logger.files, f.stream = some (.visible l) := by
  rw [openPlaces, List.mem_filterMap]
  refine exists_congr fun f => and_congr_right fun _ => ?_
  rcases f.stream with _ | _ | _ <;> simp [OpenFile.place?]

/-- From one session to another, the logger stays as it is, apart from what is open, and no link comes
about. As long as no log file is rolled over, only the files at some places change, besides the log
files that are in place, and directories are made. -/
structure Changes (files made : Location → Prop) (s s' : Session) : Prop where
  renewals : s.renewals ≤ s'.renewals
  logger : s'.logger.closed = s.logger.closed
  linkless : s.tree.Linkless → s'.tree.Linkless
  tree : s'.renewals ≤ s.renewals →
    FileTree.Changes (fun l => files l ∨ l ∈ s.openPlaces) made s.tree s'.tree
  open_ : s'.renewals ≤ s.renewals → s'.openPlaces ⊆ s.openPlaces

namespace Changes

theorem refl (s : Session) : Changes files made s s :=
  ⟨Nat.le_refl _, rfl, id, fun _ => .refl _, fun _ => List.Subset.refl _⟩

theorem places (h : Changes files made s s') : s'.logPlaces = s.logPlaces :=
  logPlaces_congr h.logger

/-- Files have changed, and log files have been left behind at most. -/
theorem of_tree (hrenewals : s'.renewals = s.renewals)
    (hlogger : s'.logger.closed = s.logger.closed)
    (htree : FileTree.Changes (fun l => files l ∨ l ∈ s.openPlaces) made s.tree s'.tree)
    (hopen : s'.openPlaces ⊆ s.openPlaces) : Changes files made s s' :=
  ⟨Nat.le_of_eq hrenewals.symm, hlogger, fun h => h.of_changes htree, fun _ => htree, fun _ => hopen⟩

/-- Files have changed that are not of the log. -/
theorem of_files {t : FileTree} (h : s.tree.Changes files made t) :
    Changes files made s { s with tree := t } :=
  .of_tree rfl rfl (h.mono (fun _ => .inl) fun _ => id) (List.Subset.refl _)

/-- If no log file has been rolled over in the end, none has been in between. -/
theorem calm (h : Changes files made s s') (h' : Changes files' made' s' s'')
    (hr : s''.renewals ≤ s.renewals) : s'.renewals ≤ s.renewals ∧ s''.renewals ≤ s'.renewals :=
  ⟨Nat.le_trans h'.renewals hr, Nat.le_trans hr h.renewals⟩

theorem trans (h : Changes files made s s') (h' : Changes files made s' s'') :
    Changes files made s s'' := by
  refine ⟨Nat.le_trans h.renewals h'.renewals, h'.logger.trans h.logger,
    fun ht => h'.linkless (h.linkless ht), fun hr => ?_, fun hr => ?_⟩
  · obtain ⟨hr, hr'⟩ := h.calm h' hr
    exact (h.tree hr).trans
      ((h'.tree hr').mono (fun _ hl => hl.imp id fun hm => h.open_ hr hm) fun _ hm => hm)
  · obtain ⟨hr, hr'⟩ := h.calm h' hr
    exact List.Subset.trans (h'.open_ hr') (h.open_ hr)

/-- Once a log file has been rolled over, nothing is said of the files any more. -/
theorem of_renewed (h : Changes files made s s') (hr : ¬ s'.renewals ≤ s.renewals)
    (h' : Changes files' made' s' s'') : Changes files'' made'' s s'' := by
  have hle := h.renewals
  have hle' := h'.renewals
  exact ⟨by omega, h'.logger.trans h.logger, fun ht => h'.linkless (h.linkless ht),
    fun hr' => absurd hr' (by omega), fun hr' => absurd hr' (by omega)⟩

theorem mono (h : Changes files made s s') (hf : ∀ l, files l → files' l)
    (hm : ∀ l, made l → made' l) : Changes files' made' s s' :=
  ⟨h.renewals, h.logger, h.linkless, fun hr => (h.tree hr).mono (fun l hl => hl.imp (hf l) id) hm,
    h.open_⟩

end Changes

/-- The file at a place holds a text, and no record goes to it. -/
def Holds (s : Session) (l : Location) (text : Text) : Prop :=
  l ∉ s.openPlaces ∧ ∃ bytes, Utf8.encode text = some bytes ∧ s.tree.bytes? l = some bytes

theorem Holds.changes {l : Location} {text : Text} (h : s.Holds l text)
    (hc : Changes files made s s') (hr : s'.renewals ≤ s.renewals) (hl : ¬ files l) :
    s'.Holds l text := by
  obtain ⟨hopen, bytes, htext, hbytes⟩ := h
  refine ⟨fun hmem => hopen (hc.open_ hr hmem), bytes, htext, ?_⟩
  rw [(hc.tree hr).bytes? fun hfile => hfile.elim hl hopen, hbytes]

@[simp] theorem after_onFiles {α : Type} {step : FileM α} {q : α → Session → Prop}
    {r : FileError → Session → Prop} :
    After (onFiles step) s q r ↔
      After step s.tree (fun a t => q a { s with tree := t }) fun e t => r e { s with tree := t } := by
  rw [onFiles, after_bind, after_get]
  unfold After
  cases h : (step.run.run s.tree : Except FileError α × FileTree) with
  | mk x t => cases x <;> exact Iff.rfl

/-- Since a session, log files have been opened again or rolled over at least so often. The logger is
what it was, apart from what is open, no link has come about, and nothing has been shown. -/
private structure Renewed (s₀ : Session) (n : Nat) (s : Session) : Prop where
  renewals : n ≤ s.renewals
  logger : s.logger.closed = s₀.logger.closed
  linkless : s₀.tree.Linkless → s.tree.Linkless
  console : s.console = s₀.console

section Renewed

variable {s₀ : Session} {n : Nat}

private theorem Renewed.le {m : Nat} (h : Renewed s₀ n s) (hm : m ≤ n) : Renewed s₀ m s :=
  { h with renewals := Nat.le_trans hm h.renewals }

private theorem keeps_onFiles {α : Type} {step : FileM α} (hstep : Keeps FileTree.Linkless step) :
    Keeps (Renewed s₀ n) (onFiles step) := by
  intro s h
  rw [after_onFiles]
  by_cases hlinks : s₀.tree.Linkless
  · exact (hstep s.tree (h.linkless hlinks)).imp (fun _ _ ht => { h with linkless := fun _ => ht })
      fun _ _ ht => { h with linkless := fun _ => ht }
  · exact after_self.imp (fun _ _ _ => { h with linkless := fun ht => absurd ht hlinks })
      fun _ _ _ => { h with linkless := fun ht => absurd ht hlinks }

private theorem keeps_mapStreams (g : Session → OpenFile → OpenFile) :
    Keeps (Renewed s₀ n)
      (modify fun s => { s with logger := s.logger.mapStreams (g s) } : StepM PUnit) :=
  keeps_modify fun _ h => { h with logger := (Logger.closed_mapStreams _ _).trans h.logger }

private theorem keeps_setStream (i : Nat) (stream : Option OpenFile) :
    Keeps (Renewed s₀ n) (setStream i stream) :=
  keeps_modify fun _ h => { h with logger := (Logger.closed_setStream _ _ _).trans h.logger }

private theorem keeps_clear (p : Path) : Keeps (Renewed s₀ n) (clear p) := by
  refine keeps_get.bind fun s => ?_
  split
  · exact keeps_get.bind fun before => (keeps_onFiles (FileM.keeps_linkless_remove p)).bind fun place =>
      keeps_mapStreams fun _ => .displace place (before.tree.size place)
  · exact keeps_pure _

private theorem keeps_move (p q : Path) : Keeps (Renewed s₀ n) (move p q) :=
  keeps_get.bind fun before => (keeps_onFiles (FileM.keeps_linkless_move p q)).bind fun ends =>
    keeps_mapStreams fun _ o => (o.displace ends.2 (before.tree.size ends.2)).move ends.1 ends.2

private theorem keeps_shift (m : Nat) : Keeps (Renewed s₀ n) (shift p m) := by
  refine keeps_get.bind fun s => ?_
  split
  · exact (keeps_clear _).bind fun _ => keeps_move _ _
  · exact keeps_pure _

private theorem renewed_reopen (h : Renewed s₀ n s) :
    After (reopen i f) s (fun _ => Renewed s₀ (n + 1)) fun _ => Renewed s₀ (n + 1) := by
  rw [reopen, after_bind, after_modify]
  refine Keeps.bind (keeps_onFiles (FileM.keeps_linkless_openForAppending _)) (fun place => ?_) _
    { h with renewals := Nat.succ_le_succ h.renewals }
  exact (keeps_setStream i _).bind fun _ => keeps_pure _

private theorem keeps_reopen : Keeps (Renewed s₀ n) (reopen i f) := fun _ h =>
  (renewed_reopen h).imp (fun _ _ h => h.le (Nat.le_succ n)) fun _ _ h => h.le (Nat.le_succ n)

private theorem renewed_rollOver (h : Renewed s₀ n s) :
    After (rollOver i f) s (fun _ => Renewed s₀ (n + 1)) fun _ => Renewed s₀ (n + 1) := by
  rw [rollOver, after_bind, after_modify]
  refine Keeps.bind (keeps_setStream i none) (fun _ => ?_) _
    { h with renewals := Nat.succ_le_succ h.renewals }
  split
  · refine Keeps.bind (keeps_forM fun m _ => keeps_shift (m + 1)) fun _ => ?_
    exact (keeps_clear _).bind fun _ => (keeps_shift 0).bind fun _ => keeps_reopen
  · exact keeps_reopen

private theorem keeps_rollOver : Keeps (Renewed s₀ n) (rollOver i f) := fun _ h =>
  (renewed_rollOver h).imp (fun _ _ h => h.le (Nat.le_succ n)) fun _ _ h => h.le (Nat.le_succ n)

private theorem keeps_streamFor (line : Text) (o : OpenFile) :
    Keeps (Renewed s₀ n) (streamFor line i f o) := by
  refine keeps_get.bind fun _ => ?_
  split
  · exact keeps_rollOver
  · exact keeps_pure _

private theorem keeps_append (bytes : List UInt8) (o : OpenFile) :
    Keeps (Renewed s₀ n) (append i bytes o) := by
  cases o with
  | visible l =>
    have happend (t : FileTree) :
        FileTree.Changes (· = l) (fun _ => False) t (t.append l bytes) := .append bytes
    exact keeps_modify fun s h =>
      { h with linkless := fun ht => (h.linkless ht).of_changes (happend s.tree) }
  | hidden => exact keeps_setStream i _

private theorem keeps_encoded (line : Text) (o : OpenFile) :
    Keeps (Renewed s₀ n) (match Utf8.encode line with
      | some bytes => append i bytes o
      | none => throw .notEncodable) := by
  split
  · exact keeps_append _ _
  · exact keeps_throw _

/-- Once a log file has been opened again or rolled over, nothing is said of the files. -/
private theorem Renewed.changes (h : Renewed s (s.renewals + 1) s') :
    Changes files made s s' ∧ s'.console = s.console := by
  have hle := h.renewals
  exact ⟨⟨by omega, h.logger, h.linkless, fun hr => absurd hr (by omega),
    fun hr => absurd hr (by omega)⟩, h.console⟩

end Renewed

theorem lt_renewals_rollOver (s : Session) (i : Nat) (f : LogFile) :
    After (rollOver i f) s (fun _ s' => s.renewals < s'.renewals) fun _ s' => s.renewals < s'.renewals :=
  (renewed_rollOver ⟨Nat.le_refl _, rfl, id, rfl⟩).imp (fun _ _ h => h.renewals) fun _ _ h => h.renewals

/-- A line is appended to what is open for a handler. -/
private theorem changes_append (hf : f ∈ s.logger.files) {o : OpenFile} (ho : f.stream = some o)
    (bytes : List UInt8) :
    After (append i bytes o) s (fun _ s' => Changes files made s s' ∧ s'.console = s.console)
      fun _ s' => Changes files made s s' ∧ s'.console = s.console := by
  cases o with
  | visible l =>
    have hl : l ∈ s.openPlaces := mem_openPlaces.mpr ⟨f, hf, ho⟩
    refine ⟨Changes.of_tree rfl rfl ?_ (List.Subset.refl _), rfl⟩
    exact (FileTree.Changes.append bytes).mono (fun _ he => .inr (he ▸ hl)) fun _ hm => hm
  | hidden n =>
    refine ⟨Changes.of_tree rfl (Logger.closed_setStream _ _ _) (.refl _) fun l hl => ?_, rfl⟩
    obtain ⟨g, hg, hstream⟩ := mem_openPlaces.mp hl
    obtain hg | hhidden := Logger.mem_files_setStream hg
    · exact mem_openPlaces.mpr ⟨g, hg, hstream⟩
    · rw [hhidden] at hstream
      cases hstream

/-- A line that is written changes nothing but the log files that are in place. -/
theorem changes_writeLine (line : Text) (hf : f ∈ s.logger.files) :
    After (writeLine line i f) s (fun _ s' => Changes files made s s' ∧ s'.console = s.console)
      fun _ s' => Changes files made s s' ∧ s'.console = s.console := by
  have hs : Renewed s s.renewals s := ⟨Nat.le_refl _, rfl, id, rfl⟩
  have hencoded (o : OpenFile) (u : Session) (hu : Renewed s (s.renewals + 1) u) :
      After (match Utf8.encode line with
        | some bytes => append i bytes o
        | none => throw .notEncodable) u
        (fun _ s' => Changes files made s s' ∧ s'.console = s.console)
        fun _ s' => Changes files made s s' ∧ s'.console = s.console :=
    (keeps_encoded line o u hu).imp (fun _ _ hu => hu.changes) fun _ _ hu => hu.changes
  rw [writeLine, after_bind, opened]
  cases hstream : f.stream with
  | none =>
    refine (renewed_reopen hs).imp (fun o u hu => ?_) fun _ _ hu => hu.changes
    rw [after_bind]
    exact (keeps_streamFor line o u hu).imp hencoded fun _ _ hu => hu.changes
  | some o =>
    rw [after_pure, after_bind, streamFor, after_bind, after_get]
    split
    · exact (renewed_rollOver hs).imp hencoded fun _ _ hu => hu.changes
    · rw [after_pure]
      split
      · exact changes_append hf hstream _
      · exact ⟨.refl s, rfl⟩

theorem changes_handle (time : Text) (r : Record) (s : Session) (i : Nat) :
    Changes files made s (s.handle time r i) := by
  rw [handle]
  split
  · exact .of_tree rfl rfl (.refl _) (List.Subset.refl _)
  · rename_i f hf
    refine (changes_writeLine _ ?_).state.1
    exact List.mem_filterMap.mpr ⟨_, List.mem_of_getElem? hf, rfl⟩
  · exact .refl s

theorem changes_foldl (time : Text) (r : Record) (is : List Nat) (s : Session) :
    Changes files made s (is.foldl (handle time r) s) := by
  induction is generalizing s with
  | nil => exact .refl s
  | cons i is ih => exact (changes_handle time r s i).trans (ih _)

/-- Logging changes nothing but the log files that are in place. -/
theorem changes_log (time : Text) (r : Record) (s : Session) :
    Changes files made s (s.log time r) := by
  rw [log]
  split
  · exact .refl s
  · split
    · split
      · exact .of_tree rfl rfl (.refl _) (List.Subset.refl _)
      · exact .refl s
    · exact changes_foldl time r _ s

theorem changes_logAll (time : Text) (rs : List Record) (s : Session) :
    Changes files made s (rs.foldl (fun s r => s.log time r) s) := by
  induction rs generalizing s with
  | nil => exact .refl s
  | cons r rs ih => exact (changes_log time r s).trans (ih _)

private theorem visible_of_displace {o : OpenFile} {place l : Location} {size : Nat}
    (h : o.displace place size = .visible l) : o = .visible l ∧ l ≠ place := by
  cases o with
  | hidden => cases h
  | visible m =>
    rw [OpenFile.displace] at h
    split at h
    · cases h
    · rename_i hne
      cases h
      exact ⟨rfl, hne⟩

private theorem mem_openPlaces_displace {place l : Location} {size : Nat}
    (h : l ∈ openPlaces { s with logger := s.logger.mapStreams (.displace place size) }) :
    l ∈ s.openPlaces ∧ l ≠ place := by
  obtain ⟨f, hf, hstream⟩ := mem_openPlaces.mp h
  rw [Logger.files_mapStreams] at hf
  obtain ⟨g, hg, rfl⟩ := List.mem_map.mp hf
  obtain ⟨o, ho, hvisible⟩ := Option.map_eq_some_iff.mp hstream
  obtain ⟨rfl, hne⟩ := visible_of_displace hvisible
  exact ⟨mem_openPlaces.mpr ⟨g, hg, ho⟩, hne⟩

/-- What comes of writing a text: the file is there, and what is logged from then on does not reach
it. -/
theorem after_write_of (place : Location → FileTree → Prop) {r : FileError → Session → Prop}
    {p : Path} {text : Text}
    (h : After (FileM.writeText p text) s.tree
      (fun l t => place l t ∧ FileTree.Changes (· = l) made s.tree t ∧
        ∃ bytes mode, Utf8.encode text = some bytes ∧ t.get? l = some (.file bytes mode))
      fun e t => r e { s with tree := t }) :
    After (write p text) s
      (fun _ s' => s'.renewals = s.renewals ∧
        ∃ l, place l s'.tree ∧ Changes (· = l) made s s' ∧ s'.Holds l text) r := by
  rw [write, displacing, after_bind, after_get, after_bind, after_onFiles]
  refine h.imp (fun l t h => ?_) fun _ _ h => h
  obtain ⟨hplace, hchanges, bytes, mode, htext, hl⟩ := h
  refine ⟨rfl, l, hplace, .of_tree rfl (Logger.closed_mapStreams _ _) ?_
    fun m hm => (mem_openPlaces_displace hm).1,
    fun hm => ?_, bytes, htext, FileTree.bytes?_eq_some.mpr ⟨mode, hl⟩⟩
  · exact hchanges.mono (fun _ hm => .inl hm) fun _ hm => hm
  · exact (mem_openPlaces_displace hm).2 rfl

/-- The file stands where the path leads. -/
theorem after_write (s : Session) (p : Path) (text : Text) :
    After (write p text) s
      (fun _ s' => s'.renewals = s.renewals ∧ ∃ l, s.tree.LeadsTo p.names l ∧
        Changes (· = l) (fun l => (".." : Text) ∉ l) s s' ∧ s'.Holds l text)
      fun _ s' => s'.renewals = s.renewals ∧
        Changes (fun _ => False) (fun l => (".." : Text) ∉ l) s s' := by
  refine after_write_of (fun l _ => s.tree.LeadsTo p.names l)
    ((FileM.after_writeText s.tree p text).imp (fun l t h => ?_) fun e t h => ?_)
  · exact ⟨h.1, h.2.1.mono (fun _ hm => hm) fun _ hm => hm.not_mem_steps, h.2.2⟩
  · exact ⟨rfl, .of_files (h.mono (fun _ hf => hf.elim) fun _ hm => hm.not_mem_steps)⟩

/-- That log files have been rolled over is not undone by writing. -/
theorem keeps_renewals_write (n : Nat) (p : Path) (text : Text) :
    Keeps (fun s => n ≤ s.renewals) (write p text) := fun s hs =>
  (after_write s p text).imp (fun _ _ h => by rwa [h.1]) fun _ _ h => by rwa [h.1]

/-- Nor is it by logging. -/
theorem le_renewals_log (time : Text) (r : Record) (s : Session) :
    s.renewals ≤ (s.log time r).renewals := by
  have h : Changes (fun _ => False) (fun _ => False) s (s.log time r) := changes_log time r s
  exact h.renewals

/-- A session has been set up from a tree: nothing but log files has changed, and they are there. -/
structure IsSetUp (t : FileTree) (s : Session) : Prop where
  tree : FileTree.Changes (· ∈ s.logPlaces) (fun l => (".." : Text) ∉ l) t s.tree
  places : ∀ l ∈ s.logPlaces, (".." : Text) ∉ l ∧ (s.tree.bytes? l).isSome
  open_ : s.openPlaces ⊆ s.logPlaces

theorem isSetUp_start (t : FileTree) : (start t).IsSetUp t :=
  ⟨.refl t, by simp [start, logPlaces], by simp [start, openPlaces]⟩

theorem IsSetUp.withConsole {t : FileTree} (h : s.IsSetUp t) :
    IsSetUp t { s with logger := s.logger.withConsole } := by
  have hplaces : logPlaces { s with logger := s.logger.withConsole } = s.logPlaces := by
    rw [logPlaces, Logger.files_withConsole, logPlaces]
  refine ⟨by rw [hplaces]; exact h.tree, by rw [hplaces]; exact h.places, ?_⟩
  rw [hplaces, openPlaces, Logger.files_withConsole]
  exact h.open_

theorem IsSetUp.log {t : FileTree} (h : s.IsSetUp t)
    (h' : Changes (fun _ => False) (fun _ => False) s s') (hr : s'.renewals ≤ s.renewals) :
    s'.IsSetUp t where
  tree := by
    rw [h'.places]
    refine h.tree.trans ((h'.tree hr).mono (fun l hl => ?_) fun _ hl => hl.elim)
    exact hl.elim False.elim fun hl => h.open_ hl
  places l hl := by
    obtain ⟨hsteps, hfile⟩ := h.places l (h'.places ▸ hl)
    exact ⟨hsteps, (h'.tree hr).file l hfile⟩
  open_ := by
    rw [h'.places]
    exact List.Subset.trans (h'.open_ hr) h.open_

/-- Since a tree, only the files at some places have changed, and the log files in place are among
them. -/
structure Within (files : Location → Prop) (t : FileTree) (s : Session) : Prop where
  tree : t.Changes files (fun l => (".." : Text) ∉ l) s.tree
  open_ : ∀ l ∈ s.openPlaces, files l

theorem IsSetUp.within {t : FileTree} (h : s.IsSetUp t) (hf : ∀ l ∈ s.logPlaces, files l) :
    s.Within files t :=
  ⟨h.tree.mono hf fun _ hl => hl, fun l hl => hf l (h.open_ hl)⟩

theorem Within.changes {t : FileTree} (h : s.Within files t) (hc : Changes files' made s s')
    (hr : s'.renewals ≤ s.renewals) (hf : ∀ l, files' l → files l)
    (hm : ∀ l, made l → (".." : Text) ∉ l) : s'.Within files t where
  tree := h.tree.trans ((hc.tree hr).mono (fun l hl => hl.elim (hf l) (h.open_ l)) hm)
  open_ l hl := h.open_ l (hc.open_ hr hl)

private theorem openPlaces_withFile {path : Path} {place : Location} {rollover : Rollover}
    {t : FileTree} :
    openPlaces { s with
      tree := t, logger := s.logger.withFile ⟨path, place, rollover, some (.visible place)⟩ } =
      s.openPlaces ++ [place] := by
  simp [openPlaces, OpenFile.place?]

theorem after_addFile {t : FileTree} {rollover : Rollover} (file : Path)
    (h : s.renewals = 0 → s.IsSetUp t) :
    After (addFile rollover file) s
      (fun _ s' => s'.renewals = s.renewals ∧ (s'.renewals = 0 → s'.IsSetUp t))
      fun _ _ => True := by
  rw [addFile, after_bind, after_get]
  cases s.tree.resolve file with
  | error e =>
    dsimp only
    rw [after_bind]
    exact trivial
  | ok resolved =>
    dsimp only
    rw [pure_bind, after_bind, after_get]
    split
    · exact ⟨rfl, h⟩
    · rw [after_bind, after_onFiles]
      have hrefl : s.tree.Changes (· ∈ s.logPlaces) (fun l => (".." : Text) ∉ l) s.tree := .refl _
      refine (FileM.after_ensureDirectories hrefl fun _ hl => hl.not_mem_steps).imp
        (fun _ made hmade => ?_) fun _ _ _ => trivial
      rw [after_bind, after_onFiles]
      refine (FileM.after_openForAppending fun l => (".." : Text) ∉ l).imp
        (fun l opened hopened => ?_) fun _ _ _ => trivial
      obtain ⟨hsteps, hchanges, hfile⟩ := hopened
      have hchanges : s.tree.Changes (fun m => m ∈ s.logPlaces ∨ m = l)
          (fun l => (".." : Text) ∉ l) opened :=
        (hmade.mono (fun _ hm => .inl hm) fun _ hm => hm).trans
          (hchanges.mono (fun _ hm => .inr hm) fun _ hm => hm)
      rw [after_modify]
      refine ⟨rfl, fun hcalm => ?_⟩
      have h := h hcalm
      refine ⟨?_, fun m hm => ?_, ?_⟩
      · simpa [logPlaces] using (h.tree.mono (fun _ hm => .inl hm) fun _ hm => hm).trans hchanges
      · simp only [logPlaces, Logger.files_withFile, List.map_append, List.map_cons, List.map_nil,
          List.mem_append, List.mem_singleton] at hm
        obtain hm | rfl := hm
        · obtain ⟨hsteps, hfile⟩ := h.places m hm
          exact ⟨hsteps, hchanges.file m hfile⟩
        · exact ⟨hsteps, hfile⟩
      · rw [openPlaces_withFile]
        rw [logPlaces, Logger.files_withFile, List.map_append]
        exact List.append_subset.mpr
          ⟨List.subset_append_of_subset_left _ h.open_, List.subset_append_right _ _⟩

end Session
end LocaleLift.Log
