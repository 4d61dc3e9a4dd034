import LocaleLift.Proofs.Files.Whole
import LocaleLift.Proofs.Log.Rollover

/-! What becomes of a record: its line comes once to the end of each log file, which is rolled over
before if it has become too large. -/
namespace LocaleLift

namespace Log

/-- Records go to a file where its path says, and it is rolled over in the usual way. -/
structure LogFile.IsOpen (f : LogFile) (t : FileTree) : Prop where
  root_eq : f.path.root = 1
  rollover_eq : f.rollover = .standard
  stream_eq : f.stream = some (.visible f.path.names)
  find : t.find true f.path = .ok (f.path.names, t.get? f.path.names)
  file : (t.bytes? f.path.names).isSome

theorem LogFile.IsOpen.of_directories {f : LogFile} {t t' : FileTree} (h : f.IsOpen t)
    (ht : t.Linkless) (ht' : t'.Linkless)
    (hdirectory : ∀ l, t.get? l = some .directory → t'.get? l = some .directory)
    (hfile : (t'.bytes? f.path.names).isSome) : f.IsOpen t' :=
  ⟨h.root_eq, h.rollover_eq, h.stream_eq, FileTree.find_of_linkless h.find ht ht' hdirectory, hfile⟩

theorem LogFile.IsOpen.path_eq {f g : LogFile} {t : FileTree} (hf : f.IsOpen t) (hg : g.IsOpen t)
    (h : f.path.names = g.path.names) : f.path = g.path := by
  have hroot := hf.root_eq.trans hg.root_eq.symm
  cases hf' : f.path
  cases hg' : g.path
  simp_all

/-- A log file is rolled over before a line is written to it. -/
def IsDue (p : Path) (line : Text) (t : FileTree) : Prop :=
  Rollover.standard.limit ≤ t.size p.names + line.length

instance (p : Path) (line : Text) (t : FileTree) : Decidable (IsDue p line t) :=
  inferInstanceAs (Decidable (_ ≤ _))

/-- The places of the log files that change when a line is written to one of them. -/
def Touches (p : Path) (line : Text) (t : FileTree) (l : Location) : Prop :=
  l = p.names ∨ IsDue p line t ∧ ∃ n < Rollover.standard.backups, l = slot p (n + 1)

/-- A line has been written to a log file: to the end of it or, if it had become too large, to a new
one, after the older ones have moved on by one. Nothing is written of a line without an encoding. -/
structure Written (p : Path) (line : Text) (t t' : FileTree) : Prop where
  file : ∃ old, t.bytes? p.names = some old ∧
    t'.bytes? p.names = some ((if IsDue p line t then [] else old) ++ (Utf8.encode line).getD [])
  older : IsDue p line t → ∀ n < Rollover.standard.backups, t'.get? (slot p (n + 1)) =
    if n + 1 = Rollover.standard.backups then (t.get? (slot p n)).or (t.get? (slot p (n + 1)))
    else t.get? (slot p n)

/-- A line has been written to a log file, and nothing else has changed. -/
structure Takes (p : Path) (line : Text) (t t' : FileTree) : Prop extends Written p line t t' where
  others : ∀ l, ¬ Touches p line t l → t'.get? l = t.get? l

/-- A line has been written to some log files, one after the other. None of them was rolled over
unless a condition holds. -/
inductive Writes (line : Text) (may : Prop) : List Path → FileTree → FileTree → Prop
  | nil (t : FileTree) : Writes line may [] t t
  | cons {p : Path} {ps : List Path} {t u t' : FileTree} (htakes : Takes p line t u)
      (hdue : IsDue p line t → may) (hrest : Writes line may ps u t') : Writes line may (p :: ps) t t'

section Writes

variable {p q : Path} {ps : List Path} {line : Text} {may : Prop} {t t' u : FileTree} {l : Location}

private theorem isDue_congr (h : u.get? p.names = t.get? p.names) : IsDue p line u ↔ IsDue p line t := by
  rw [IsDue, IsDue, FileTree.size, FileTree.size, h]

private theorem Written.congr (h : Written p line u t') (hfile : u.get? p.names = t.get? p.names)
    (holder : IsDue p line t → ∀ n ≤ Rollover.standard.backups,
      u.get? (slot p n) = t.get? (slot p n)) : Written p line t t' where
  file := by
    obtain ⟨old, hold, hnew⟩ := h.file
    refine ⟨old, (FileTree.bytes?_congr hfile).symm.trans hold, ?_⟩
    simpa only [isDue_congr hfile] using hnew
  older hdue n hn := by
    rw [h.older ((isDue_congr hfile).mpr hdue) n hn, holder hdue n (Nat.le_of_lt hn),
      holder hdue (n + 1) hn]

/-- If the log files do not get in each other's way, the line is written to each of them. -/
theorem Writes.written (h : Writes line may ps t t') (hnames : (ps.map Path.names).Nodup)
    (hslots : may → ∀ p ∈ ps, ∀ q ∈ ps, p ≠ q → ∀ n ≤ Rollover.standard.backups,
      ∀ m ≤ Rollover.standard.backups, slot p n ≠ slot q m) :
    (∀ p ∈ ps, Written p line t t' ∧ (IsDue p line t → may)) ∧
      ∀ l, (∀ p ∈ ps, ¬ Touches p line t l) → t'.get? l = t.get? l := by
  induction h with
  | nil t => exact ⟨fun p hp => absurd hp List.not_mem_nil, fun _ _ => rfl⟩
  | @cons p ps t u t' htakes hdue hrest ih =>
    rw [List.map_cons, List.nodup_cons] at hnames
    obtain ⟨hnew, hnames⟩ := hnames
    have hrestSlots (h : may) (q : Path) (hq : q ∈ ps) := hslots h q (List.mem_cons_of_mem _ hq)
    obtain ⟨hwritten, hothers⟩ := ih hnames fun h q hq r hr =>
      hrestSlots h q hq r (List.mem_cons_of_mem _ hr)
    have hne (q : Path) (hq : q ∈ ps) : p.names ≠ q.names := fun heq =>
      hnew (heq ▸ List.mem_map_of_mem hq)
    have hpq (q : Path) (hq : q ∈ ps) : p ≠ q := fun heq => hne q hq (congrArg Path.names heq)
    -- The first of the log files leaves the places of the others as they are.
    have hslot (q : Path) (hq : q ∈ ps) (n : Nat) (hn : n ≤ Rollover.standard.backups)
        (hcase : n = 0 ∨ may) : u.get? (slot q n) = t.get? (slot q n) := by
      refine htakes.others _ fun htouch => ?_
      obtain heq | ⟨hpdue, m, hm, heq⟩ := htouch
      · obtain rfl | hmay := hcase
        · exact hne q hq heq.symm
        · exact hslots hmay p List.mem_cons_self q (List.mem_cons_of_mem _ hq) (hpq q hq) 0
            (Nat.zero_le _) n hn heq.symm
      · exact hslots (hdue hpdue) p List.mem_cons_self q (List.mem_cons_of_mem _ hq) (hpq q hq)
          (m + 1) hm n hn heq.symm
    have hsame (q : Path) (hq : q ∈ ps) : u.get? q.names = t.get? q.names :=
      hslot q hq 0 (Nat.zero_le _) (.inl rfl)
    -- The others leave those of the first as they are.
    have hkept (n : Nat) (hn : n ≤ Rollover.standard.backups) (hcase : n = 0 ∨ may) :
        t'.get? (slot p n) = u.get? (slot p n) := by
      refine hothers _ fun q hq htouch => ?_
      obtain heq | ⟨hqdue, m, hm, heq⟩ := htouch
      · obtain rfl | hmay := hcase
        · exact hne q hq heq
        · exact hslots hmay p List.mem_cons_self q (List.mem_cons_of_mem _ hq) (hpq q hq) n hn 0
            (Nat.zero_le _) heq
      · exact hslots ((hwritten q hq).2 hqdue) p List.mem_cons_self q (List.mem_cons_of_mem _ hq)
          (hpq q hq) n hn (m + 1) hm heq
    refine ⟨List.forall_mem_cons.mpr ⟨⟨⟨?_, fun hpdue n hn => ?_⟩, hdue⟩, fun q hq => ?_⟩,
      fun l hl => ?_⟩
    · obtain ⟨old, hold, hput⟩ := htakes.file
      exact ⟨old, hold, (FileTree.bytes?_congr (hkept 0 (Nat.zero_le _) (.inl rfl))).trans hput⟩
    · rw [hkept (n + 1) hn (.inr (hdue hpdue)), htakes.older hpdue n hn]
    · obtain ⟨hq', hmay⟩ := hwritten q hq
      have hqdue : IsDue q line t → may := fun h => hmay ((isDue_congr (hsame q hq)).mpr h)
      exact ⟨hq'.congr (hsame q hq) fun h n hn => hslot q hq n hn (.inr (hqdue h)), hqdue⟩
    · obtain ⟨hp, hps⟩ := List.forall_mem_cons.mp hl
      rw [hothers l fun q hq htouch => hps q hq (htouch.imp_right fun h =>
        ⟨(isDue_congr (hsame q hq)).mp h.1, h.2⟩), htakes.others l hp]

end Writes

namespace Logger

/-- A stream that is closed and opened again is as before. -/
theorem setStream_self {g : Logger} {i : Nat} {f : LogFile} (hf : g.handlers[i]? = some (.file f)) :
    (g.setStream i none).setStream i f.stream = g := by
  rw [setStream, setStream]
  refine congrArg (Logger.mk g.level) ?_
  rw [List.modify_modify_eq]
  refine List.ext_getElem? fun j => ?_
  rw [List.getElem?_modify]
  by_cases hij : i = j
  · subst hij
    simp [hf, Handler.mapFile]
  · simp [hij]

end Logger

namespace Session

variable {s : Session} {i : Nat} {f : LogFile} {line : Text}

/-- A line has come to the end of the file at a place, as far as it has an encoding. -/
private structure Appended (line : Text) (l : Location) (s s' : Session) : Prop where
  logger : s'.logger = s.logger
  others : ∀ m, m ≠ l → s'.tree.get? m = s.tree.get? m
  file : ∀ old, s.tree.bytes? l = some old →
    s'.tree.bytes? l = some (old ++ (Utf8.encode line).getD [])

private theorem after_encoded (line : Text) (i : Nat) (s : Session) (l : Location) :
    After (match Utf8.encode line with
      | some bytes => append i bytes (.visible l)
      | none => throw .notEncodable) s (fun _ => Appended line l s) fun _ => Appended line l s := by
  cases hline : Utf8.encode line with
  | none => exact ⟨rfl, fun _ _ => rfl, fun old hold => by simpa [hline] using hold⟩
  | some bytes =>
    refine ⟨rfl, fun m hm => FileTree.get?_append_of_ne hm, fun old hold => ?_⟩
    rw [hline]
    exact FileTree.bytes?_append_self hold

/-- A line that a log file can take up comes to its end. -/
private theorem Appended.takes {s s' : Session} {p : Path} (h : Appended line p.names s s')
    (hfile : (s.tree.bytes? p.names).isSome) (hdue : ¬ IsDue p line s.tree) :
    Takes p line s.tree s'.tree where
  file := by
    obtain ⟨old, hold⟩ := Option.isSome_iff_exists.mp hfile
    exact ⟨old, hold, by rw [if_neg hdue, h.file old hold]⟩
  older h := absurd h hdue
  others l hl := h.others l fun heq => hl (.inl heq)

/-- A line for which a log file has been rolled over is the first one of the new one. -/
private theorem Appended.takes_of_rolledOver {s u s' : Session} {p : Path}
    (h : Appended line p.names u s') (hrolled : RolledOver p Rollover.standard.backups s.tree u.tree)
    (hcan : CanShift p Rollover.standard.backups s.tree) (hfile : (s.tree.bytes? p.names).isSome)
    (hdue : IsDue p line s.tree) : Takes p line s.tree s'.tree where
  file := by
    obtain ⟨old, hold⟩ := Option.isSome_iff_exists.mp hfile
    refine ⟨old, hold, ?_⟩
    rw [if_pos hdue, h.file [] (FileTree.bytes?_eq_some.mpr ⟨_, hrolled.begun⟩)]
  older _ n hn := by
    rw [h.others _ fun heq => absurd (slot_inj hcan.nonempty heq) (Nat.succ_ne_zero n),
      hrolled.older n hn]
  others l hl := by
    rw [h.others l fun heq => hl (.inl heq), hrolled.others l fun n hn => ?_]
    rintro rfl
    cases n with
    | zero => exact hl (.inl rfl)
    | succ n => exact hl (.inr ⟨hdue, n, hn, rfl⟩)

private theorem isDue_of_isOpen (h : f.IsOpen s.tree) :
    s.isDue f (.visible f.path.names) line = decide (IsDue f.path line s.tree) := by
  obtain ⟨old, hold⟩ := Option.isSome_iff_exists.mp h.file
  obtain ⟨mode, hfile⟩ := FileTree.bytes?_eq_some.mp hold
  have hisFile : s.tree.isFile f.path = true := by rw [FileTree.isFile, h.find, hfile]
  have hlimit : (Rollover.standard.limit != 0) = true := by decide
  rw [isDue, hisFile, h.rollover_eq, hlimit, Bool.or_true, Bool.true_and, Bool.true_and]
  exact decide_eq_decide.mpr Iff.rfl

/-- A line is written to a log file that is open, if this can be rolled over or need not be. -/
theorem after_writeLine_open (hi : s.logger.handlers[i]? = some (.file f)) (hopen : f.IsOpen s.tree)
    (hready : IsDue f.path line s.tree → CanShift f.path Rollover.standard.backups s.tree ∧
      (s.logger.setStream i none).Apart f.path Rollover.standard.backups) :
    After (writeLine line i f) s
      (fun _ s' => s'.logger = s.logger ∧ Takes f.path line s.tree s'.tree)
      fun _ s' => s'.logger = s.logger ∧ Takes f.path line s.tree s'.tree := by
  obtain ⟨old, hold⟩ := Option.isSome_iff_exists.mp hopen.file
  obtain ⟨mode, hfile⟩ := FileTree.bytes?_eq_some.mp hold
  rw [writeLine, after_bind, opened, hopen.stream_eq]
  dsimp only
  rw [after_pure, after_bind, streamFor, after_bind, after_get, isDue_of_isOpen hopen]
  by_cases hd : IsDue f.path line s.tree
  · obtain ⟨hcan, hapart⟩ := hready hd
    rw [if_pos (decide_eq_true hd)]
    rw [← hopen.rollover_eq] at hcan hapart
    refine (after_rollOver (by rw [hopen.rollover_eq]; decide) hcan (by simp [hfile]) hapart).imp
      (fun o u h => ?_) fun _ _ => False.elim
    obtain ⟨rfl, hlogger, -, -, hrolled⟩ := h
    rw [← hopen.stream_eq, Logger.setStream_self hi] at hlogger
    rw [hopen.rollover_eq] at hrolled hcan
    have hdone (s' : Session) (h : Appended line f.path.names u s') :
        s'.logger = s.logger ∧ Takes f.path line s.tree s'.tree :=
      ⟨h.logger.trans hlogger, h.takes_of_rolledOver hrolled hcan hopen.file hd⟩
    exact (after_encoded line i u f.path.names).imp (fun _ => hdone) fun _ => hdone
  · rw [if_neg (by simpa using hd), after_pure]
    have hdone (s' : Session) (h : Appended line f.path.names s s') :
        s'.logger = s.logger ∧ Takes f.path line s.tree s'.tree :=
      ⟨h.logger, h.takes hopen.file hd⟩
    exact (after_encoded line i s f.path.names).imp (fun _ => hdone) fun _ => hdone

/-- A line that a log file is rolled over for is counted. -/
theorem lt_renewals_writeLine (hopen : f.IsOpen s.tree) (hdue : IsDue f.path line s.tree) :
    After (writeLine line i f) s (fun _ s' => s.renewals < s'.renewals)
      fun _ s' => s.renewals < s'.renewals := by
  rw [writeLine, after_bind, opened, hopen.stream_eq]
  dsimp only
  rw [after_pure, after_bind, streamFor, after_bind, after_get, isDue_of_isOpen hopen,
    if_pos (decide_eq_true hdue)]
  refine (lt_renewals_rollOver s i f).imp (fun o u hu => ?_) fun _ _ hu => hu
  split
  · cases o <;> exact hu
  · exact hu

end Session

/-- Log files can be rolled over without getting in each other's way. -/
structure Roomy (fs : List LogFile) (t : FileTree) : Prop where
  can : ∀ f ∈ fs, CanShift f.path Rollover.standard.backups t
  apart : ∀ f ∈ fs, ∀ g ∈ fs, f.path ≠ g.path →
    ∀ n ≤ Rollover.standard.backups, ¬ slot f.path n <+: g.path.names

section Roomy

variable {fs : List LogFile} {f g : LogFile} {t t' : FileTree} {line : Text}

theorem Roomy.slot_ne (h : Roomy fs t) (hf : f ∈ fs) (hg : g ∈ fs) (hne : f.path ≠ g.path) {n m : Nat}
    (hn : n ≤ Rollover.standard.backups) (hm : m ≤ Rollover.standard.backups) :
    slot f.path n ≠ slot g.path m :=
  slot_ne_slot (h.can f hf).nonempty (h.can g hg).nonempty
    (fun heq => h.apart f hf g hg hne 0 (Nat.zero_le _) (heq ▸ List.prefix_refl _))
    (fun n hn => h.apart f hf g hg hne (n + 1) hn)
    (fun n hn => h.apart g hg f hf (Ne.symm hne) (n + 1) hn) hn hm

namespace Takes

variable {p q : Path}

theorem eq_of_not_slot (h : Takes p line t t') {l : Location}
    (hl : ∀ n ≤ Rollover.standard.backups, l ≠ slot p n) : t'.get? l = t.get? l := by
  refine h.others l fun htouch => ?_
  obtain heq | ⟨-, n, hn, heq⟩ := htouch
  · exact hl 0 (Nat.zero_le _) heq
  · exact hl (n + 1) hn heq

theorem canShift (h : Takes p line t t') (hcan : CanShift p Rollover.standard.backups t) :
    CanShift p Rollover.standard.backups t' := by
  refine hcan.of_get? (fun l hl => h.eq_of_not_slot hl) fun n hn e he => ?_
  cases n with
  | zero =>
    obtain ⟨old, -, hput⟩ := h.file
    obtain ⟨mode, hput⟩ := FileTree.bytes?_eq_some.mp hput
    exact ⟨_, mode, Option.some.inj (he.symm.trans hput)⟩
  | succ n =>
    have hle : n ≤ Rollover.standard.backups := Nat.le_of_lt hn
    by_cases hdue : IsDue p line t
    · rw [h.older hdue n hn] at he
      split at he
      · exact hcan.file_of_or hle hn he
      · exact hcan.file_of_get? hle he
    · refine hcan.file_of_get? hn ((h.others _ fun htouch => ?_).symm.trans he)
      obtain heq | ⟨h, -⟩ := htouch
      · exact absurd (slot_inj hcan.nonempty heq) (Nat.succ_ne_zero n)
      · exact hdue h

/-- Directories are left alone. -/
theorem directory (h : Takes p line t t')
    (hcan : IsDue p line t → CanShift p Rollover.standard.backups t) {l : Location}
    (hl : t.get? l = some .directory) : t'.get? l = some .directory := by
  refine (h.others l fun htouch => ?_).trans hl
  obtain rfl | ⟨hdue, n, hn, rfl⟩ := htouch
  · obtain ⟨old, hold, -⟩ := h.file
    obtain ⟨mode, hold⟩ := FileTree.bytes?_eq_some.mp hold
    rw [hold] at hl
    cases hl
  · exact (hcan hdue).plain (n + 1) hn hl

end Takes

theorem Roomy.of_takes (h : Roomy fs t) (hf : f ∈ fs) (htakes : Takes f.path line t t') :
    Roomy fs t' where
  can g hg := by
    have hcan := h.can f hf
    by_cases heq : f.path = g.path
    · rw [← heq]
      exact htakes.canShift hcan
    · exact (h.can g hg).of_other hcan (htakes.canShift hcan) (fun l hl => htakes.eq_of_not_slot hl)
        fun m hm n hn => (h.slot_ne hf hg heq hn hm).symm
  apart := h.apart

end Roomy

namespace Session

variable {s : Session} {i : Nat} {f : LogFile} {time : Text} {r : Record}

/-- No other log file stands in the way of one that is rolled over. -/
private theorem apart_setStream (hopen : ∀ g ∈ s.logger.files, g.IsOpen s.tree)
    (hpaths : (s.logger.files.map (·.path)).Nodup) (hi : s.logger.handlers[i]? = some (.file f))
    {k : Nat} (hapart : ∀ g ∈ s.logger.files, f.path ≠ g.path →
      ∀ n ≤ k, ¬ slot f.path n <+: g.path.names) :
    (s.logger.setStream i none).Apart f.path k := by
  intro g hg l hl n hn
  have hclosed := Logger.map_path_congr (Logger.closed_setStream s.logger i none)
  have hf : { f with stream := none } ∈ (s.logger.setStream i none).files := by
    refine List.mem_filterMap.mpr ⟨.file { f with stream := none }, ?_, rfl⟩
    refine List.mem_of_getElem? (i := i) ?_
    rw [Logger.setStream, List.getElem?_modify_eq, hi]
    rfl
  obtain hmem | hnone := Logger.mem_files_setStream hg
  · obtain rfl : g.path.names = l := OpenFile.visible.inj
      (Option.some.inj ((hopen g hmem).stream_eq.symm.trans hl))
    refine hapart g hmem (fun heq => ?_) n hn
    have hsame := List.inj_on_of_nodup_map (hclosed ▸ hpaths) hf hg heq
    rw [← hsame] at hl
    cases hl
  · rw [hnone] at hl
    cases hl

private theorem handle_file (hi : s.logger.handlers[i]? = some (.file f)) :
    s.handle time r i =
      ((writeLine (r.fileLine time) i f).run.run s : Except FileError Unit × Session).2 := by
  rw [handle, hi]

private theorem mem_files_of_getElem? (hi : s.logger.handlers[i]? = some (.file f)) :
    f ∈ s.logger.files :=
  List.mem_filterMap.mpr ⟨_, List.mem_of_getElem? hi, rfl⟩

private theorem renewals_lt_handle (hi : s.logger.handlers[i]? = some (.file f))
    (hopen : f.IsOpen s.tree) (hdue : IsDue f.path (r.fileLine time) s.tree) :
    s.renewals < (s.handle time r i).renewals := by
  rw [handle_file hi]
  exact (lt_renewals_writeLine hopen hdue).state

/-- One log file takes the line, and all of them are open and can be rolled over as before. -/
private theorem takes_handle {may : Prop} (hi : s.logger.handlers[i]? = some (.file f))
    (hlinks : s.tree.Linkless) (hopen : ∀ g ∈ s.logger.files, g.IsOpen s.tree)
    (hpaths : (s.logger.files.map (·.path)).Nodup) (hroomy : may → Roomy s.logger.files s.tree)
    (hdue : IsDue f.path (r.fileLine time) s.tree → may) :
    (s.handle time r i).logger = s.logger ∧
      Takes f.path (r.fileLine time) s.tree (s.handle time r i).tree ∧
      (∀ g ∈ s.logger.files, g.IsOpen (s.handle time r i).tree) ∧
      (may → Roomy s.logger.files (s.handle time r i).tree) := by
  have hf := mem_files_of_getElem? hi
  have hcan (h : IsDue f.path (r.fileLine time) s.tree) :
      CanShift f.path Rollover.standard.backups s.tree :=
    (hroomy (hdue h)).can f hf
  have hapart (h : IsDue f.path (r.fileLine time) s.tree) :
      (s.logger.setStream i none).Apart f.path Rollover.standard.backups :=
    apart_setStream hopen hpaths hi ((hroomy (hdue h)).apart f hf)
  have hline := (after_writeLine_open hi (hopen f hf) fun h => ⟨hcan h, hapart h⟩).state
  rw [← handle_file hi] at hline
  obtain ⟨hlogger, htakes⟩ := hline
  have hchanges : Changes (fun _ => False) (fun _ => False) s (s.handle time r i) :=
    changes_handle time r s i
  refine ⟨hlogger, htakes, fun g hg => ?_, fun h => (hroomy h).of_takes hf htakes⟩
  refine (hopen g hg).of_directories hlinks (hchanges.linkless hlinks)
    (fun l hl => htakes.directory hcan hl) ?_
  by_cases heq : f.path = g.path
  · obtain ⟨old, -, hput⟩ := htakes.file
    rw [← heq, hput]
    rfl
  · rw [FileTree.bytes?_congr (htakes.others _ fun htouch => ?_)]
    · exact (hopen g hg).file
    · obtain hnames | ⟨h, n, hn, hnames⟩ := htouch
      · exact heq ((hopen f hf).path_eq (hopen g hg) hnames.symm)
      · exact (hroomy (hdue h)).slot_ne hf hg heq hn (Nat.zero_le _) hnames.symm

/-- A record is handed over to one log file after the other. -/
private theorem writes_foldl {may : Prop} (before after : List Handler)
    (hs : s.logger.handlers = before ++ after) (hlinks : s.tree.Linkless)
    (hopen : ∀ g ∈ s.logger.files, g.IsOpen s.tree)
    (hpaths : (s.logger.files.map (·.path)).Nodup) (hroomy : may → Roomy s.logger.files s.tree)
    (hcase : may ∨
      ((List.range' before.length after.length).foldl (handle time r) s).renewals ≤ s.renewals) :
    ((List.range' before.length after.length).foldl (handle time r) s).logger = s.logger ∧
      Writes (r.fileLine time) may ((after.filterMap Handler.file?).map (·.path)) s.tree
        ((List.range' before.length after.length).foldl (handle time r) s).tree ∧
      (∀ g ∈ s.logger.files,
        g.IsOpen ((List.range' before.length after.length).foldl (handle time r) s).tree) ∧
      (may → Roomy s.logger.files
        ((List.range' before.length after.length).foldl (handle time r) s).tree) := by
  induction after generalizing before s with
  | nil => exact ⟨rfl, .nil _, hopen, hroomy⟩
  | cons h after ih =>
    have hi : s.logger.handlers[before.length]? = some h := by simp [hs]
    have hnext : (before ++ [h]).length = before.length + 1 := by simp
    rw [List.length_cons, List.range'_succ, List.foldl_cons] at hcase ⊢
    cases h with
    | console =>
      have hstep : s.handle time r before.length =
          { s with console := s.console ++ r.consoleLine } := by rw [handle, hi]
      rw [hstep] at hcase ⊢
      have hrest := ih (before ++ [.console])
        (s := { s with console := s.console ++ r.consoleLine }) (by simp [hs]) hlinks hopen hpaths
        hroomy (by rwa [hnext])
      rwa [hnext] at hrest
    | file f =>
      have hchanges : Changes (fun _ => False) (fun _ => False) s (s.handle time r before.length) :=
        changes_handle time r s before.length
      have hrest : Changes (fun _ => False) (fun _ => False) (s.handle time r before.length) _ :=
        changes_foldl time r (List.range' (before.length + 1) after.length) _
      have hdue (h : IsDue f.path (r.fileLine time) s.tree) : may := by
        refine hcase.resolve_right fun hle => ?_
        have hlt := renewals_lt_handle hi (hopen f (mem_files_of_getElem? hi)) h
        exact Nat.lt_irrefl _ (Nat.lt_of_lt_of_le hlt (Nat.le_trans hrest.renewals hle))
      obtain ⟨hlogger, htakes, hopen', hroomy'⟩ := takes_handle hi hlinks hopen hpaths hroomy hdue
      have hrest := ih (before ++ [.file f]) (s := s.handle time r before.length)
        (by simp [hlogger, hs]) (hchanges.linkless hlinks) (hlogger ▸ hopen') (hlogger ▸ hpaths)
        (hlogger ▸ hroomy')
        (hcase.imp_right fun hle => by rw [hnext]; exact Nat.le_trans hle hchanges.renewals)
      rw [hnext, hlogger] at hrest
      exact ⟨hrest.1, .cons htakes hdue hrest.2.1, hrest.2.2⟩

private theorem log_eq (hne : s.logger.handlers ≠ []) (hadmits : s.logger.admits r.level = true) :
    s.log time r = (List.range' 0 s.logger.handlers.length).foldl (handle time r) s := by
  rw [log, hadmits, if_neg (by simp), if_neg (by simpa using hne), List.range_eq_range']

/-- A record that is let through is written to each log file, unless one that cannot be rolled over
would have to be. -/
theorem writes_log {may : Prop} (hne : s.logger.handlers ≠ [])
    (hadmits : s.logger.admits r.level = true) (hlinks : s.tree.Linkless)
    (hopen : ∀ g ∈ s.logger.files, g.IsOpen s.tree)
    (hpaths : (s.logger.files.map (·.path)).Nodup) (hroomy : may → Roomy s.logger.files s.tree)
    (hcase : may ∨ (s.log time r).renewals ≤ s.renewals) :
    (s.log time r).logger = s.logger ∧
      Writes (r.fileLine time) may (s.logger.files.map (·.path)) s.tree (s.log time r).tree ∧
      (∀ g ∈ s.logger.files, g.IsOpen (s.log time r).tree) ∧
      (may → Roomy s.logger.files (s.log time r).tree) := by
  rw [log_eq hne hadmits] at hcase ⊢
  exact writes_foldl [] s.logger.handlers rfl hlinks hopen hpaths hroomy hcase

private theorem console_foldl (before after : List Handler)
    (hs : s.logger.closed.handlers = before ++ after) :
    ((List.range' before.length after.length).foldl (handle time r) s).console =
      s.console ++ (List.replicate (after.count .console) r.consoleLine).flatten := by
  induction after generalizing before s with
  | nil => simp
  | cons h after ih =>
    have hi : s.logger.closed.handlers[before.length]? = some h := by simp [hs]
    have hnext : (before ++ [h]).length = before.length + 1 := by simp
    have hchanges : Changes (fun _ => False) (fun _ => False) s (s.handle time r before.length) :=
      changes_handle time r s before.length
    have hrest := ih (s := s.handle time r before.length) (before ++ [h])
      (by rw [hchanges.logger, hs, List.append_cons])
    rw [List.length_cons, List.range'_succ, List.foldl_cons, ← hnext, hrest]
    rw [Logger.closed, List.getElem?_map, Option.map_eq_some_iff] at hi
    obtain ⟨x, hx, rfl⟩ := hi
    cases x with
    | console => simp [handle, hx, Handler.mapFile, List.replicate_succ]
    | file f =>
      have hf : f ∈ s.logger.files := List.mem_filterMap.mpr ⟨_, List.mem_of_getElem? hx, rfl⟩
      have hline : After (writeLine (r.fileLine time) before.length f) s
          (fun _ s' => Changes (fun _ => False) (fun _ => False) s s' ∧ s'.console = s.console)
          fun _ s' => Changes (fun _ => False) (fun _ => False) s s' ∧ s'.console = s.console :=
        changes_writeLine _ hf
      rw [handle, hx]
      dsimp only
      rw [hline.state.2]
      simp [Handler.mapFile]

/-- A record that is let through is shown once for each handler of the console. -/
theorem console_log (hne : s.logger.handlers ≠ []) (hadmits : s.logger.admits r.level = true) :
    (s.log time r).console = s.console ++
      (List.replicate (s.logger.closed.handlers.count .console) r.consoleLine).flatten := by
  have hlength : s.logger.handlers.length = s.logger.closed.handlers.length := by
    rw [Logger.closed, List.length_map]
  rw [log_eq hne hadmits, hlength]
  exact console_foldl [] _ rfl

end Session

end Log
end LocaleLift
