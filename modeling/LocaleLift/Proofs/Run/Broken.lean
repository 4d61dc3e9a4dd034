import LocaleLift.Proofs.Run.Complete
import LocaleLift.Proofs.Run.Keeps
import LocaleLift.Proofs.Run.Step
import Mathlib

/-! Which dictionaries a run that broke off has written. -/
namespace LocaleLift.Run

/-- The files that are no units are as they were, log files apart. -/
def Spares (t : FileTree) (s : State) : Prop :=
  ∀ l, l ∉ s.session.logPlaces → UnitKind.ofPath? ⟨1, l⟩ = none →
    s.session.tree.bytes? l = t.bytes? l

/-- A run has stopped while it was writing its dictionaries: its walk went through all sources, and
some first dictionaries have been issued, but not the rest. -/
structure Stopped [Script.Parser] (host : Host) (a : Arguments) (t : FileTree) (walked s : State)
    (directory : Path)
    (issued rest : List Bucket) : Prop where
  walk : ∃ plan out prepared, plan.dryRun = false ∧
    ((prepare host a).run.run (.start t) : Except Fault (Option (Plan × Path)) × State) =
      (.ok (some (plan, out)), prepared) ∧
    ((convert host plan out).run.run prepared : Except Fault Bool × State) = (.ok true, walked) ∧
    ((dictionaryDirectory host a out).run.run walked : Except Fault Path × State).1 = .ok directory
  spares : Spares t walked
  serialize : walked.registry.serialize = issued ++ rest
  first : issued ≠ []
  last : rest ≠ []
  issued : Dictionary.Issued host.directory directory walked.session s.session issued

section Broken

variable {host : Host} {a : Arguments} {plan : Plan} {out directory : Path} {t : FileTree}
  {logs : List Location} {s s' : State}

/-- A unit is written to a place of its own name, so a unit stands there. -/
private theorem isSome_ofPath?_of_leadsTo {target : Path} {l : Location}
    (h : t.LeadsTo target.names l) (hkind : (UnitKind.ofPath? target).isSome) :
    (UnitKind.ofPath? ⟨1, l⟩).isSome := by
  have hsuffix : target.suffix ≠ [] := by
    intro hnil
    rw [UnitKind.ofPath?, hnil] at hkind
    cases hkind
  cases hlast : target.names.getLast? with
  | none => exact absurd (by simp [Path.suffix, Path.name, hlast]) hsuffix
  | some n =>
    have hn : n ≠ ".." := by
      rintro rfl
      exact hsuffix (by simp [Path.suffix, Path.name, hlast, Text.ofString])
    have hsame : UnitKind.ofPath? ⟨1, l⟩ = UnitKind.ofPath? target :=
      UnitKind.ofPath?_congr ((h.getLast?_eq hlast hn).trans hlast.symm)
    rwa [hsame]

/-- What the walk keeps as long as no log file is rolled over: nothing is written but units and log
files. -/
private structure SparesOthers (t : FileTree) (logs : List Location) (u : Log.Session) : Prop where
  within : u.Within (fun l => l ∈ logs ∨ (UnitKind.ofPath? ⟨1, l⟩).isSome) t
  places : u.logPlaces = logs

private theorem SparesOthers.spares (h : SparesOthers t logs s.session) : Spares t s := by
  intro l hlog hkind
  refine h.within.tree.bytes? ?_
  rintro (hl | hl)
  · exact hlog (h.places ▸ hl)
  · rw [hkind] at hl
    cases hl

private theorem isKept_sparesOthers :
    IsKept host plan fun u => u.renewals = 0 → SparesOthers t logs u where
  log u r h hcalm := by
    have hchanges : Log.Session.Changes (fun _ => False) (fun _ => False) u (u.log host.time r) :=
      Log.Session.changes_log ..
    have hle := hchanges.renewals
    obtain ⟨hwithin, hplaces⟩ := h (by omega)
    exact ⟨hwithin.changes hchanges (by omega) (fun _ hl => hl.elim) fun _ hm => hm.elim,
      hchanges.places.trans hplaces⟩
  write _ target hkind text u h := by
    refine (Log.Session.after_write u target text).imp (fun _ u' h' hcalm => ?_)
      fun _ u' h' hcalm => ?_
    · obtain ⟨hr, l, hleads, hchanges, -⟩ := h'
      obtain ⟨hwithin, hplaces⟩ := h (hr.symm.trans hcalm)
      refine ⟨hwithin.changes hchanges hr.le (fun m hm => .inr ?_) fun _ hm => hm,
        hchanges.places.trans hplaces⟩
      exact hm ▸ isSome_ofPath?_of_leadsTo hleads hkind
    · obtain ⟨hr, hchanges⟩ := h'
      obtain ⟨hwithin, hplaces⟩ := h (hr.symm.trans hcalm)
      exact ⟨hwithin.changes hchanges hr.le (fun _ hl => hl.elim) fun _ hm => hm,
        hchanges.places.trans hplaces⟩

private theorem sparesOthers_of_isFresh (h : IsFresh t s) :
    SparesOthers t s.session.logPlaces s.session :=
  ⟨h.session.within fun _ hl => .inl hl, rfl⟩

/-- If not all dictionaries can be written, some first ones have been. -/
private theorem after_writeDictionaries_false :
    After (writeDictionaries host plan directory) s
      (fun ok s' => ok = false → ∃ issued rest, s.registry.serialize = issued ++ rest ∧
        (rest = [] → issued = []) ∧
        Dictionary.Issued host.directory directory s.session s'.session issued) fun _ _ => True := by
  rw [writeDictionaries, after_tryCatch]
  refine After.imp (q := fun ok _ => ok = true) (r := fun _ s' => ∃ issued rest,
      s.registry.serialize = issued ++ rest ∧ (rest = [] → issued = []) ∧
      Dictionary.Issued host.directory directory s.session s'.session issued)
    ?_ (fun ok s' hok hfalse => ?_) fun e s' h => ?_
  · rw [after_bind, after_get]
    dsimp only
    split
    · rw [after_bind, after_onSession]
      have hnone {u : Log.Session} (h : Log.Session.Changes (fun _ => False)
          (fun l => (".." : Text) ∉ l) s.session u) :
          ∃ issued rest, s.registry.serialize = issued ++ rest ∧ (rest = [] → issued = []) ∧
            Dictionary.Issued host.directory directory s.session u issued :=
        ⟨[], _, rfl, fun _ => rfl, .nil h⟩
      exact (Dictionary.after_ensureDirectories s.session directory).imp
        (fun _ _ h => hnone h) fun _ _ h => hnone h
    · rw [after_bind, after_onSession]
      exact (Dictionary.after_writeAll s.session s.registry).imp (fun _ _ _ => rfl) fun _ _ h => h
  · rw [hok] at hfalse
    cases hfalse
  · obtain ⟨issued, rest, hserialize, hrest, hissued⟩ := h
    split
    · split
      · rw [after_bind]
        refine after_log fun s'' hs _ => ⟨issued, rest, hserialize, hrest, hissued.trans ?_⟩
        exact hs.session.mono (fun _ hf => hf) fun _ hm => hm.elim
      · trivial
    · trivial

/-- Without any file that is written, what a state spares is still as it was. -/
private theorem SparesOthers.issued_nil {base : Path} (h : SparesOthers t logs s.session)
    (h' : Dictionary.Issued base directory s.session s'.session [])
    (hcalm : s'.session.renewals ≤ s.session.renewals) : SparesOthers t logs s'.session where
  within := h.within.changes h'.session hcalm (by simp) fun _ hm => hm
  places := h'.session.places.trans h.places

private theorem resolve_result (name : Text) :
    ((resolve host name).run.run s : Except Fault Path × State).1 =
      (s.session.tree.resolve (host.directory.append (.ofText name))).mapError .file := by
  have hrun : After (resolve host name) s
      (fun p _ => s.session.tree.resolve (host.directory.append (.ofText name)) = .ok p)
      fun e _ => ∃ f, e = .file f ∧
        s.session.tree.resolve (host.directory.append (.ofText name)) = .error f := by
    rw [resolve, after_bind, after_tree]
    split
    · assumption
    · exact ⟨_, rfl, by assumption⟩
  unfold After at hrun
  split at hrun
  · rename_i hm
    rw [hm, hrun]
    rfl
  · rename_i hm
    obtain ⟨f, rfl, hf⟩ := hrun
    rw [hm, hf]
    rfl

/-- The directory of the dictionaries does not depend on what has been printed. -/
private theorem dictionaryDirectory_output (output : Text) :
    ((dictionaryDirectory host a out).run.run { s with output } : Except Fault Path × State).1 =
      ((dictionaryDirectory host a out).run.run s : Except Fault Path × State).1 := by
  rw [dictionaryDirectory]
  split
  · rw [resolve_result, resolve_result]
  · rfl

private theorem after_complete_broken [Script.Parser] {prepared : State}
    (hfresh : prepared.session.renewals = 0 → IsFresh t prepared)
    (hprepare : ((prepare host a).run.run (.start t) : Except Fault (Option (Plan × Path)) × State) =
      (.ok (some (plan, out)), prepared)) :
    After (complete host a plan out) prepared
      (fun o s => s.session.renewals = 0 → o = .broken → Spares t s ∨
        ∃ walked directory issued rest, Stopped host a t walked s directory issued rest)
      fun _ _ => True := by
  rw [complete, after_bind]
  refine (after_self.and (keeps_convert isKept_sparesOthers out prepared
    fun hcalm => sparesOthers_of_isFresh (hfresh hcalm))).imp (fun ok walked h => ?_)
    fun _ _ _ => trivial
  obtain ⟨hconvert, hspares⟩ := h
  split
  · exact fun hcalm _ => .inl (hspares hcalm).spares
  · rename_i hok
    have hok : ok = true := by simpa using hok
    subst hok
    rw [after_bind, after_modify, after_bind]
    refine (after_self.and after_dictionaryDirectory).imp (fun directory s₁ h₁ => ?_)
      fun _ _ _ => trivial
    obtain ⟨hdirectory, rfl⟩ := h₁
    have hfinished {u : State} {stats : Stats} : After (do
        log host .info ("Done. " ++ stats.text)
        return Outcome.finished plan out directory stats) u
        (fun o s => s.session.renewals = 0 → o = .broken → Spares t s ∨
          ∃ walked directory issued rest, Stopped host a t walked s directory issued rest)
        fun _ _ => True := by
      rw [after_bind]
      exact after_log fun _ _ _ hbroken => by cases hbroken
    rw [after_bind, finishDictionaries]
    split
    · rw [after_bind]
      exact after_self.imp (fun _ _ _ => hfinished) fun _ _ _ => trivial
    · rename_i hdry
      refine after_writeDictionaries_false.imp (fun ok' s₂ h₂ => ?_) fun _ _ _ => trivial
      split
      · rename_i hok'
        intro hcalm _
        obtain ⟨issued, rest, hserialize, hrest, hissued⟩ := h₂ (by simpa using hok')
        have hwalked : walked.session.renewals = 0 :=
          Nat.le_zero.mp (hcalm ▸ hissued.session.renewals)
        have hspares := hspares hwalked
        by_cases hnil : issued = []
        · subst hnil
          exact .inl (hspares.issued_nil hissued (hcalm ▸ Nat.zero_le _)).spares
        · refine .inr ⟨walked, directory, issued, rest, ⟨plan, out, prepared, by simpa using hdry,
            hprepare, hconvert, ?_⟩, hspares.spares, hserialize, hnil, fun h => hnil (hrest h), hissued⟩
          rw [← dictionaryDirectory_output, hdirectory]
      · rw [after_bind, after_get]
        exact hfinished

end Broken

/-- A run whose code is 2 has written no dictionary, or it has stopped while it was writing them, if no
log file was rolled over. -/
theorem run_broken [Script.Parser] (host : Host) (a : Arguments) {t : FileTree} {s : State}
    (hrun : ((run host a).run.run (.start t) : Except Fault Nat × State) = (.ok 2, s))
    (hcalm : s.session.renewals = 0) :
    Spares t s ∨ ∃ walked directory issued rest,
      Stopped host a t walked s directory issued rest := by
  have hperform : After (perform host a) (.start t) (fun o s => s.session.renewals = 0 →
      o = .broken → Spares t s ∨ ∃ walked directory issued rest,
        Stopped host a t walked s directory issued rest) fun _ _ => True := by
    rw [perform, after_bind]
    refine (after_self.and (after_prepare_fresh host a t)).imp (fun x prepared h => ?_)
      fun _ _ _ => trivial
    obtain ⟨hprepare, hfresh, -⟩ := h
    split
    · exact after_complete_broken hfresh hprepare
    · exact fun hcalm _ => .inl (sparesOthers_of_isFresh (hfresh hcalm)).spares
  have hcode : After (run host a) (.start t) (fun code s => s.session.renewals = 0 → code = 2 →
      Spares t s ∨ ∃ walked directory issued rest,
        Stopped host a t walked s directory issued rest) fun _ _ => True := by
    rw [run, after_bind]
    refine hperform.imp (fun o s h hcalm hcode => h hcalm ?_) fun _ _ _ => trivial
    cases o with
    | broken => rfl
    | finished plan out directory stats =>
      simp only [Outcome.code] at hcode
      split at hcode <;> cases hcode
  exact hcode.of_ok hrun hcalm rfl

/-- A tree with a unit whose texts go to two dictionaries. A directory stands where the second one is
to be written. -/
def blockedTree : FileTree :=
  ⟨[(["common.json"], .file [123, 34, 229, 133, 172, 34, 58, 49, 125] 0o644),
    (["src"], .directory),
    (["src", "a.vue"], .file [60, 116, 101, 109, 112, 108, 97, 116, 101, 62, 228, 184, 173, 60, 98, 62,
      229, 133, 172, 60, 47, 98, 62, 60, 47, 116, 101, 109, 112, 108, 97, 116, 101, 62] 0o644),
    (["out"], .directory), (["out", "test.json"], .directory)]⟩

private def blockedPlan : Plan := .ofRoots ⟨1, ["src"]⟩ ⟨1, ["out"]⟩

private def blockedReady : State :=
  { State.start blockedTree with
    session := ⟨blockedTree, ⟨.info, [.console]⟩, "INFO: Loaded 1 common terms from common.json\n", 0⟩
    registry := .empty (.ofList ["公"] "common") }

private def blockedOutput : Text :=
  "<template>\x7b\x7b $t('test.中') \x7d\x7d<b>\x7b\x7b $t('common.公') \x7d\x7d</b></template>"

private def blockedWalked : State :=
  { blockedReady with
    session := { blockedReady.session with
      tree := blockedTree.set ["out", "a.vue"] (.file ((Utf8.encode blockedOutput).getD []) 0o600)
      console := blockedReady.session.console ++
        ("INFO: Converted /src/a.vue => /out/a.vue\n" : Text) }
    registry := ⟨.ofList ["公"] "common", [("test", ["中"]), ("common", ["公"])], by decide, by decide⟩
    stats := ⟨1, 1, 0, 0, 2⟩ }

private theorem prepare_blocked :
    ((prepare .silent (rootsOnly "src" "out")).run.run (.start blockedTree) :
      Except Fault (Option (Plan × Path)) × State) =
        (.ok (some (blockedPlan, ⟨1, ["out"]⟩)), blockedReady) := by
  cbv

set_option maxRecDepth 4096 in
private theorem after_walk_blocked :
    After (walk .silent blockedPlan FileTree.maxPath ⟨1, ["src"]⟩ ⟨1, ["out"]⟩) blockedReady
      (fun _ s => s = blockedWalked) fun _ _ => False := by
  have hnames : blockedReady.session.tree.readNames ⟨1, ["src"]⟩ = .ok ["a.vue"] := by cbv
  obtain ⟨bytes, mode, hfind⟩ : ∃ bytes mode,
      blockedReady.session.tree.find false ⟨1, ["src", "a.vue"]⟩ =
        .ok (["src", "a.vue"], some (.file bytes mode)) := ⟨_, _, by cbv⟩
  have htext : blockedReady.session.tree.readText ⟨1, ["src", "a.vue"]⟩ =
      .ok "<template>中<b>公</b></template>" := by
    cbv
  refine after_walk_of_unit hnames (by cbv) hfind (by cbv) (after_visitUnit_of_read (by cbv) htext ?_)
  unfold After
  cbv

private theorem run_blocked :
    ((run .silent (rootsOnly "src" "out")).run.run (.start blockedTree) :
      Except Fault Nat × State).1 = .ok 2 ∧
    (((run .silent (rootsOnly "src" "out")).run.run (.start blockedTree) :
      Except Fault Nat × State).2.session.tree.bytes? ["out", "common.json"],
     ((run .silent (rootsOnly "src" "out")).run.run (.start blockedTree) :
      Except Fault Nat × State).2.session.logPlaces,
     ((run .silent (rootsOnly "src" "out")).run.run (.start blockedTree) :
      Except Fault Nat × State).2.session.renewals) =
      (Utf8.encode (Dictionary.document "common" [("公", "公")]), [], 0) := by
  refine After.result (p := fun s : State => (s.session.tree.bytes? ["out", "common.json"],
    s.session.logPlaces, s.session.renewals) =
      (Utf8.encode (Dictionary.document "common" [("公", "公")]), [], 0)) ?_
  rw [run, after_bind, perform, after_bind, After, prepare_blocked]
  dsimp only
  refine after_complete_of_walk after_walk_blocked ?_
  unfold After
  cbv

theorem run_broken_blocked :
    ((run .silent (rootsOnly "src" "out")).run.run (.start blockedTree) :
      Except Fault Nat × State).1 = .ok 2 ∧
    ∃ walked directory issued rest, Stopped .silent (rootsOnly "src" "out") blockedTree walked
      ((run .silent (rootsOnly "src" "out")).run.run (.start blockedTree) :
        Except Fault Nat × State).2 directory issued rest := by
  obtain ⟨hcode, hstate⟩ := run_blocked
  obtain ⟨hbytes, hstate⟩ := Prod.mk.inj hstate
  obtain ⟨hlog, hcalm⟩ := Prod.mk.inj hstate
  refine ⟨hcode, (run_broken .silent (rootsOnly "src" "out") (Prod.ext hcode rfl) hcalm).resolve_left
    fun hspares => ?_⟩
  have hsame := hspares ["out", "common.json"] (by rw [hlog]; exact List.not_mem_nil) (by cbv)
  have hsome : (Utf8.encode (Dictionary.document "common" [("公", "公")])).isSome = true := by cbv
  rw [← hbytes, hsame] at hsome
  cases hsome

/-- The run returns 2, but it has made a dictionary. -/
theorem run_blocked_writes :
    ((run .silent (rootsOnly "src" "out")).run.run (.start blockedTree) :
      Except Fault Nat × State).1 = .ok 2 ∧
    blockedTree.bytes? ["out", "common.json"] = none ∧
    ((run .silent (rootsOnly "src" "out")).run.run (.start blockedTree) :
      Except Fault Nat × State).2.session.tree.bytes? ["out", "common.json"] =
        Utf8.encode (Dictionary.document "common" [("公", "公")]) := by
  obtain ⟨hcode, hstate⟩ := run_blocked
  exact ⟨hcode, rfl, (Prod.mk.inj hstate).1⟩

end LocaleLift.Run
