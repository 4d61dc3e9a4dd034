import LocaleLift.Proofs.Run.Complete
import LocaleLift.Proofs.Run.Step
import Mathlib

/-! The output of a run is the mirror of its sources. -/
namespace LocaleLift.Run

def Plan.fateIn [Script.Parser] (plan : Plan) (common : CommonTerms) (t : FileTree)
    (rel : List Text) : Fate :=
  plan.fate common (plan.base.below rel) ((t.bytes? (plan.base.names ++ rel)).getD [])

/-- A state mirrors the sources of a tree. -/
structure Mirrors [Script.Parser] (host : Host) (plan : Plan) (out directory : Path)
    (logs : List Location)
    (t : FileTree) (s : State) : Prop where
  /-- What is made of a unit stands at the same place below the root of the output. -/
  units : ∀ rel, plan.IsUnit t rel →
    ∀ new, (plan.fateIn s.registry.common t rel).output? = some new →
      ∃ bytes, Utf8.encode new = some bytes ∧
        s.session.tree.bytes? (out.names ++ rel) = some bytes
  /-- The texts of the units that succeeded are filed, and no others. -/
  entries : ∀ p, p ∈ s.registry.toList ↔
    ∃ rel, plan.IsUnit t rel ∧ p ∈ (plan.fateIn s.registry.common t rel).entries
  /-- Each namespace has its dictionary. -/
  documents : ∀ p ∈ Dictionary.documents s.registry, ∃ l bytes,
    t.LeadsTo (Dictionary.names host.directory directory p.1) l ∧
      Utf8.encode p.2 = some bytes ∧ s.session.tree.bytes? l = some bytes
  /-- No other file is touched, log files apart. -/
  others : ∀ l, l ∉ logs →
    (∀ rel, plan.IsUnit t rel → (plan.fateIn s.registry.common t rel).output?.isSome →
      l ≠ out.names ++ rel) →
    (∀ p ∈ Dictionary.documents s.registry,
      ¬ t.LeadsTo (Dictionary.names host.directory directory p.1) l) →
    s.session.tree.bytes? l = t.bytes? l
  /-- A failure is counted exactly if a unit failed. -/
  failed : 0 < s.stats.failed ↔
    ∃ rel, plan.IsUnit t rel ∧ (plan.fateIn s.registry.common t rel).isFailure

/-- Where the walk writes: to the mirror of the units, and to log files. -/
def Plan.MirrorsTo [Script.Parser] (plan : Plan) (out : Path) (terms : CommonTerms) (t : FileTree)
    (logs : List Location) (l : Location) : Prop :=
  (".." : Text) ∉ l ∧ ((∃ rel, plan.IsUnit t rel ∧ (plan.fateIn terms t rel).output?.isSome ∧
    l = out.names ++ rel) ∨ l ∈ logs)

/-- The invariant of the walk: it wrote to the mirror only, and all that it filed and counted comes
from units. -/
structure Reflects [Script.Parser] (plan : Plan) (out : Path) (terms : CommonTerms) (t : FileTree)
    (logs : List Location) (s : State) : Prop where
  within : s.session.Within (plan.MirrorsTo out terms t logs) t
  common : s.registry.common = terms
  entries : ∀ p ∈ s.registry.toList,
    ∃ rel, plan.IsUnit t rel ∧ p ∈ (plan.fateIn terms t rel).entries
  failed : 0 < s.stats.failed → ∃ rel, plan.IsUnit t rel ∧ (plan.fateIn terms t rel).isFailure

/-- What a unit has done once it has been visited. -/
structure Reflected [Script.Parser] (plan : Plan) (out : Path) (terms : CommonTerms) (t : FileTree)
    (rel : List Text) (s : State) : Prop where
  holds : ∀ new, (plan.fateIn terms t rel).output? = some new →
    s.session.Holds (out.names ++ rel) new
  entries : ∀ p ∈ (plan.fateIn terms t rel).entries, p ∈ s.registry.toList
  failed : (plan.fateIn terms t rel).isFailure → 0 < s.stats.failed

section Mirror

variable {host : Host} {plan : Plan} {out : Path} {t : FileTree} {terms : CommonTerms}
  {logs : List Location} {s₀ s s' : State} {rel : List Text}

/-- If the roots are apart, a file that is no log file has the bytes it had when a walk comes upon
it. -/
private theorem bytes?_source [Script.Parser] (hs : Reflects plan out terms t logs s)
    (hapart : ¬ plan.base.names <+: out.names ∧ ¬ out.names <+: plan.base.names)
    (hlog : plan.base.names ++ rel ∉ logs) :
    s.session.tree.bytes? (plan.base.names ++ rel) = t.bytes? (plan.base.names ++ rel) := by
  refine hs.within.tree.bytes? ?_
  rintro ⟨-, ⟨rel', -, -, hplace⟩ | hplace⟩
  · have hbase : plan.base.names <+: out.names ++ rel' := ⟨rel, hplace⟩
    exact (List.prefix_or_prefix_of_prefix hbase (List.prefix_append _ _)).elim hapart.1 hapart.2
  · exact hlog hplace

private theorem advances_quiet [Script.Parser] (hs : Reflects plan out terms t logs s)
    (h : Quiet s s')
    (hcalm : s'.session.renewals ≤ s.session.renewals) :
    Advances (Reflects plan out terms t logs) (Reflected plan out terms t) s s' where
  inv := {
    within := hs.within.changes h.session hcalm (fun _ hl => hl.elim) fun _ hl => hl.elim
    common := by rw [h.registry, hs.common]
    entries := by rw [h.registry]; exact hs.entries
    failed := by rw [h.failed]; exact hs.failed }
  renewals := h.session.renewals
  directory := (h.session.tree hcalm).directory
  done rel hrel := {
    holds := fun new hnew => (hrel.holds new hnew).changes h.session hcalm id
    entries := by rw [h.registry]; exact hrel.entries
    failed := by rw [h.failed]; exact hrel.failed }

/-- A visit of a unit keeps to the mirror, and the unit has then done what it does. -/
private theorem advances_visited [Script.Parser] (hs : Reflects plan out terms t logs s)
    (hdry : plan.dryRun = false) (hunit : plan.IsUnit t rel)
    (hplace : ∀ l, s.session.tree.LeadsTo (out.names ++ rel) l → l = out.names ++ rel)
    (h : Visited plan (out.below rel) (plan.fateIn terms t rel) s s')
    (hcalm : s'.session.renewals ≤ s.session.renewals) :
    Advances (Reflects plan out terms t logs) (Reflected plan out terms t) s s' ∧
      Reflected plan out terms t rel s' := by
  have hreflected : Reflected plan out terms t rel s' := {
    holds := fun new hnew => by
      obtain ⟨l, hleads, hholds⟩ := h.written hcalm hdry new hnew
      rwa [hplace l hleads] at hholds
    entries := fun p hp => (h.met.registry p).mpr (.inr hp)
    failed := fun hfailure => by
      rw [h.met.failed, if_pos hfailure]
      exact Nat.succ_pos _ }
  refine ⟨⟨⟨?_, h.met.common.trans hs.common, fun p hp => ?_, fun hpos => ?_⟩,
    h.session.renewals, (h.session.tree hcalm).directory, fun rel' hrel' => ?_⟩, hreflected⟩
  · refine hs.within.changes h.session hcalm (fun l hl => ?_) fun _ hl => hl
    obtain ⟨-, houtput, hleads⟩ := hl
    exact ⟨hleads.not_mem_steps, .inl ⟨rel, hunit, houtput, hplace l hleads⟩⟩
  · exact ((h.met.registry p).mp hp).elim (hs.entries p) fun hp => ⟨rel, hunit, hp⟩
  · by_cases hfailure : (plan.fateIn terms t rel).isFailure
    · exact ⟨rel, hunit, hfailure⟩
    · rw [h.met.failed, if_neg hfailure] at hpos
      exact hs.failed hpos
  · by_cases heq : rel' = rel
    · rw [heq]
      exact hreflected
    · refine ⟨fun new hnew => (hrel'.holds new hnew).changes h.session hcalm fun hl => ?_,
        fun p hp => ?_, fun hfailure => ?_⟩
      · exact heq (List.append_cancel_left (hplace _ hl.2.2))
      · exact (h.met.registry p).mpr (.inl (hrel'.entries p hp))
      · rw [h.met.failed]
        exact Nat.lt_of_lt_of_le (hrel'.failed hfailure) (Nat.le_add_right _ _)

private theorem follows_mirror [Script.Parser] (host : Host) (ht : t.IsValid)
    (hdry : plan.dryRun = false)
    (hout : (".." : Text) ∉ out.names)
    (hapart : ¬ plan.base.names <+: out.names ∧ ¬ out.names <+: plan.base.names)
    (hlog : ∀ rel, plan.Admits rel → (UnitKind.ofPath? (plan.base.below rel)).isSome →
      plan.base.names ++ rel ∉ logs)
    (hclear : ∀ rel, plan.IsUnit t rel → t.Clear [] (out.names ++ rel)) :
    Follows host plan out t (plan.MirrorsTo out terms t logs) (Reflects plan out terms t logs)
      (Reflected plan out terms t) fun _ => True where
  changes s hs := hs.within.tree
  quiet s s' hs h hcalm := advances_quiet hs h hcalm
  stopped _ _ := trivial
  visit s rel bytes hs hadmits hkind hfile hread := by
    have hbytes : t.bytes? (plan.base.names ++ rel) = some bytes := by
      rw [← bytes?_source hs hapart (hlog rel hadmits hkind), hfile]
    have hunit : plan.IsUnit t rel := ⟨hadmits, hkind, by rw [hbytes]; rfl⟩
    have hfate : plan.fate s.registry.common (plan.base.below rel) bytes =
        plan.fateIn terms t rel := by
      rw [hs.common, Plan.fateIn, hbytes, Option.getD_some]
    refine (after_visitUnit hread).imp (fun _ s' h hcalm => ?_) fun _ _ _ _ => trivial
    rw [hfate] at h
    refine advances_visited hs hdry hunit (fun l hleads => ?_) h hcalm
    have hsteps := hunit.not_mem_steps ht
    refine (hleads.of_changes hs.within.tree).eq_names (hclear rel hunit) ?_
    simp only [List.mem_append, not_or] at hsteps ⊢
    exact ⟨hout, hsteps.2⟩

/-- The place of a unit is named like a unit, so that no dictionary comes there. -/
private theorem ofPath?_place (hready : IsReady t plan out s₀) {rel : List Text}
    (hunit : plan.IsUnit t rel) : UnitKind.ofPath? ⟨1, out.names ++ rel⟩ ≠ none := by
  have hnil := hready.ne_nil hunit
  have hsame : UnitKind.ofPath? ⟨1, out.names ++ rel⟩ =
      UnitKind.ofPath? (plan.base.below rel) := by
    apply UnitKind.ofPath?_congr
    rw [Path.below_names, List.getLast?_append_of_ne_nil _ hnil,
      List.getLast?_append_of_ne_nil _ hnil]
  rw [hsame]
  exact Option.isSome_iff_ne_none.mp hunit.kind

/-- What the walk has come to is still there when the dictionaries have been written. -/
private theorem mirrors_of_ends [Script.Parser] {directory : Path} {walked : State}
    (hready : IsReady t plan out s₀)
    (hinv : Reflects plan out terms t logs walked)
    (hdone : ∀ rel, plan.IsUnit t rel → Reflected plan out terms t rel walked)
    (hends : Ends host directory walked s) (hstands : Stands host directory walked s)
    (hcalm : s.session.renewals ≤ walked.session.renewals)
    (hdistinct : ∀ p ∈ Dictionary.documents s.registry, ∀ q ∈ Dictionary.documents s.registry,
      p.1 ≠ q.1 → ∀ l, t.LeadsTo (Dictionary.names host.directory directory p.1) l →
        ¬ t.LeadsTo (Dictionary.names host.directory directory q.1) l) :
    Mirrors host plan out directory logs t s := by
  have hcommon : s.registry.common = terms := by rw [hends.registry, hinv.common]
  have hmem {p : Text × List Text} (hp : p ∈ walked.registry.serialize) :
      (p.1, Dictionary.document p.1 (Dictionary.table p.2)) ∈
        Dictionary.documents s.registry := by
    rw [hends.registry]
    exact List.mem_map_of_mem hp
  have hleadsTo {p : Text × List Text} {l : Location}
      (hleads : walked.session.tree.LeadsTo (Dictionary.names host.directory directory p.1) l) :=
    hleads.of_changes hinv.within.tree
  constructor
  · intro rel hunit new hnew
    rw [hcommon] at hnew
    obtain ⟨-, hholds⟩ := ((hdone rel hunit).holds new hnew).changes hends.session hcalm
        fun hfile => by
      obtain ⟨p, -, hleads⟩ := hfile
      exact ofPath?_place hready hunit (Dictionary.ofPath?_of_leadsTo hleads)
    exact hholds
  · intro p
    rw [hcommon, hends.registry]
    exact ⟨hinv.entries p, fun ⟨rel, hunit, hp⟩ => (hdone rel hunit).entries p hp⟩
  · intro p hp
    rw [hends.registry] at hp
    obtain ⟨q, hq, rfl⟩ := List.mem_map.mp hp
    have hholds := hstands hcalm (fun p hp q hq hne l hlp hlq =>
      hdistinct _ (hmem hp) _ (hmem hq) hne l (hleadsTo hlp) (hleadsTo hlq)) q hq
    obtain ⟨l, hleads, -, bytes, hholds⟩ := hholds
    exact ⟨l, bytes, hleadsTo hleads, hholds⟩
  · intro l hlog hunits hdocuments
    rw [hcommon] at hunits
    have hmirror : ¬ plan.MirrorsTo out terms t logs l := by
      rintro ⟨-, ⟨rel, hunit, houtput, rfl⟩ | hl⟩
      · exact hunits rel hunit houtput rfl
      · exact hlog hl
    rw [(hends.session.tree hcalm).bytes?, hinv.within.tree.bytes? hmirror]
    rintro (⟨p, hp, hleads⟩ | hl)
    · exact hdocuments _ (hmem hp) (hleadsTo hleads)
    · exact hmirror (hinv.within.open_ l hl)
  · rw [hcommon, hends.failed]
    exact ⟨hinv.failed, fun ⟨rel, hunit, hfailure⟩ => (hdone rel hunit).failed hfailure⟩

end Mirror

/-- A run that finishes mirrors its sources, if the roots are apart, no log file is a unit or is
rolled over, no links stand on the way to the mirror, and no two namespaces share a dictionary. -/
theorem run_mirrors [Script.Parser] (host : Host) (a : Arguments) {t : FileTree} {plan : Plan}
    {out directory : Path} {stats : Stats} {prepared s : State} (ht : t.IsValid)
    (hdry : a.dryRun = false)
    (hprepare : ((prepare host a).run.run (.start t) : Except Fault (Option (Plan × Path)) × State) =
      (.ok (some (plan, out)), prepared))
    (hrun : ((perform host a).run.run (.start t) : Except Fault Outcome × State) =
      (.ok (.finished plan out directory stats), s))
    (hapart : ¬ plan.base.names <+: out.names ∧ ¬ out.names <+: plan.base.names)
    (hlog : ∀ rel, plan.Admits rel → (UnitKind.ofPath? (plan.base.below rel)).isSome →
      plan.base.names ++ rel ∉ prepared.session.logPlaces)
    (hcalm : s.session.renewals = 0)
    (hclear : ∀ rel, plan.IsUnit t rel → t.Clear [] (out.names ++ rel))
    (hdistinct : ∀ p ∈ Dictionary.documents s.registry, ∀ q ∈ Dictionary.documents s.registry,
      p.1 ≠ q.1 → ∀ l, t.LeadsTo (Dictionary.names host.directory directory p.1) l →
        ¬ t.LeadsTo (Dictionary.names host.directory directory q.1) l) :
    ((run host a).run.run (.start t) : Except Fault Nat × State) =
        (.ok (if 0 < stats.failed then 1 else 0), s) ∧
      stats.failed = s.stats.failed ∧
      Mirrors host plan out directory prepared.session.logPlaces t s := by
  obtain ⟨hplan, hready⟩ := (after_prepare host a t).of_ok hprepare plan out rfl
  have hdry : plan.dryRun = false := hplan.trans hdry
  have hprepared : prepared.session.renewals = 0 := by
    have hkeeps : After (perform host a) (.start t)
        (fun _ s => prepared.session.renewals ≤ s.session.renewals) fun _ _ => True := by
      rw [perform, after_bind, After, hprepare]
      exact (keeps_complete_renewals _ out prepared (Nat.le_refl _)).imp (fun _ _ h => h)
        fun _ _ _ => trivial
    exact Nat.le_zero.mp (hcalm ▸ hkeeps.of_ok hrun)
  have hready := hready hprepared
  have hstart : Reflects plan out prepared.registry.common t prepared.session.logPlaces prepared := {
    within := hready.fresh.session.within fun l hl =>
      ⟨(hready.fresh.session.places l hl).1, .inr hl⟩
    common := rfl
    entries := by simp [hready.fresh.registry]
    failed := by simp [hready.fresh.failed] }
  have hperform : After (perform host a) (.start t) (fun o s =>
      s.session.renewals ≤ prepared.session.renewals → ∃ walked directory,
        True ∧ Ends host directory walked s ∧ s.session.renewals ≤ walked.session.renewals ∧
          ∀ plan' out' directory' stats, o = .finished plan' out' directory' stats →
            directory' = directory ∧ stats.failed = s.stats.failed ∧
            (Reflects plan out prepared.registry.common t prepared.session.logPlaces walked ∧
              ∀ rel, plan.IsUnit t rel → Reflected plan out prepared.registry.common t rel walked) ∧
            (plan.dryRun = false → Stands host directory walked s)) fun _ _ => True := by
    rw [perform, after_bind, After, hprepare]
    exact (after_complete (follows_mirror host ht hdry hready.target.steps hapart hlog hclear) ht
      (fun _ hl => hl.1) (fun _ _ _ _ _ => trivial) hready hstart).imp (fun _ _ h => h)
      fun _ _ _ => trivial
  obtain ⟨walked, _, -, hends, hcalm, hfinished⟩ := hperform.of_ok hrun (hcalm ▸ Nat.zero_le _)
  obtain ⟨rfl, hstats, ⟨hinv, hdone⟩, hstands⟩ := hfinished _ _ _ _ rfl
  refine ⟨?_, hstats, mirrors_of_ends hready hinv hdone hends (hstands hdry) hcalm hdistinct⟩
  rw [run, ExceptT.run_bind, StateT.run_bind, hrun]
  rfl

/-- A tree with a unit and a file that cannot be decoded. -/
def twoFiles : FileTree :=
  ⟨[(["src"], .directory),
    (["src", "a.vue"], .file [60, 116, 101, 109, 112, 108, 97, 116, 101, 62, 228, 184, 173, 60, 47, 116,
      101, 109, 112, 108, 97, 116, 101, 62] 0o644),
    (["src", "b.vue"], .file [255] 0o644)]⟩

private def twoPlan : Plan := .ofRoots ⟨1, ["src"]⟩ ⟨1, ["out"]⟩

private def twoReady : State :=
  { State.start twoFiles with
    session := ⟨twoFiles, ⟨.info, [.console]⟩,
      "WARNING: Common terms file not found: common.json\n", 0⟩
    registry := .empty (.ofList [] "common") }

private theorem prepare_twoFiles :
    ((prepare .silent (rootsOnly "src" "out")).run.run (.start twoFiles) :
      Except Fault (Option (Plan × Path)) × State) = (.ok (some (twoPlan, ⟨1, ["out"]⟩)), twoReady) := by
  cbv

private def twoVisited : State :=
  { twoReady with
    session := { twoReady.session with
      tree := (twoFiles.set ["out"] .directory).set ["out", "a.vue"]
        (.file ((Utf8.encode "<template>\x7b\x7b $t('test.中') \x7d\x7d</template>").getD []) 0o600)
      console := twoReady.session.console ++
        ("INFO: Converted /src/a.vue => /out/a.vue\n" : Text) }
    registry := ⟨.ofList [] "common", [("test", ["中"])], by decide, by decide⟩
    stats := ⟨1, 1, 0, 0, 1⟩ }

private def twoWalked : State :=
  { twoVisited with
    session := { twoVisited.session with
      console := twoVisited.session.console ++ ("ERROR: Failed to read /src/b.vue: \n" : Text) }
    stats := ⟨2, 1, 1, 0, 1⟩ }

set_option maxRecDepth 4096 in
private theorem after_enter_twoFiles (descend : Path → Path → StepM Unit) :
    After (enter .silent twoPlan descend ⟨1, ["src", "a.vue"]⟩ ⟨1, ["out", "a.vue"]⟩) twoReady
      (fun _ s => s = twoVisited) fun _ _ => False := by
  have hfind : ∃ bytes, twoReady.session.tree.find false ⟨1, ["src", "a.vue"]⟩ =
      .ok (["src", "a.vue"], some (.file bytes 0o644)) := ⟨_, by cbv⟩
  have htext : twoReady.session.tree.readText ⟨1, ["src", "a.vue"]⟩ =
      .ok "<template>中</template>" := by cbv
  obtain ⟨bytes, hfind⟩ := hfind
  refine after_enter_of_unit (by cbv) hfind (by cbv) (after_visitUnit_of_read (by cbv) htext ?_)
  unfold After
  cbv

private theorem perform_twoFiles :
    ((perform .silent (rootsOnly "src" "out")).run.run (.start twoFiles) :
        Except Fault Outcome × State).1 =
      .ok (.finished twoPlan ⟨1, ["out"]⟩ ⟨1, ["out"]⟩ ⟨2, 1, 1, 0, 1⟩) ∧
    (Dictionary.documents ((perform .silent (rootsOnly "src" "out")).run.run (.start twoFiles) :
        Except Fault Outcome × State).2.registry,
      ((perform .silent (rootsOnly "src" "out")).run.run (.start twoFiles) :
        Except Fault Outcome × State).2.session.renewals) =
      ([(Text.ofString "test", Dictionary.document "test" [("中", "中")])], 0) := by
  refine After.result (p := fun s : State => (Dictionary.documents s.registry, s.session.renewals) =
    ([(Text.ofString "test", Dictionary.document "test" [("中", "中")])], 0)) ?_
  have hwalk : After (walk .silent twoPlan FileTree.maxPath ⟨1, ["src"]⟩ ⟨1, ["out"]⟩) twoReady
      (fun _ s => s = twoWalked) fun _ _ => False := by
    have hnames : twoReady.session.tree.readNames ⟨1, ["src"]⟩ = .ok ["a.vue", "b.vue"] := by cbv
    have hsorted : Text.sort ["a.vue", "b.vue"] = (["a.vue", "b.vue"] : List Text) := by cbv
    refine after_walk_of_names hnames hsorted ?_
    rw [after_forM_cons]
    refine (after_enter_twoFiles _).imp (fun _ s hs => ?_) fun _ _ h => h
    subst hs
    unfold After
    cbv
  rw [perform, after_bind, After, prepare_twoFiles]
  dsimp only
  refine after_complete_of_walk hwalk ?_
  unfold After
  cbv

theorem run_mirrors_two :
    ((run .silent (rootsOnly "src" "out")).run.run (.start twoFiles) :
        Except Fault Nat × State).1 = .ok 1 ∧
    Dictionary.documents ((perform .silent (rootsOnly "src" "out")).run.run (.start twoFiles) :
        Except Fault Outcome × State).2.registry =
      [(Text.ofString "test", Dictionary.document "test" [("中", "中")])] ∧
    Mirrors .silent (Plan.ofRoots ⟨1, ["src"]⟩ ⟨1, ["out"]⟩) ⟨1, ["out"]⟩ ⟨1, ["out"]⟩ [] twoFiles
      ((perform .silent (rootsOnly "src" "out")).run.run (.start twoFiles) :
        Except Fault Outcome × State).2 := by
  have hvalid : twoFiles.IsValid := FileTree.isValid_of_entries (by decide)
  have hlink := FileTree.ne_link_of_entries (t := twoFiles) (by simp [twoFiles])
  obtain ⟨hperform, hstate⟩ := perform_twoFiles
  obtain ⟨hdocuments, hcalm⟩ := Prod.mk.inj hstate
  obtain ⟨hcode, -, hmirrors⟩ := run_mirrors .silent (rootsOnly "src" "out") hvalid rfl
    prepare_twoFiles (Prod.ext hperform rfl) ⟨by decide, by decide⟩ (fun _ _ _ => List.not_mem_nil)
    hcalm (fun _ _ _ _ _ => hlink _) (by simp [hdocuments])
  exact ⟨congrArg Prod.fst hcode, hdocuments, hmirrors⟩

/-- A unit whose output is not found in its place although the run ends well. -/
structure Strays [Script.Parser] (a : Arguments) (plan : Plan) (out : Path) (t : FileTree)
    (rel : List Text) (new : Text) : Prop where
  valid : t.IsValid
  prepared : ((prepare .silent a).run.run (.start t) :
    Except Fault (Option (Plan × Path)) × State).1 = .ok (some (plan, out))
  unit : plan.IsUnit t rel
  output : (plan.fateIn (.ofList [] "common") t rel).output? = some new
  code : ((run .silent a).run.run (.start t) : Except Fault Nat × State).1 = .ok 0
  place : ((run .silent a).run.run (.start t) : Except Fault Nat × State).2.session.tree.readBytes
    ⟨1, out.names ++ rel⟩ ≠ .ok ((Utf8.encode new).getD [])

/-- A tree whose output root has a link where the sources have a directory. -/
def linkedOutput : FileTree :=
  ⟨[(["src"], .directory), (["src", "b"], .directory), (["src", "b", "x.vue"], .file [98] 0o644),
    (["src", "c"], .directory), (["src", "c", "x.vue"], .file [99] 0o644),
    (["out"], .directory), (["out", "b"], .link "c"), (["out", "c"], .directory)]⟩

/-- Two units meet at one place if a link in the output leads there. -/
private theorem strays_linkedOutput :
    Strays (rootsOnly "src" "out") (.ofRoots ⟨1, ["src"]⟩ ⟨1, ["out"]⟩) ⟨1, ["out"]⟩ linkedOutput
      ["b", "x.vue"] "b" := by
  have hrun : After (run .silent (rootsOnly "src" "out")) (.start linkedOutput)
      (fun code s => code = 0 ∧
        s.session.tree.readBytes ⟨1, ["out", "b", "x.vue"]⟩ = .ok [99]) fun _ _ => False := by
    unfold After
    cbv
  obtain ⟨hcode, hread⟩ := hrun.result
  have hadmits : (Plan.ofRoots ⟨1, ["src"]⟩ ⟨1, ["out"]⟩).Admits ["b"] :=
    (Plan.admits_nil _).concat (by cbv)
  refine ⟨FileTree.isValid_of_entries (by decide), by cbv, ⟨hadmits.concat (by cbv), by cbv, rfl⟩,
    by cbv, hcode, fun hplace => ?_⟩
  exact absurd (hread.symm.trans hplace) (by decide)

private theorem after_loadConfig_default {host : Host} {a : Arguments} {c : Config} {s : State}
    (hload : Config.load s.session.tree host.directory
      ((a.config.filter fun f => !f.isEmpty).map Path.ofText) = ([], .ok .default))
    (hoverride : Config.default.override (overrides a) = .ok c) :
    After (loadConfig host a) s (fun c' s' => c' = c ∧ s' = s) fun _ _ => False := by
  rw [loadConfig, after_bind, after_tree]
  dsimp only
  rw [hload, after_bind]
  dsimp only
  rw [logAll, after_modify, pure_bind, hoverride]
  exact ⟨rfl, rfl⟩

/-- A run over a directory with a single unit, once it is known what the visit does. -/
private theorem after_run_of_unit [Script.Parser] {host : Host} {a : Arguments} {plan : Plan}
    {out : Path} {name : Text} {l : Location} {bytes : List UInt8} {mode : Nat}
    {s ready visited : State} {q : Nat → State → Prop} {r : Fault → State → Prop}
    (hprepare : After (prepare host a) s (fun x s' => x = some (plan, out) ∧ s' = ready)
      fun _ _ => False)
    (hnames : ready.session.tree.readNames plan.base = .ok [name])
    (hignored : isIgnored plan.base (plan.base.child name) plan.ignore = .ok false)
    (hfind : ready.session.tree.find false (plan.base.child name) = .ok (l, some (.file bytes mode)))
    (hkind : (UnitKind.ofPath? (plan.base.child name)).isSome = true)
    (hvisit : After (visitUnit host plan (plan.base.child name) (out.child name)) ready
      (fun _ s' => s' = visited) fun _ _ => False)
    (h : After (do
        modify fun s => { s with output := if a.diff then Text.join "\n" s.diffs else s.output }
        let directory ← dictionaryDirectory host a out
        if !(← finishDictionaries host plan directory) then return Outcome.broken
        let stats := (← get).stats
        log host .info ("Done. " ++ stats.text)
        return .finished plan out directory stats) visited (fun o s => q o.code s) r) :
    After (run host a) s q r := by
  rw [run, after_bind, perform, after_bind]
  refine hprepare.imp (fun x s hx => ?_) fun _ _ => False.elim
  obtain ⟨rfl, rfl⟩ := hx
  exact after_complete_of_walk (after_walk_of_unit hnames hignored hfind hkind hvisit) h

private theorem Strays.of_after [Script.Parser] {a : Arguments} {plan : Plan} {out : Path}
    {t : FileTree} {rel : List Text} {new : Text} {ready : State}
    {read : Except FileError (List UInt8)} (hvalid : t.IsValid)
    (hprepare : After (prepare .silent a) (.start t)
      (fun x s => x = some (plan, out) ∧ s = ready) fun _ _ => False)
    (hunit : plan.IsUnit t rel)
    (houtput : (plan.fateIn (.ofList [] "common") t rel).output? = some new)
    (hrun : After (run .silent a) (.start t) (fun code s => code = 0 ∧
      s.session.tree.readBytes ⟨1, out.names ++ rel⟩ = read) fun _ _ => False)
    (hread : read ≠ .ok ((Utf8.encode new).getD [])) : Strays a plan out t rel new := by
  have hprepared : After (prepare .silent a) (.start t)
      (fun x _ => x = some (plan, out) ∧ True) fun _ _ => False :=
    hprepare.imp (fun _ _ h => ⟨h.1, trivial⟩) fun _ _ h => h
  obtain ⟨hcode, hplace⟩ := hrun.result
  exact ⟨hvalid, hprepared.result.1, hunit, houtput, hcode, fun h => hread (hplace.symm.trans h)⟩

private def convertedRecord (source target : Text) : Log.Record :=
  ⟨.command, .info, "Converted " ++ source ++ " => " ++ target⟩

/-- A tree with one unit, which ends a line. -/
def oneLine : FileTree :=
  ⟨[(["src"], .directory), (["src", "a.vue"], .file [97, 10] 0o644)]⟩

private def linedArguments : Arguments := { rootsOnly "src" "out" with logFile := some "src/a.vue" }

private def linedPlan : Plan := .ofRoots ⟨1, ["src"]⟩ ⟨1, ["out"]⟩

private def termsRecord : Log.Record :=
  ⟨.dictionary, .warning, "Common terms file not found: common.json"⟩

private def linedText : Text :=
  "a\n" ++ termsRecord.fileLine []

private def linedReady : State :=
  { State.start oneLine with
    session := ⟨oneLine.set ["src", "a.vue"] (.file ((Utf8.encode linedText).getD []) 0o644),
      ⟨.info, [.console, .file ⟨⟨1, ["src", "a.vue"]⟩, ["src", "a.vue"], .standard,
        some (.visible ["src", "a.vue"])⟩]⟩, termsRecord.consoleLine, 0⟩
    registry := .empty (.ofList [] "common") }

set_option maxRecDepth 8000 in
private theorem prepare_oneLine :
    After (prepare .silent linedArguments) (.start oneLine)
      (fun x s => x = some (linedPlan, ⟨1, ["out"]⟩) ∧ s = linedReady) fun _ _ => False := by
  rw [prepare, after_bind]
  refine (after_loadConfig_default (c := { Config.default with logFile := .string "src/a.vue" })
    (by cbv) (by rfl)).imp (fun c s h => ?_) fun _ _ h => h
  obtain ⟨rfl, rfl⟩ := h
  unfold After
  cbv

private def linedVisited : State :=
  { linedReady with
    session := { linedReady.session with
      tree := ⟨[(["src"], .directory),
        (["src", "a.vue"], .file ((Utf8.encode (linedText ++
          (convertedRecord "/src/a.vue" "/out/a.vue").fileLine [])).getD []) 0o644),
        (["out"], .directory),
        (["out", "a.vue"], .file ((Utf8.encode linedText).getD []) 0o600)]⟩
      console := linedReady.session.console ++
        (convertedRecord "/src/a.vue" "/out/a.vue").consoleLine }
    stats := ⟨1, 0, 0, 0, 0⟩ }

set_option maxRecDepth 8000 in
/-- A log file has got a line by the time it is read as a unit. -/
private theorem after_visit_oneLine :
    After (visitUnit .silent linedPlan ⟨1, ["src", "a.vue"]⟩ ⟨1, ["out", "a.vue"]⟩) linedReady
      (fun _ s => s = linedVisited) fun _ _ => False := by
  have hread : linedReady.session.tree.readText ⟨1, ["src", "a.vue"]⟩ = .ok linedText := by cbv
  have hrenew : After (renew .silent linedPlan ⟨1, ["src", "a.vue"]⟩ linedText)
      { linedReady with stats := ⟨1, 0, 0, 0, 0⟩ } (fun new s => new = linedText ∧
        s = { linedReady with stats := ⟨1, 0, 0, 0, 0⟩ }) fun _ _ => False := by
    unfold After
    cbv
  refine after_visitUnit_of_same (by cbv) hread hrenew rfl ?_
  unfold After
  cbv

set_option maxRecDepth 8000 in
/-- The output has the line that the log file got, which its unit had not. -/
private theorem strays_oneLine :
    Strays linedArguments linedPlan ⟨1, ["out"]⟩ oneLine ["a.vue"] "a\n" := by
  have hrun : After (run .silent linedArguments) (.start oneLine) (fun code s => code = 0 ∧
      s.session.tree.readBytes ⟨1, ["out"] ++ ["a.vue"]⟩ = .ok ((Utf8.encode linedText).getD []))
      fun _ _ => False := by
    obtain ⟨bytes, hfind⟩ : ∃ bytes, linedReady.session.tree.find false ⟨1, ["src", "a.vue"]⟩ =
      .ok (["src", "a.vue"], some (.file bytes 0o644)) := ⟨_, by cbv⟩
    refine after_run_of_unit prepare_oneLine (by cbv) (by cbv) hfind (by cbv) after_visit_oneLine ?_
    unfold After
    cbv
  exact .of_after (FileTree.isValid_of_entries (by decide)) prepare_oneLine
    ⟨(Plan.admits_nil _).concat (by cbv), by cbv, rfl⟩ (by cbv) hrun (by cbv; decide)

/-- A tree with a unit whose place in the output is below a name that a log file is moved to. -/
def logBeside (old : List UInt8) : FileTree :=
  ⟨[(["src"], .directory), (["src", "a.vue"], .file [97] 0o644), (["o"], .file old 0o644),
    (["o.1"], .directory)]⟩

private theorem isValid_logBeside (old : List UInt8) : (logBeside old).IsValid := by
  refine FileTree.isValid_of_entries ?_
  simp only [logBeside, List.forall_mem_cons]
  exact ⟨⟨by decide, rfl⟩, ⟨by decide, rfl⟩, ⟨by decide, rfl⟩, ⟨by decide, rfl⟩, nofun⟩

private def besideArguments : Arguments :=
  { rootsOnly "src" "o.1" with common := some [], localeDir := some "loc", logFile := some "o" }

private def besidePlan : Plan := .ofRoots ⟨1, ["src"]⟩ ⟨1, ["o.1"]⟩

private def besideReady (old : List UInt8) : State :=
  { State.start (logBeside old) with
    session := ⟨logBeside old, ⟨.info, [.console, .file ⟨⟨1, ["o"]⟩, ["o"], .standard,
      some (.visible ["o"])⟩]⟩, [], 0⟩
    registry := .empty (.ofList [] "common") }

private theorem prepare_logBeside (old : List UInt8) :
    After (prepare .silent besideArguments) (.start (logBeside old))
      (fun x s => x = some (besidePlan, ⟨1, ["o.1"]⟩) ∧ s = besideReady old) fun _ _ => False := by
  rw [prepare, after_bind]
  refine (after_loadConfig_default (c := { Config.default with
    commonFile := .string [], logFile := .string "o" }) (by cbv) (by rfl)).imp (fun c s h => ?_)
    fun _ _ h => h
  obtain ⟨rfl, rfl⟩ := h
  unfold After
  cbv

private def besideWritten (old : List UInt8) : State :=
  { besideReady old with
    session := { (besideReady old).session with
      tree := (logBeside old).set ["o.1", "a.vue"] (.file [97] 0o600) }
    stats := ⟨1, 0, 0, 0, 0⟩ }

private def besideRecord : Log.Record := convertedRecord "/src/a.vue" "/o.1/a.vue"

private def besideVisited (old : List UInt8) : State :=
  { besideWritten old with
    session := ⟨⟨[(["src"], .directory), (["src", "a.vue"], .file [97] 0o644),
      (["o.1"], .file old 0o644), (["o.2"], .directory), (["o.2", "a.vue"], .file [97] 0o600),
      (["o"], .file ((Utf8.encode (besideRecord.fileLine [])).getD []) 0o644)]⟩,
      (besideReady old).session.logger, besideRecord.consoleLine, 2⟩ }

set_option maxRecDepth 4096 in
/-- A full log file takes the place of the root of the output, which moves on. -/
private theorem log_logBeside {old : List UInt8} (hold : Log.Rollover.standard.limit ≤ old.length) :
    (besideWritten old).session.log [] besideRecord = (besideVisited old).session := by
  let f : Log.LogFile := ⟨⟨1, ["o"]⟩, ["o"], .standard, some (.visible ["o"])⟩
  let shown := { (besideWritten old).session with console := besideRecord.consoleLine }
  have hdue : shown.isDue f (.visible ["o"]) (besideRecord.fileLine []) = true := by
    have hsize : shown.size (.visible ["o"]) = old.length := by cbv
    have hfile : shown.tree.isFile f.path = true := by cbv
    rw [Log.Session.isDue, hsize, hfile, Bool.or_true, Bool.and_true, Bool.and_eq_true]
    exact ⟨by decide, decide_eq_true (Nat.le_trans hold (Nat.le_add_right _ _))⟩
  have hwrite : After (Log.Session.writeLine (besideRecord.fileLine []) 1 f) shown
      (fun _ s => s = (besideVisited old).session) fun _ _ => False := by
    rw [Log.Session.writeLine, after_bind, Log.Session.opened, after_pure, after_bind,
      Log.Session.streamFor, after_bind, after_get, if_pos hdue]
    unfold After
    cbv
  have hadmits : (besideWritten old).session.logger.admits besideRecord.level = true := by cbv
  rw [Log.Session.log, hadmits]
  change ((Log.Session.writeLine (besideRecord.fileLine []) 1 f).run.run shown :
    Except FileError Unit × Log.Session).2 = _
  exact (hwrite.imp (fun _ _ h => h) fun _ _ h => h.elim).state

private theorem after_visit_logBeside {old : List UInt8}
    (hold : Log.Rollover.standard.limit ≤ old.length) :
    After (visitUnit .silent besidePlan ⟨1, ["src", "a.vue"]⟩ ⟨1, ["o.1", "a.vue"]⟩)
      (besideReady old) (fun _ s => s = besideVisited old) fun _ _ => False := by
  let counted : State := { besideReady old with stats := ⟨1, 0, 0, 0, 0⟩ }
  have hrenew : After (renew .silent besidePlan ⟨1, ["src", "a.vue"]⟩ "a") counted
      (fun new s => new = "a" ∧ s = counted) fun _ _ => False := by
    unfold After
    cbv
  have hwrite : After (onSession (Log.Session.write ⟨1, ["o.1", "a.vue"]⟩ "a")) counted
      (fun _ s => s = besideWritten old) fun _ _ => False := by
    unfold After
    cbv
  refine after_visitUnit_of_same (by cbv) (by cbv) hrenew rfl ?_
  rw [after_bind]
  refine hwrite.imp (fun _ s h => ?_) fun _ _ h => h
  subst h
  rw [log, logAll, after_modify]
  exact congrArg (fun session => { besideWritten old with session }) (log_logBeside hold)

set_option maxRecDepth 8000 in
/-- Where the output was to stand there is a log file. -/
private theorem strays_logBeside {old : List UInt8}
    (hold : Log.Rollover.standard.limit ≤ old.length) :
    Strays besideArguments besidePlan ⟨1, ["o.1"]⟩ (logBeside old) ["a.vue"] "a" := by
  have hrun : After (run .silent besideArguments) (.start (logBeside old)) (fun code s => code = 0 ∧
      s.session.tree.readBytes ⟨1, ["o.1"] ++ ["a.vue"]⟩ = .error .notDirectory)
      fun _ _ => False := by
    have hfind : (besideReady old).session.tree.find false ⟨1, ["src", "a.vue"]⟩ =
      .ok (["src", "a.vue"], some (.file [97] 0o644)) := by cbv
    refine after_run_of_unit (prepare_logBeside old) (by cbv) (by cbv) hfind (by cbv)
      (after_visit_logBeside hold) ?_
    unfold After
    cbv
  exact .of_after (isValid_logBeside old) (prepare_logBeside old)
    ⟨(Plan.admits_nil _).concat (by cbv), by cbv, rfl⟩ (by cbv) hrun (by simp)

/-- Outputs stray if a link is on their way, if their unit is a log file, and if a log file is rolled
over. -/
theorem run_strays :
    Strays (rootsOnly "src" "out") (.ofRoots ⟨1, ["src"]⟩ ⟨1, ["out"]⟩) ⟨1, ["out"]⟩ linkedOutput
        ["b", "x.vue"] "b" ∧
      Strays { rootsOnly "src" "out" with logFile := some "src/a.vue" }
        (.ofRoots ⟨1, ["src"]⟩ ⟨1, ["out"]⟩) ⟨1, ["out"]⟩ oneLine ["a.vue"] "a\n" ∧
      Strays { rootsOnly "src" "o.1" with
          common := some [], localeDir := some "loc", logFile := some "o" }
        (.ofRoots ⟨1, ["src"]⟩ ⟨1, ["o.1"]⟩) ⟨1, ["o.1"]⟩ (logBeside (List.replicate 1048576 97))
        ["a.vue"] "a" :=
  ⟨strays_linkedOutput, strays_oneLine, strays_logBeside (Nat.le_of_eq List.length_replicate.symm)⟩

end LocaleLift.Run
