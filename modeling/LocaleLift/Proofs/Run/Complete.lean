import LocaleLift.Proofs.Dictionary
import LocaleLift.Proofs.Run.Prepare
import LocaleLift.Proofs.Run.Walk

/-! What a run comes to once it is ready, from what its walk comes to. -/
namespace LocaleLift.Run

/-- After the walk nothing changes but the files that dictionaries are written to, and log files. -/
structure Ends (host : Host) (directory : Path) (s s' : State) : Prop where
  session : Log.Session.Changes
    (fun l => ∃ p ∈ s.registry.serialize,
      s.session.tree.LeadsTo (Dictionary.names host.directory directory p.1) l)
    (fun l => (".." : Text) ∉ l) s.session s'.session
  registry : s'.registry = s.registry
  failed : s'.stats.failed = s.stats.failed

/-- The dictionaries stand in the end, unless the paths of two of them lead to one place or a log file
has been rolled over. -/
def Stands (host : Host) (directory : Path) (s s' : State) : Prop :=
  let leadsTo (p : Text × List Text) (l : Location) :=
    s.session.tree.LeadsTo (Dictionary.names host.directory directory p.1) l
  s'.session.renewals ≤ s.session.renewals →
  (∀ p ∈ s.registry.serialize, ∀ q ∈ s.registry.serialize, p.1 ≠ q.1 →
    ∀ l, leadsTo p l → ¬ leadsTo q l) →
  ∀ p ∈ s.registry.serialize,
    ∃ l, leadsTo p l ∧ s'.session.Holds l (Dictionary.document p.1 (Dictionary.table p.2))

section Complete

variable {host : Host} {a : Arguments} {plan : Plan} {out directory : Path} {t : FileTree}
  {files : Location → Prop} {inv off : State → Prop} {done : List Text → State → Prop}
  {s s' s'' : State}

/-- The root of the sources is no unit. -/
theorem IsReady.ne_nil {rel : List Text} (h : IsReady t plan out s) (hunit : plan.IsUnit t rel) :
    rel ≠ [] := by
  rintro rfl
  have hhere := h.directory _ (List.prefix_refl _)
  have hfile := h.fresh.session.tree.file _ hunit.file
  rw [List.append_nil, FileTree.bytes?, hhere] at hfile
  cases hfile

theorem Ends.refl (s : State) : Ends host directory s s :=
  ⟨.refl _, rfl, rfl⟩

theorem Ends.quiet (h : Ends host directory s s') (hs : Quiet s' s'') :
    Ends host directory s s'' :=
  ⟨h.session.trans (hs.session.mono (fun _ hl => hl.elim) fun _ hl => hl.elim),
    hs.registry.trans h.registry, hs.failed.trans h.failed⟩

theorem Stands.quiet (h : Stands host directory s s') (hends : Ends host directory s s')
    (hs : Quiet s' s'') : Stands host directory s s'' := by
  intro hcalm hapart p hp
  obtain ⟨hcalm, hcalm'⟩ := hends.session.calm hs.session hcalm
  obtain ⟨l, hl, hholds⟩ := h hcalm hapart p hp
  exact ⟨l, hl, hholds.changes hs.session hcalm' id⟩

private theorem after_writeDictionaries :
    After (writeDictionaries host plan directory) s
      (fun ok s' => Ends host directory s s' ∧ (ok = true → Stands host directory s s'))
      fun _ s' => Ends host directory s s' := by
  rw [writeDictionaries, after_tryCatch]
  refine After.imp (q := fun ok s' => Ends host directory s s' ∧
      (ok = true → Stands host directory s s'))
    (r := fun _ s' => Ends host directory s s') ?_ (fun _ _ h => h) fun e s' h => ?_
  · rw [after_bind, after_get]
    dsimp only
    split
    · rw [after_bind, after_onSession, Log.Session.after_onFiles]
      exact (FileM.after_ensureDirectories (.refl _) fun _ hl => hl.not_mem_steps).imp
        (fun _ _ h => ⟨.of_files h, rfl, rfl⟩) fun _ _ h => ⟨.of_files h, rfl, rfl⟩
    · rw [after_bind, after_onSession]
      refine (Dictionary.after_writeAll s.session s.registry).imp
        (fun _ _ h => ⟨⟨h.session, rfl, rfl⟩, fun _ => h.stands⟩) fun _ _ h => ?_
      obtain ⟨issued, rest, hserialize, -, h⟩ := h
      refine ⟨h.session.mono (fun l hl => ?_) fun _ hm => hm, rfl, rfl⟩
      obtain ⟨p, hp, hl⟩ := hl
      exact ⟨p, by simp [hserialize, hp], hl⟩
  · split
    · split
      · rw [after_bind]
        exact after_log fun s'' hs => ⟨h.quiet hs, by simp⟩
      · exact h
    · exact h

private theorem after_finishDictionaries :
    After (finishDictionaries host plan directory) s
      (fun ok s' => Ends host directory s s' ∧
        (ok = true → plan.dryRun = false → Stands host directory s s'))
      fun _ s' => Ends host directory s s' := by
  rw [finishDictionaries]
  split
  · rename_i hdry
    rw [after_bind, announceDictionaries, after_bind, after_get]
    dsimp only
    split
    · rw [after_bind]
      exact .refl s
    · exact after_log fun s' h => ⟨.quiet (.refl s) h, by simp [hdry]⟩
  · exact after_writeDictionaries.imp (fun _ _ h => ⟨h.1, fun hok _ => h.2 hok⟩) fun _ _ h => h

/-- That log files have been rolled over is not undone in a run that is ready. -/
theorem keeps_complete_renewals [Script.Parser] (n : Nat) (out : Path) :
    Keeps (fun s => n ≤ s.session.renewals) (complete host a plan out) := by
  refine keeps_complete (isKept_renewals host plan n) (fun directory s hs => ?_) out
  exact after_finishDictionaries.imp (fun _ _ h => Nat.le_trans hs h.1.session.renewals)
    fun _ _ h => Nat.le_trans hs h.session.renewals

private theorem after_convert [Script.Parser] (h : Follows host plan out t files inv done off)
    (ht : t.IsValid)
    (hfiles : ∀ l, files l → (".." : Text) ∉ l)
    (hoff : ∀ s s', off s → Quiet s s' → s'.session.renewals ≤ s.session.renewals → off s')
    (hready : IsReady t plan out s) (hs : inv s) :
    After (convert host plan out) s
      (fun ok s' => s'.session.renewals ≤ s.session.renewals → off s' ∧
        (ok = true → inv s' ∧ ∀ rel, plan.IsUnit t rel → done rel s'))
      fun _ s' => s'.session.renewals ≤ s.session.renewals → off s' := by
  have hwalk := after_walk (d := []) (s := s) h ht hfiles FileTree.maxPath
    (fun before hpre hnil => absurd (List.prefix_nil.mp hpre) hnil) (by simpa using hready.directory)
    hs
  rw [Path.below_nil, Path.below_nil] at hwalk
  have hrenewals := keeps_walk (isKept_renewals host plan s.session.renewals) FileTree.maxPath
    plan.base out s (Nat.le_refl _)
  rw [convert, after_tryCatch, after_bind]
  refine (hwalk.and hrenewals).imp (fun _ s' ⟨h', _⟩ hcalm => ?_) fun e s' ⟨h', hsince⟩ => ?_
  · obtain ⟨hadvances, hdone⟩ := h' hcalm
    refine ⟨h.stopped s' hadvances.inv, fun _ => ⟨hadvances.inv, fun rel hunit => ?_⟩⟩
    exact hdone rel List.nil_prefix (hready.ne_nil hunit).symm hunit
  · split
    · rw [after_bind]
      refine after_log fun s'' hs hcalm => ⟨hoff s' s'' (h' ?_) hs ?_, by simp⟩
      · exact Nat.le_trans hs.session.renewals hcalm
      · exact Nat.le_trans hcalm hsince
    · exact h'

/-- How a run goes on once it is ready: its walk does what it follows, and then it ends. -/
theorem after_complete [Script.Parser] (h : Follows host plan out t files inv done off)
    (ht : t.IsValid)
    (hfiles : ∀ l, files l → (".." : Text) ∉ l)
    (hoff : ∀ s s', off s → Quiet s s' → s'.session.renewals ≤ s.session.renewals → off s')
    (hready : IsReady t plan out s) (hs : inv s) :
    After (complete host a plan out) s
      (fun o s' => s'.session.renewals ≤ s.session.renewals →
        ∃ walked directory, off walked ∧ Ends host directory walked s' ∧
          s'.session.renewals ≤ walked.session.renewals ∧
          ∀ plan' out' directory' stats, o = .finished plan' out' directory' stats →
            directory' = directory ∧ stats.failed = s'.stats.failed ∧
            (inv walked ∧ ∀ rel, plan.IsUnit t rel → done rel walked) ∧
            (plan.dryRun = false → Stands host directory walked s'))
      fun _ s' => s'.session.renewals ≤ s.session.renewals →
        ∃ walked directory, off walked ∧ Ends host directory walked s' ∧
          s'.session.renewals ≤ walked.session.renewals := by
  have hrenewals := keeps_convert (isKept_renewals host plan s.session.renewals) out s (Nat.le_refl _)
  -- Whatever comes after the walk, no log file has been rolled over since if none has at all.
  have hsince {walked s' : State} {directory : Path} (hends : Ends host directory walked s')
      (hwalked : s.session.renewals ≤ walked.session.renewals)
      (hcalm : s'.session.renewals ≤ s.session.renewals) :
      walked.session.renewals ≤ s.session.renewals ∧
        s'.session.renewals ≤ walked.session.renewals :=
    ⟨Nat.le_trans hends.session.renewals hcalm, Nat.le_trans hcalm hwalked⟩
  rw [complete, after_bind]
  refine ((after_convert h ht hfiles hoff hready hs).and hrenewals).imp (fun ok walked h' => ?_)
    fun _ walked h' hcalm => ⟨walked, out, h'.1 hcalm, .refl walked, Nat.le_refl _⟩
  obtain ⟨h', hwalked⟩ := h'
  have hbroken {s' : State} {directory : Path} (hends : Ends host directory walked s')
      (hcalm : s'.session.renewals ≤ s.session.renewals) :
      off walked ∧ Ends host directory walked s' ∧
        s'.session.renewals ≤ walked.session.renewals :=
    ⟨(h' (hsince hends hwalked hcalm).1).1, hends, (hsince hends hwalked hcalm).2⟩
  split
  · exact fun hcalm => ⟨walked, out, (h' hcalm).1, .refl walked, Nat.le_refl _, by simp⟩
  · rename_i hok
    rw [after_bind, after_modify, after_bind]
    have hends {u : State} {directory : Path}
        (hu : Ends host directory
          { walked with output := if a.diff then Text.join "\n" walked.diffs else walked.output } u) :
        Ends host directory walked u := ⟨hu.session, hu.registry, hu.failed⟩
    refine after_dictionaryDirectory.imp (fun directory s' hs => ?_)
      fun _ s' hs hcalm => ⟨walked, out, hbroken (hends (hs ▸ .refl _)) hcalm⟩
    subst hs
    rw [after_bind]
    refine after_finishDictionaries.imp (fun ok' s' h'' => ?_)
      fun _ s' h'' hcalm => ⟨walked, directory, hbroken (hends h'') hcalm⟩
    obtain ⟨hends', hstands⟩ := h''
    split
    · refine fun hcalm => ⟨walked, directory, ?_⟩
      obtain ⟨hoff, hends, hle⟩ := hbroken (hends hends') hcalm
      exact ⟨hoff, hends, hle, by simp⟩
    · rename_i hok'
      rw [after_bind, after_get, after_bind]
      refine after_log fun u hu hcalm => ⟨walked, directory, ?_⟩
      obtain ⟨hoff, hends, hle⟩ := hbroken (hends (hends'.quiet hu)) hcalm
      refine ⟨hoff, hends, hle, ?_⟩
      rintro plan' out' directory' stats ⟨⟩
      refine ⟨rfl, hu.failed.symm, (h' ?_).2 (by simpa using hok), fun hdry => ?_⟩
      · exact Nat.le_trans hends.session.renewals hcalm
      · exact (hstands (by simpa using hok') hdry).quiet hends' hu

end Complete

end LocaleLift.Run
