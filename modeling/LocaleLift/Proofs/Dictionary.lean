import LocaleLift.SourceUnit
import LocaleLift.Proofs.Log.Session
import LocaleLift.Proofs.Registry.Filing
import LocaleLift.Proofs.Text.Split

/-! Where dictionaries are written, and what comes of writing them. -/
namespace LocaleLift

theorem Text.splitOn_append {c : CodePoint} {u : Text} (hu : c ∉ u) (t : Text) :
    ∃ init piece, Text.splitOn c (t ++ u) = init ++ [piece ++ u] := by
  induction t with
  | nil => exact ⟨[], [], splitOn_of_not_mem hu⟩
  | cons d t ih =>
    obtain ⟨init, piece, h⟩ := ih
    rw [List.cons_append, splitOn, h]
    split
    · exact ⟨[] :: init, piece, rfl⟩
    · cases init with
      | nil => exact ⟨[], d :: piece, rfl⟩
      | cons first init => exact ⟨(d :: first) :: init, piece, rfl⟩

/-- What a file holds is told by its name alone. -/
theorem UnitKind.ofPath?_congr {p q : Path} (h : p.names.getLast? = q.names.getLast?) :
    ofPath? p = ofPath? q := by
  rw [ofPath?, ofPath?, Path.suffix, Path.suffix, Path.name, Path.name, h]

/-- A path below another one ends like itself. -/
theorem Path.exists_append (p q : Path) : ∃ before, (p.append q).names = before ++ q.names := by
  rw [append]
  split
  · exact ⟨p.names, rfl⟩
  · exact ⟨[], rfl⟩

namespace Dictionary

def names (base directory : Path) (ns : Text) : List Text :=
  (base.append (path directory ns)).names

/-- The last name of the path of a dictionary is that of a document. -/
theorem getLast?_names (base directory : Path) (ns : Text) :
    ∃ stem : Text, (names base directory ns).getLast? = some (stem ++ ".json") := by
  obtain ⟨init, piece, h⟩ := Text.splitOn_append (c := .scalar '/') (u := ".json") (by decide) ns
  have hempty : piece ++ (".json" : Text) ≠ [] := by simp [Text.ofString]
  have hpoint : piece ++ (".json" : Text) ≠ "." := by
    intro he
    have hlength := congrArg List.length he
    simp [Text.ofString] at hlength
  obtain ⟨before, hnames⟩ := Path.exists_append base (path directory ns)
  obtain ⟨before', hpath⟩ := Path.exists_append directory (.ofText (fileName ns))
  refine ⟨piece, ?_⟩
  rw [names, hnames, path, hpath, Path.ofText, fileName, h, List.filter_append,
    List.filter_cons_of_pos (by simp [hempty, hpoint]), List.filter_nil, ← List.append_assoc,
    ← List.append_assoc, List.getLast?_concat]

/-- No document is a unit. -/
theorem ofPath?_eq_none {p : Path} {stem : Text} (h : p.names.getLast? = some (stem ++ ".json")) :
    UnitKind.ofPath? p = none := by
  have hending : (stem ++ (".json" : Text)).reverse.takeWhile (· != .scalar '.') = "nosj" := by
    rw [List.reverse_append]
    rfl
  rw [UnitKind.ofPath?, Path.suffix, Path.name, h, Option.getD_some, hending]
  split
  · rfl
  · rfl

theorem ofPath?_of_leadsTo {t : FileTree} {base directory : Path} {ns : Text} {l : Location}
    (h : t.LeadsTo (names base directory ns) l) : UnitKind.ofPath? ⟨1, l⟩ = none := by
  obtain ⟨stem, hstem⟩ := getLast?_names base directory ns
  refine ofPath?_eq_none (h.getLast?_eq hstem fun heq => ?_)
  have hlength := congrArg List.length heq
  simp [Text.ofString] at hlength

/-- Some dictionaries have been written. Only the files that their paths lead to have changed, and if
no two of the paths lead to one place, all of them stand, as long as no log file is rolled over. -/
structure Issued (base directory : Path) (s s' : Log.Session) (issued : List Bucket) : Prop where
  session : Log.Session.Changes
    (fun l => ∃ p ∈ issued, s.tree.LeadsTo (names base directory p.1) l)
    (fun l => (".." : Text) ∉ l) s s'
  stands : s'.renewals ≤ s.renewals → (∀ p ∈ issued, ∀ q ∈ issued, p.1 ≠ q.1 → ∀ l,
      s.tree.LeadsTo (names base directory p.1) l → ¬ s.tree.LeadsTo (names base directory q.1) l) →
    ∀ p ∈ issued, ∃ l, s.tree.LeadsTo (names base directory p.1) l ∧
      s'.Holds l (document p.1 (table p.2))

section WriteAll

variable {time : Text} {base directory : Path} {s s' s'' : Log.Session} {issued : List Bucket}

/-- What has been issued stays so when no further file is written. -/
theorem Issued.trans (h : Issued base directory s s' issued)
    (h' : Log.Session.Changes (fun _ => False) (fun l => (".." : Text) ∉ l) s' s'') :
    Issued base directory s s'' issued where
  session := h.session.trans (h'.mono (fun _ hf => hf.elim) fun _ hm => hm)
  stands hr hapart p hp := by
    obtain ⟨hr, hr'⟩ := h.session.calm h' hr
    obtain ⟨l, hl, hholds⟩ := h.stands hr hapart p hp
    exact ⟨l, hl, hholds.changes h' hr' id⟩

theorem after_ensureDirectories (s : Log.Session) (p : Path) :
    After (Log.Session.onFiles (FileM.ensureDirectories p)) s
      (fun _ s' => Log.Session.Changes (fun _ => False) (fun l => (".." : Text) ∉ l) s s')
      fun _ s' => Log.Session.Changes (fun _ => False) (fun l => (".." : Text) ∉ l) s s' := by
  rw [Log.Session.after_onFiles]
  exact (FileM.after_ensureDirectories (.refl s.tree) fun _ hm => hm.not_mem_steps).imp
    (fun _ _ h => .of_files h) fun _ _ h => .of_files h

theorem Issued.nil (h : Log.Session.Changes (fun _ => False) (fun l => (".." : Text) ∉ l) s s') :
    Issued base directory s s' [] :=
  ⟨h.mono (fun _ hf => hf.elim) fun _ hm => hm, by simp⟩

/-- One more dictionary is issued when the file that its path leads to has been written. -/
private theorem Issued.concat {l : Location} {d : Bucket} (h : Issued base directory s s' issued)
    (hnew : d.1 ∉ issued.map (·.1)) (hleads : s'.tree.LeadsTo (names base directory d.1) l)
    (hwritten : Log.Session.Changes (· = l) (fun l => (".." : Text) ∉ l) s' s'')
    (hholds : s''.Holds l (document d.1 (table d.2))) :
    Issued base directory s s'' (issued ++ [d]) := by
  have hleads (hr : s'.renewals ≤ s.renewals) : s.tree.LeadsTo (names base directory d.1) l :=
    hleads.of_changes (h.session.tree hr)
  refine ⟨?_, fun hr hapart p hp => ?_⟩
  · by_cases hr : s'.renewals ≤ s.renewals
    · refine (h.session.mono (fun m hm => ?_) fun _ hm => hm).trans
        (hwritten.mono (fun m hm => ?_) fun _ hm => hm)
      · obtain ⟨p, hp, hm⟩ := hm
        exact ⟨p, List.mem_append_left _ hp, hm⟩
      · exact ⟨d, by simp, hm ▸ hleads hr⟩
    · exact h.session.of_renewed hr hwritten
  · obtain ⟨hr, hr'⟩ := h.session.calm hwritten hr
    obtain hp | rfl := (List.mem_append.mp hp).imp_right List.mem_singleton.mp
    · obtain ⟨m, hm, hold⟩ := h.stands hr
        (fun p hp q hq => hapart p (List.mem_append_left _ hp) q (List.mem_append_left _ hq)) p hp
      have hne : p.1 ≠ d.1 := fun he => hnew (he ▸ List.mem_map_of_mem hp)
      refine ⟨m, hm, hold.changes hwritten hr' ?_⟩
      rintro rfl
      exact hapart p (List.mem_append_left _ hp) d (by simp) hne m hm (hleads hr)
    · exact ⟨l, hleads hr, hholds⟩

/-- Dictionaries are issued one after the other. If one cannot be written, those before it have been
issued. -/
theorem after_writeAll (s : Log.Session) (r : Registry) :
    After (writeAll time base directory r) s
      (fun _ s' => Issued base directory s s' r.serialize)
      fun _ s' => ∃ issued rest, r.serialize = issued ++ rest ∧ (rest = [] → issued = []) ∧
        Issued base directory s s' issued := by
  rw [writeAll, after_bind]
  refine (after_ensureDirectories s _).imp (fun _ s₁ h₁ => ?_)
    fun _ _ h => ⟨[], r.serialize, rfl, fun _ => rfl, .nil h⟩
  refine after_mapM (p := fun before s' => Issued base directory s s' before) (.nil h₁) ?_
  rintro before ⟨ns, texts⟩ after hserialize s' hissued
  rw [after_bind, writeOne, after_bind]
  refine (Log.Session.after_write s' _ _).imp (fun _ s₂ h₂ => ?_)
    fun _ s₂ h₂ => ⟨before, _, hserialize, nofun, hissued.trans h₂.2⟩
  obtain ⟨-, l, hleads, hwritten, hholds⟩ := h₂
  have hnew : ns ∉ before.map (·.1) := Registry.not_mem_of_serialize hserialize
  rw [after_pure, after_bind, after_modify]
  exact (hissued.concat (d := (ns, texts)) hnew hleads hwritten hholds).trans
    (Log.Session.changes_log ..)

end WriteAll

end Dictionary

end LocaleLift
