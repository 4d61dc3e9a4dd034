import LocaleLift.Files.Tree

/-! What a file tree holds after a change, and where a path leads. -/
namespace LocaleLift

namespace FileTree

variable {t t' : FileTree} {l m : Location} {e : Entry}

@[simp] theorem get?_nil : t.get? [] = some .directory := rfl

theorem get?_set (h : l ≠ []) : (t.set l e).get? m = if m = l then some e else t.get? m := by
  by_cases hm : m = l
  · subst hm
    simp [set, get?, h, Assoc.get?_insert_self]
  · simp [set, get?, hm, Assoc.get?_insert_of_ne t.entries e (Ne.symm hm)]

theorem get?_erase (h : l ≠ []) : (t.erase l).get? m = if m = l then none else t.get? m := by
  have hfilter := Assoc.get?_filter t.entries (· != l) m
  by_cases hm : m = l
  · subst hm
    simpa [erase, get?, h] using hfilter
  · by_cases hnil : m = []
    · simp [get?, hnil, Ne.symm h]
    · simpa [erase, get?, hm, hnil] using hfilter

/-- What nothing stands below is moved on its own. -/
theorem get?_erase_move (hl : l ≠ []) (hm : m ≠ []) (hlm : l ≠ m)
    (halone : ∀ rest, rest ≠ [] → t.get? (l ++ rest) = none) (k : Location) :
    ((t.erase m).move l m).get? k =
      if k = m then t.get? l else if k = l then none else t.get? k := by
  have hrename : (t.erase m).move l m =
      ⟨(t.erase m).entries.map fun p => (if p.1 = l then m else p.1, p.2)⟩ := by
    refine congrArg FileTree.mk (List.map_congr_left fun p hp => Prod.ext ?_ rfl)
    change moved l m p.1 = if p.1 = l then m else p.1
    rw [moved]
    split
    · rename_i hpre
      obtain ⟨rest, hrest⟩ := List.isPrefixOf_iff_prefix.mp hpre
      by_cases hnil : rest = []
      · subst hnil
        simp [← hrest]
      · have hthere := Assoc.get?_ne_none_iff.mpr ⟨p.2, (List.mem_filter.mp hp).1⟩
        have hnone := halone rest hnil
        rw [hrest, get?, if_neg (by simp [← hrest, hl])] at hnone
        exact absurd hnone hthere
    · rename_i hpre
      rw [if_neg]
      rintro rfl
      exact hpre (List.isPrefixOf_iff_prefix.mpr (List.prefix_refl _))
  by_cases hnil : k = []
  · simp [hnil, Ne.symm hl, Ne.symm hm]
  · have hnew (p : Location × Entry) (hp : p ∈ (t.erase m).entries) : p.1 ≠ m := by
      simpa using (List.mem_filter.mp hp).2
    have hget (j : Location) (hj : j ≠ []) (hjm : j ≠ m) :
        Assoc.get? (t.erase m).entries j = t.get? j := by
      have herase := get?_erase (t := t) (m := j) hm
      rwa [get?, if_neg (by simpa using hj), if_neg hjm] at herase
    rw [hrename, get?, if_neg (by simpa using hnil), Assoc.get?_map_rename hnew, hget l hl hlm]
    split
    · rfl
    · rename_i hkm
      rw [hget k hnil hkm]

def bytes? (t : FileTree) (l : Location) : Option (List UInt8) :=
  match t.get? l with
  | some (.file bytes _) => some bytes
  | _ => none

theorem bytes?_eq_some {bytes : List UInt8} :
    t.bytes? l = some bytes ↔ ∃ mode, t.get? l = some (.file bytes mode) := by
  rw [bytes?]
  split
  · rename_i b mode h
    simp [h]
  · rename_i h
    simp only [reduceCtorEq, false_iff, not_exists]
    exact fun mode he => h _ _ he

theorem bytes?_congr (h : t'.get? l = t.get? l) : t'.bytes? l = t.bytes? l := by
  rw [bytes?, h, bytes?]

/-- The names in a directory are those of its entries. -/
theorem mem_namesIn {n : Text} : n ∈ t.namesIn l ↔ t.get? (l ++ [n]) ≠ none := by
  have hget : t.get? (l ++ [n]) ≠ none ↔ ∃ e, (l ++ [n], e) ∈ t.entries := by
    rw [← Assoc.get?_ne_none_iff]
    simp [get?]
  rw [hget, namesIn]
  simp only [List.mem_filterMap, Prod.exists]
  constructor
  · rintro ⟨k, e, hmem, h⟩
    split at h
    · rename_i hdrop
      refine ⟨e, ?_⟩
      obtain ⟨init, rfl⟩ : ∃ init, k = init ++ [n] := by
        obtain ⟨init, rfl⟩ := List.getLast?_eq_some_iff.mp h
        exact ⟨init, rfl⟩
      rw [List.dropLast_concat] at hdrop
      rwa [← hdrop]
    · cases h
  · rintro ⟨e, hmem⟩
    exact ⟨_, e, hmem, by simp⟩

/-- What a file system keeps to: no name is a step upwards, and everything stands in a directory. -/
structure IsValid (t : FileTree) : Prop where
  steps : ∀ l, t.get? l ≠ none → (".." : Text) ∉ l
  parent : ∀ l n, t.get? (l ++ [n]) ≠ none → t.get? l = some .directory

theorem mem_entries (h : t.get? l = some e) (hl : l ≠ []) : (l, e) ∈ t.entries := by
  rw [get?, if_neg (by simpa using hl)] at h
  exact Assoc.mem_of_get? h

theorem isValid_of_entries
    (h : ∀ p ∈ t.entries, (".." : Text) ∉ p.1 ∧ t.get? p.1.dropLast = some .directory) :
    t.IsValid where
  steps l hl := by
    by_cases hnil : l = []
    · simp [hnil]
    · obtain ⟨e, he⟩ := Option.ne_none_iff_exists'.mp hl
      exact (h _ (mem_entries he hnil)).1
  parent l n hl := by
    obtain ⟨e, he⟩ := Option.ne_none_iff_exists'.mp hl
    simpa using (h _ (mem_entries he (by simp))).2

theorem ne_link_of_entries (h : ∀ p ∈ t.entries, ∀ x, p.2 ≠ .link x) (l : Location) (x : Text) :
    t.get? l ≠ some (.link x) := by
  intro hget
  have hnil : l ≠ [] := by
    rintro rfl
    cases hget
  exact h _ (mem_entries hget hnil) x rfl

theorem IsValid.directory (h : t.IsValid) {names : List Text} (hnil : names ≠ [])
    (hget : t.get? (l ++ names) ≠ none) : t.get? l = some .directory := by
  induction names generalizing l with
  | nil => exact absurd rfl hnil
  | cons n names ih =>
    by_cases hnames : names = []
    · rw [hnames] at hget
      exact h.parent l n hget
    · have hnext := ih (l := l ++ [n]) hnames (by simpa using hget)
      exact h.parent l n (by simp [hnext])

theorem IsValid.set (h : t.IsValid) (hl : l ≠ []) (hsteps : (".." : Text) ∉ l)
    (hparent : t.get? l.dropLast = some .directory)
    (hkeep : t.get? l = some .directory → e = .directory) : (t.set l e).IsValid where
  steps m hm := by
    rw [get?_set hl] at hm
    split at hm
    · rename_i heq
      exact heq ▸ hsteps
    · exact h.steps m hm
  parent m n hm := by
    rw [get?_set hl] at hm ⊢
    split at hm
    · rename_i heq
      have hdrop : m = l.dropLast := by rw [← heq, List.dropLast_concat]
      have hne : m ≠ l := by
        rintro rfl
        simp at heq
      rw [if_neg hne, hdrop, hparent]
    · have hdirectory := h.parent m n hm
      split
      · rename_i heq
        rw [hkeep (heq ▸ hdirectory)]
      · exact hdirectory

/-- The way from a location along some names ends at a location. The last one may be missing; if it
is a link, it is followed only on request. -/
inductive Way (t : FileTree) (follow : Bool) : Location → List Text → Location → Prop
  | stop (here : Location) : Way t follow here [] here
  | up {here l : Location} {rest : List Text} (way : Way t follow here.dropLast rest l) :
      Way t follow here (".." :: rest) l
  | last {here : Location} {name : Text} (hname : name ≠ "..")
      (hdirectory : t.get? (here ++ [name]) ≠ some .directory)
      (hlink : follow = true → ∀ x, t.get? (here ++ [name]) ≠ some (.link x)) :
      Way t follow here [name] (here ++ [name])
  | down {here l : Location} {name : Text} {rest : List Text} (hname : name ≠ "..")
      (hdirectory : t.get? (here ++ [name]) = some .directory)
      (way : Way t follow (here ++ [name]) rest l) : Way t follow here (name :: rest) l
  | link {here l : Location} {name target : Text} {rest : List Text} (hname : name ≠ "..")
      (hlink : t.get? (here ++ [name]) = some (.link target))
      (hfollow : rest = [] → follow = true)
      (way : Way t follow (if (Path.ofText target).root = 0 then here else [])
        ((Path.ofText target).names ++ rest) l) : Way t follow here (name :: rest) l

/-- What is found is where the way ends, with what stands there. -/
theorem way_of_findFrom {follow : Bool} {links : Nat} {here : Location} {names : List Text}
    {x : Option Entry} (h : t.findFrom follow links here names = .ok (l, x)) :
    t.Way follow here names l ∧ x = t.get? l := by
  fun_induction findFrom t follow links here names with
  | case1 => cases h; exact ⟨.stop _, rfl⟩
  | case2 links here rest ih =>
    obtain ⟨way, hx⟩ := ih h
    exact ⟨.up way, hx⟩
  | case4 links here name rest hname _ next hnext hrest =>
    obtain ⟨rfl, rfl⟩ := Prod.mk.inj (Except.ok.inj h)
    rw [List.isEmpty_iff] at hrest
    subst hrest
    exact ⟨.last hname (by simp [next, hnext]) (by simp [next, hnext]), hnext.symm⟩
  | case6 links here name rest hname _ next hnext ih =>
    obtain ⟨way, hx⟩ := ih h
    exact ⟨.down hname hnext way, hx⟩
  | case7 links here name rest hname _ next bytes mode hnext hrest =>
    obtain ⟨rfl, rfl⟩ := Prod.mk.inj (Except.ok.inj h)
    rw [List.isEmpty_iff] at hrest
    subst hrest
    exact ⟨.last hname (by simp [next, hnext]) (by simp [next, hnext]), hnext.symm⟩
  | case9 links here name rest hname _ next target hnext hrest =>
    obtain ⟨rfl, rfl⟩ := Prod.mk.inj (Except.ok.inj h)
    rw [Bool.and_eq_true, List.isEmpty_iff, Bool.not_eq_true'] at hrest
    obtain ⟨rfl, rfl⟩ := hrest
    exact ⟨.last hname (by simp [next, hnext]) (by simp), hnext.symm⟩
  | case11 here name rest hname _ next target hnext hrest links p ih =>
    obtain ⟨way, hx⟩ := ih h
    refine ⟨.link hname hnext (fun he => ?_) way, hx⟩
    simpa [he] using hrest
  | case3 | case5 | case8 | case10 => cases h

theorem way_of_find {follow : Bool} {p : Path} {x : Option Entry}
    (h : t.find follow p = .ok (l, x)) : t.Way follow [] p.names l ∧ x = t.get? l := by
  rw [find] at h
  split at h
  · cases h
  · split at h
    · cases h
    · exact way_of_findFrom h

namespace Way

variable {follow : Bool} {here : Location} {names : List Text}

/-- No step upwards is left in a location that is found. -/
theorem not_mem_steps (h : t.Way follow here names l) (hhere : (".." : Text) ∉ here) :
    (".." : Text) ∉ l := by
  induction h with
  | stop => exact hhere
  | up _ ih => exact ih fun hmem => hhere ((List.dropLast_sublist _).subset hmem)
  | last hname => simp [hhere, Ne.symm hname]
  | down hname _ _ ih => exact ih (by simp [hhere, Ne.symm hname])
  | link _ _ _ _ ih =>
    refine ih ?_
    split
    · exact hhere
    · simp

/-- If no link is followed in the end, the last name of a way is that of its location. -/
theorem getLast?_eq {n : Text} (h : t.Way false here names l) (hlast : names.getLast? = some n)
    (hn : n ≠ "..") : l.getLast? = some n := by
  induction h with
  | stop => cases hlast
  | @up here l rest way ih =>
    cases rest with
    | nil => exact absurd (Option.some.inj hlast).symm hn
    | cons m rest => exact ih (by simpa using hlast)
  | last => simpa using hlast
  | @down here l name rest _ _ way ih =>
    cases rest with
    | nil =>
      cases way
      simpa using hlast
    | cons m rest => exact ih (by simpa using hlast)
  | @link here l name target rest _ _ hfollow _ ih =>
    refine ih ?_
    have hrest : rest ≠ [] := fun he => Bool.noConfusion (hfollow he)
    obtain ⟨m, rest, rfl⟩ := List.exists_cons_of_ne_nil hrest
    rw [List.getLast?_cons_cons] at hlast
    rw [List.getLast?_append, hlast, Option.some_or]

/-- A way leads through directories, and to no link that is to be followed. -/
theorem directories (h : t.Way follow here names l)
    (hhere : ∀ before, before <+: here → t.get? before = some .directory) :
    (∀ before, before <+: l → before ≠ l → t.get? before = some .directory) ∧
      (follow = true → ∀ x, t.get? l ≠ some (.link x)) := by
  induction h with
  | stop here => exact ⟨fun before hpre _ => hhere before hpre, by simp [hhere here]⟩
  | up _ ih => exact ih fun before hpre => hhere before (hpre.trans (List.dropLast_prefix _))
  | last hname hdirectory hlink =>
    refine ⟨fun before hpre hne => ?_, hlink⟩
    exact hhere before ((List.prefix_concat_iff.mp hpre).resolve_left hne)
  | down hname hdirectory _ ih =>
    refine ih fun before hpre => ?_
    obtain rfl | hpre := List.prefix_concat_iff.mp hpre
    · exact hdirectory
    · exact hhere before hpre
  | link _ _ _ _ ih =>
    refine ih ?_
    split
    · exact hhere
    · intro before hpre
      simp [List.prefix_nil.mp hpre]

end Way

/-- The location that names lead to from another one if no link is met. -/
def straight (here : Location) (names : List Text) : Location :=
  let step (l : Location) (n : Text) : Location := if n = ".." then l.dropLast else l ++ [n]
  names.foldl step here

@[simp] theorem straight_nil (here : Location) : straight here [] = here := rfl

@[simp] theorem straight_up (here : Location) (names : List Text) :
    straight here (".." :: names) = straight here.dropLast names := rfl

theorem straight_cons (here : Location) {n : Text} (hn : n ≠ "..") (names : List Text) :
    straight here (n :: names) = straight (here ++ [n]) names := by
  simp [straight, hn]

theorem straight_append (here : Location) (names rest : List Text) :
    straight here (names ++ rest) = straight (straight here names) rest :=
  List.foldl_append ..

theorem straight_of_not_mem {names : List Text} (here : Location) (h : (".." : Text) ∉ names) :
    straight here names = here ++ names := by
  induction names generalizing here with
  | nil => simp
  | cons n names ih =>
    rw [List.mem_cons, not_or] at h
    rw [straight_cons here (Ne.symm h.1), ih _ h.2, List.append_assoc, List.singleton_append]

theorem not_mem_straight {here : Location} (names : List Text) (h : (".." : Text) ∉ here) :
    (".." : Text) ∉ straight here names := by
  induction names generalizing here with
  | nil => exact h
  | cons n names ih =>
    by_cases hn : n = ".."
    · subst hn
      rw [straight_up]
      exact ih fun hmem => h ((List.dropLast_prefix here).subset hmem)
    · rw [straight_cons here hn]
      exact ih (by simp [h, Ne.symm hn])

theorem straight_withoutSteps (p : Path) :
    straight [] p.withoutSteps.names = p.withoutSteps.names := by
  have hsteps : (".." : Text) ∉ p.withoutSteps.names := not_mem_straight p.names List.not_mem_nil
  rw [straight_of_not_mem [] hsteps, List.nil_append]

/-- No link stands on the way along some names, its end apart. -/
def Clear (t : FileTree) (here : Location) (names : List Text) : Prop :=
  ∀ before, before <+: names → before ≠ names → ∀ x, t.get? (straight here before) ≠ some (.link x)

theorem Clear.up {here : Location} {names : List Text} (h : t.Clear here (".." :: names)) :
    t.Clear here.dropLast names :=
  fun before hpre hne => h (".." :: before) (List.cons_prefix_cons.mpr ⟨rfl, hpre⟩) (by simpa)

theorem Clear.down {here : Location} {n : Text} {names : List Text} (h : t.Clear here (n :: names))
    (hn : n ≠ "..") : t.Clear (here ++ [n]) names := by
  intro before hpre hne
  rw [← straight_cons here hn]
  exact h (n :: before) (List.cons_prefix_cons.mpr ⟨rfl, hpre⟩) (by simpa)

theorem Way.eq_straight {follow : Bool} {here : Location} {names : List Text}
    (h : t.Way follow here names l) (hclear : t.Clear here names)
    (hend : follow = true → ∀ x, t.get? (straight here names) ≠ some (.link x)) :
    l = straight here names := by
  induction h with
  | stop => rfl
  | up _ ih => exact ih hclear.up hend
  | last hname => rw [straight_cons _ hname, straight_nil]
  | down hname _ _ ih =>
    rw [straight_cons _ hname] at hend ⊢
    exact ih (hclear.down hname) hend
  | @link here l name target rest hname hlink hfollow =>
    by_cases hrest : rest = []
    · subst hrest
      rw [straight_cons _ hname, straight_nil] at hend
      exact absurd hlink (hend (hfollow rfl) target)
    · have hnot := hclear [name] (List.prefix_append [name] rest) (by simpa using Ne.symm hrest)
      rw [straight_cons _ hname, straight_nil] at hnot
      exact absurd hlink (hnot target)

theorem findFrom_up (follow : Bool) (links : Nat) (here : Location) (names : List Text) :
    t.findFrom follow links here (".." :: names) = t.findFrom follow links here.dropLast names := by
  rw [findFrom, if_pos rfl]

theorem findFrom_down {follow : Bool} {links : Nat} {here : Location} {n : Text} {names : List Text}
    (hn : n ≠ "..") (hsize : Utf8.size n ≤ maxName)
    (hdirectory : t.get? (here ++ [n]) = some .directory) :
    t.findFrom follow links here (n :: names) = t.findFrom follow links (here ++ [n]) names := by
  rw [findFrom, if_neg hn, if_neg (Nat.not_lt.mpr hsize)]
  simp only [hdirectory]

theorem findFrom_last {follow : Bool} {links : Nat} {here : Location} {n : Text} (hn : n ≠ "..")
    (hsize : Utf8.size n ≤ maxName)
    (hend : follow = true → ∀ x, t.get? (here ++ [n]) ≠ some (.link x)) :
    t.findFrom follow links here [n] = .ok (here ++ [n], t.get? (here ++ [n])) := by
  rw [findFrom, if_neg hn, if_neg (Nat.not_lt.mpr hsize)]
  cases h : t.get? (here ++ [n]) with
  | none => simp [h]
  | some e =>
    cases e with
    | directory => simp [findFrom, h]
    | file => simp [h]
    | link x =>
      have hfollow : follow = false := by
        cases follow with
        | false => rfl
        | true => exact absurd h (hend rfl x)
      simp [hfollow, h]

/-- Names between directories lead where they say, unless one of them is too long. -/
theorem findFrom_straight {follow : Bool} {links : Nat} {here : Location} {names : List Text}
    (hdirectory : ∀ before, before <+: names → before ≠ names →
      t.get? (straight here before) = some .directory)
    (hend : follow = true → ∀ x, t.get? (straight here names) ≠ some (.link x)) :
    t.findFrom follow links here names =
      if ∀ n ∈ names, Utf8.size n ≤ maxName then
        .ok (straight here names, t.get? (straight here names))
      else .error .nameTooLong := by
  induction names generalizing here with
  | nil => simp [findFrom]
  | cons n names ih =>
    by_cases hn : n = ".."
    · subst hn
      have hsize : Utf8.size ".." ≤ maxName := by decide
      rw [straight_up] at hend ⊢
      rw [findFrom_up, ih (fun before hpre hne => ?_) hend]
      · simp [hsize]
      · exact hdirectory (".." :: before) (List.cons_prefix_cons.mpr ⟨rfl, hpre⟩) (by simpa)
    · by_cases hsize : Utf8.size n ≤ maxName
      · simp only [List.forall_mem_cons, hsize, true_and]
        rw [straight_cons here hn] at hend ⊢
        by_cases hnames : names = []
        · subst hnames
          simpa using findFrom_last hn hsize hend
        · have hfirst := hdirectory [n] (List.prefix_append [n] names)
            (by simpa using Ne.symm hnames)
          rw [straight_cons here hn, straight_nil] at hfirst
          rw [findFrom_down hn hsize hfirst]
          refine ih (fun before hpre hne => ?_) hend
          rw [← straight_cons here hn]
          exact hdirectory (n :: before) (List.cons_prefix_cons.mpr ⟨rfl, hpre⟩) (by simpa)
      · rw [if_neg fun hall => hsize (hall n List.mem_cons_self), findFrom, if_neg hn,
          if_pos (Nat.lt_of_not_le hsize)]

theorem find_of_directories (follow : Bool) {p : Path} (hsteps : (".." : Text) ∉ p.names)
    (hdirectory : ∀ before, before <+: p.names → before ≠ p.names → t.get? before = some .directory)
    (hend : follow = true → ∀ x, t.get? p.names ≠ some (.link x)) :
    (∃ e, t.find follow p = .error e ∧ (e = .nameTooLong ∨ e = .nullInName)) ∨
      t.find follow p = .ok (p.names, t.get? p.names) := by
  have hstraight {before : List Text} (hpre : before <+: p.names) : straight [] before = before :=
    straight_of_not_mem [] fun hmem => hsteps (hpre.subset hmem)
  rw [find]
  split
  · exact .inl ⟨_, rfl, .inr rfl⟩
  · split
    · exact .inl ⟨_, rfl, .inl rfl⟩
    · rw [findFrom_straight (fun before hpre hne => by rw [hstraight hpre, hdirectory before hpre hne])
        (by rwa [hstraight (List.prefix_refl _)]), hstraight (List.prefix_refl _)]
      split
      · exact .inr rfl
      · exact .inl ⟨_, rfl, .inl rfl⟩

/-- What is found without following a link in the end is also found with doing so, unless it is a
link. -/
theorem find_follow {p : Path} {x : Option Entry} (h : t.find false p = .ok (l, x))
    (hx : ∀ y, x ≠ some (.link y)) : t.find true p = .ok (l, x) := by
  rw [find] at h ⊢
  split at h
  · cases h
  rename_i hnull
  split at h
  · cases h
  · rename_i hsize
    rw [if_neg hnull, if_neg hsize]
    generalize maxLinks = links, ([] : Location) = here, p.names = names at h
    fun_induction findFrom t false links here names with
    | case1 => rw [findFrom]; exact h
    | case2 links here rest ih => rw [findFrom, if_pos rfl]; exact ih h
    | case4 links here name rest hname hsize next hnext hrest =>
      rw [findFrom, if_neg hname, if_neg hsize]
      simp only [next, hnext, hrest] at h ⊢
      exact h
    | case6 links here name rest hname hsize next hnext ih =>
      rw [findFrom, if_neg hname, if_neg hsize]
      simp only [next, hnext]
      exact ih h
    | case7 links here name rest hname hsize next bytes mode hnext hrest =>
      rw [findFrom, if_neg hname, if_neg hsize]
      simp only [next, hnext, hrest] at h ⊢
      exact h
    | case9 links here name rest hname hsize next target hnext hrest =>
      exact absurd (Prod.mk.inj (Except.ok.inj h)).2.symm (hx target)
    | case11 here name rest hname hsize next target hnext hrest links p ih =>
      rw [findFrom, if_neg hname, if_neg hsize]
      simp only [next, hnext, Bool.not_true, Bool.and_false, Bool.false_eq_true, if_false]
      exact ih h
    | case3 | case5 | case8 | case10 => cases h

theorem readNames_eq_ok {p : Path} {names : List Text} (h : t.readNames p = .ok names) :
    ∃ l, t.find true p = .ok (l, some .directory) ∧ names = t.namesIn l := by
  rw [readNames] at h
  cases hfind : t.find true p with
  | error e => simp [hfind, bind, Except.bind] at h
  | ok found =>
    obtain ⟨l, x⟩ := found
    simp only [hfind, bind, Except.bind] at h
    split at h
    · rename_i heq
      obtain ⟨rfl, rfl⟩ := Prod.mk.inj heq
      exact ⟨l, rfl, (Except.ok.inj h).symm⟩
    · cases h
    · cases h

theorem readBytes_eq_ok {p : Path} {bytes : List UInt8} {mode : Nat}
    (h : t.find true p = .ok (l, some (.file bytes mode))) : t.readBytes p = .ok bytes := by
  simp [readBytes, h, bind, Except.bind, pure, Except.pure]

/-- A place that can be reached by its names alone: no link stands on the way or at its end. -/
structure Resolved (t : FileTree) (l : Location) : Prop where
  steps : (".." : Text) ∉ l
  link : ∀ before, before <+: l → ∀ x, t.get? before ≠ some (.link x)

private theorem resolved_of_resolveFrom {links : Nat} {here : Location} {names : List Text}
    (h : t.resolveFrom links here names = .ok l) (hhere : t.Resolved here) : t.Resolved l := by
  have hnil : t.Resolved [] := ⟨by simp, fun before hpre => by simp [List.prefix_nil.mp hpre]⟩
  fun_induction resolveFrom t links here names with
  | case1 => cases h; exact hhere
  | case2 links here rest ih =>
    have hpre := List.dropLast_prefix here
    exact ih h ⟨fun hmem => hhere.steps (hpre.subset hmem),
      fun before hb => hhere.link before (hb.trans hpre)⟩
  | case3 => cases h
  | case4 here name rest hname target hget links p ih =>
    refine ih h ?_
    split
    · exact hhere
    · exact hnil
  | case5 links here name rest hname hget ih =>
    refine ih h ⟨by simp [hhere.steps, Ne.symm hname], fun before hb x hx => ?_⟩
    obtain hb | rfl := List.prefix_concat_iff.mp hb |>.symm
    · exact hhere.link before hb x hx
    · exact hget x hx

theorem resolved_of_resolve {p q : Path} (h : t.resolve p = .ok q) :
    q.root = 1 ∧ t.Resolved q.names := by
  rw [resolve] at h
  split at h
  · cases h
  cases hl : t.resolveFrom maxLinks [] p.names with
  | error e => simp [hl, Except.map] at h
  | ok l =>
    simp only [hl, Except.map, Except.ok.injEq] at h
    subst h
    exact ⟨rfl, resolved_of_resolveFrom hl
      ⟨by simp, fun before hpre => by simp [List.prefix_nil.mp hpre]⟩⟩

theorem Resolved.clear (h : t.Resolved l) : t.Clear [] l := by
  intro before hpre _
  rw [straight_of_not_mem [] fun hmem => h.steps (hpre.subset hmem), List.nil_append]
  exact h.link before hpre

/-- A resolved path to a directory leads through directories. -/
theorem Resolved.directory {p : Path} (h : t.Resolved p.names) (hdirectory : t.isDirectory p = true)
    {before : List Text} (hpre : before <+: p.names) : t.get? before = some .directory := by
  rw [isDirectory] at hdirectory
  split at hdirectory
  · rename_i l hfind
    obtain ⟨way, hl⟩ := way_of_find hfind
    have hstraight : straight [] p.names = p.names := straight_of_not_mem [] h.steps
    have heq : l = p.names := by
      have hend := h.link p.names (List.prefix_refl _)
      rw [way.eq_straight h.clear (fun _ => by rwa [hstraight]), hstraight]
    have hroot : ∀ before : Location, before <+: [] → t.get? before = some .directory :=
      fun before hpre => by simp [List.prefix_nil.mp hpre]
    subst heq
    by_cases hall : before = p.names
    · rw [hall, ← hl]
    · exact (way.directories hroot).1 before hpre hall
  · cases hdirectory

/-- A way that leads to a place still leads there, if at all, once a file has been put there and
others have been taken away. -/
theorem Way.eq_of_file {here : Location} {names : List Text} {m : Location}
    (h : t.Way false here names l) (h' : t'.Way true here names m)
    (hfile : ∃ bytes mode, t'.get? l = some (.file bytes mode))
    (hsame : ∀ k, k ≠ l → t'.get? k = t.get? k ∨ ∃ bytes mode, t.get? k = some (.file bytes mode)) :
    m = l := by
  obtain ⟨bytes, mode, hfile⟩ := hfile
  have hkept {k : Location} {e : Entry} (hk : t'.get? k = some e)
      (he : e = .directory ∨ ∃ x, e = .link x) :
      t.get? k = some e ∨ ∃ bytes mode, t.get? k = some (.file bytes mode) := by
    have hne : k ≠ l := by
      rintro rfl
      rw [hfile] at hk
      obtain rfl | ⟨x, rfl⟩ := he <;> cases hk
    exact (hsame k hne).imp (fun hs => by rwa [← hs]) id
  induction h with
  | stop => cases h'; rfl
  | up _ ih =>
    cases h' with
    | up way' => exact ih way' hsame hfile
    | last hname => exact absurd rfl hname
    | down hname => exact absurd rfl hname
    | link hname => exact absurd rfl hname
  | last hname hdirectory =>
    cases h' with
    | up => exact absurd rfl hname
    | last => rfl
    | down _ hdirectory' => rw [hfile] at hdirectory'; cases hdirectory'
    | link _ hlink' => rw [hfile] at hlink'; cases hlink'
  | down hname hdirectory way ih =>
    cases h' with
    | up => exact absurd rfl hname
    | last => cases way; rfl
    | down _ _ way' => exact ih way' hsame hfile
    | link _ hlink' =>
      obtain hk | ⟨_, _, hk⟩ := hkept hlink' (.inr ⟨_, rfl⟩)
      · rw [hdirectory] at hk; cases hk
      · rw [hdirectory] at hk; cases hk
  | link hname hlink hfollow way ih =>
    cases h' with
    | up => exact absurd rfl hname
    | last => exact absurd (hfollow rfl) Bool.false_ne_true
    | down _ hdirectory' =>
      obtain hk | ⟨_, _, hk⟩ := hkept hdirectory' (.inl rfl)
      · rw [hlink] at hk; cases hk
      · rw [hlink] at hk; cases hk
    | link _ hlink' _ way' =>
      obtain hk | ⟨_, _, hk⟩ := hkept hlink' (.inr ⟨_, rfl⟩)
      · rw [hlink] at hk
        cases hk
        exact ih way' hsame hfile
      · rw [hlink] at hk; cases hk

end FileTree
end LocaleLift
