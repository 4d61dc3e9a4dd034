import LocaleLift.Proofs.Files.Write
import LocaleLift.Proofs.Text.Boundary

/-! Directories that can be made where a path leads, and files that can be written in them. -/
namespace LocaleLift

/-- A path that is refused neither for its length nor for a null character. -/
structure Path.Fits (p : Path) : Prop where
  noNull : p.hasNull = false
  path : Utf8.size p.toText ≤ FileTree.maxPath
  name : ∀ n ∈ p.names, Utf8.size n ≤ FileTree.maxName

private theorem Text.join_prefix (separator : Text) {ts us : List Text} (h : ts <+: us) :
    join separator ts <+: join separator us := by
  obtain ⟨rest, rfl⟩ := h
  induction ts with
  | nil => exact List.nil_prefix
  | cons t ts ih =>
    cases ts with
    | nil =>
      cases rest with
      | nil => exact List.prefix_refl _
      | cons u rest => exact ⟨separator ++ join separator (u :: rest), by simp [join, List.intercalate]⟩
    | cons u ts =>
      have hcons (ts : List Text) :
          join separator (t :: u :: ts) = t ++ separator ++ join separator (u :: ts) := by
        simp [join, List.intercalate]
      rw [List.cons_append, List.cons_append, hcons, hcons]
      exact (List.prefix_append_right_inj _).mpr ih

/-- The paths above a path that fits do so, too. -/
theorem Path.Fits.above {root : Nat} {names before : List Text} (h : Path.Fits ⟨root, names⟩)
    (hpre : before <+: names) : Path.Fits ⟨root, before⟩ where
  noNull := by
    have hnull := h.noNull
    rw [hasNull, List.any_eq_false] at hnull ⊢
    exact fun n hn => hnull n (hpre.subset hn)
  path := by
    by_cases hroot : root = 0 ∧ before = []
    · obtain ⟨rfl, rfl⟩ := hroot
      decide
    · have hbefore : ¬ (decide (root = 0) && before.isEmpty) = true := by simpa using hroot
      have hnames : ¬ (decide (root = 0) && names.isEmpty) = true := by
        simp only [Bool.and_eq_true, decide_eq_true_eq, List.isEmpty_iff]
        rintro ⟨rfl, rfl⟩
        exact hroot ⟨rfl, List.prefix_nil.mp hpre⟩
      have hpath := h.path
      obtain ⟨rest, hrest⟩ := Text.join_prefix "/" hpre
      rw [toText, if_neg hnames, ← hrest, ← List.append_assoc, Utf8.size_append] at hpath
      rw [toText, if_neg hbefore]
      dsimp only at hpath ⊢
      omega
  name n hn := h.name n (hpre.subset hn)

namespace FileTree

variable {t t' : FileTree} {l here : Location} {names rest : List Text} {follow : Bool} {links : Nat}

theorem find_eq_ok_iff {p : Path} {found : Location × Option Entry} :
    t.find follow p = .ok found ↔
      p.hasNull = false ∧ Utf8.size p.toText ≤ maxPath ∧
        t.findFrom follow maxLinks [] p.names = .ok found := by
  rw [find]
  split
  · rename_i hnull
    simp [hnull]
  · rename_i hnull
    split
    · rename_i hsize
      simp [Nat.not_le.mpr hsize]
    · rename_i hsize
      simp [hnull, Nat.not_lt.mp hsize]

theorem find_of_fits {p : Path} (h : p.Fits) (follow : Bool) :
    t.find follow p = t.findFrom follow maxLinks [] p.names := by
  rw [find, if_neg (by simp [h.noNull]), if_neg (Nat.not_lt.mpr h.path)]

/-- How names lead from a location to a directory, with a number of links that may be followed. -/
inductive Finds (t : FileTree) : Nat → Location → List Text → Location → Prop
  | stop {links : Nat} {here : Location} (hdirectory : t.get? here = some .directory) :
      Finds t links here [] here
  | up {links : Nat} {here l : Location} {names : List Text}
      (hfinds : Finds t links here.dropLast names l) : Finds t links here (".." :: names) l
  | down {links : Nat} {here l : Location} {name : Text} {names : List Text} (hname : name ≠ "..")
      (hsize : Utf8.size name ≤ maxName) (hdirectory : t.get? (here ++ [name]) = some .directory)
      (hfinds : Finds t links (here ++ [name]) names l) : Finds t links here (name :: names) l
  | link {links : Nat} {here l : Location} {name target : Text} {names : List Text}
      (hname : name ≠ "..") (hsize : Utf8.size name ≤ maxName)
      (hlink : t.get? (here ++ [name]) = some (.link target))
      (hfinds : Finds t links (if (Path.ofText target).root = 0 then here else [])
        ((Path.ofText target).names ++ names) l) : Finds t (links + 1) here (name :: names) l

private theorem finds_of_findFrom
    (h : t.findFrom true links here names = .ok (l, some .directory)) :
    t.Finds links here names l := by
  fun_induction findFrom t true links here names with
  | case1 =>
    obtain ⟨rfl, hdirectory⟩ := Prod.mk.inj (Except.ok.inj h)
    exact .stop hdirectory
  | case2 _ _ _ ih => exact .up (ih h)
  | case6 _ _ _ _ hname hsize _ hnext ih => exact .down hname (Nat.not_lt.mp hsize) hnext (ih h)
  | case11 _ _ _ hname hsize _ _ hnext _ _ _ ih =>
    exact .link hname (Nat.not_lt.mp hsize) hnext (ih h)
  | case4 | case7 | case9 => exact absurd (Prod.mk.inj (Except.ok.inj h)).2 (by simp)
  | case3 | case5 | case8 | case10 => cases h

private theorem findFrom_link {name target : Text} {left : Nat} (hname : name ≠ "..")
    (hsize : Utf8.size name ≤ maxName) (hlink : t.get? (here ++ [name]) = some (.link target))
    (hfollow : (rest.isEmpty && !follow) = false) :
    t.findFrom follow (left + 1) here (name :: rest) =
      t.findFrom follow left (if (Path.ofText target).root = 0 then here else [])
        ((Path.ofText target).names ++ rest) := by
  rw [findFrom, if_neg hname, if_neg (Nat.not_lt.mpr hsize)]
  simp only [hlink, hfollow, Bool.false_eq_true, if_false]

private theorem findFrom_of_finds (h : t.Finds links here names l) :
    t.findFrom true links here names = .ok (l, some .directory) := by
  induction h with
  | stop hdirectory => rw [findFrom, hdirectory]
  | up _ ih => rw [findFrom_up, ih]
  | down hname hsize hdirectory _ ih => rw [findFrom_down hname hsize hdirectory, ih]
  | link hname hsize hlink _ ih => rw [findFrom_link hname hsize hlink (by simp), ih]

/-- Names behind those that lead to a directory are followed from there. -/
private theorem Finds.findFrom_append (h : t.Finds links here names l) (hrest : rest ≠ [])
    (follow : Bool) :
    ∃ left, t.findFrom follow links here (names ++ rest) = t.findFrom follow left l rest := by
  induction h with
  | stop => exact ⟨_, rfl⟩
  | up _ ih => simpa [findFrom_up] using ih
  | down hname hsize hdirectory _ ih =>
    simpa [findFrom_down hname hsize hdirectory] using ih
  | @link links here l name target names hname hsize hlink _ ih =>
    have hfollow : ((names ++ rest).isEmpty && !follow) = false := by simp [hrest]
    rw [List.append_assoc] at ih
    simpa only [List.cons_append, findFrom_link hname hsize hlink hfollow] using ih

/-- If a link is followed in the end, something is there also without doing so. -/
private theorem Finds.unfollowed (h : t.Finds links here names l) :
    ∃ m e, t.findFrom false links here names = .ok (m, some e) := by
  induction h with
  | @stop links here hdirectory => exact ⟨here, .directory, by rw [findFrom, hdirectory]⟩
  | up _ ih => simpa [findFrom_up] using ih
  | down hname hsize hdirectory _ ih =>
    simpa [findFrom_down hname hsize hdirectory] using ih
  | @link links here l name target names hname hsize hlink _ ih =>
    by_cases hnames : names = []
    · subst hnames
      refine ⟨here ++ [name], .link target, ?_⟩
      rw [findFrom, if_neg hname, if_neg (Nat.not_lt.mpr hsize)]
      simp [hlink]
    · have hfollow : (names.isEmpty && !false) = false := by simp [hnames]
      simpa only [findFrom_link hname hsize hlink hfollow] using ih

/-- Names still lead to a directory if no link on the way has given way to a file. -/
private theorem Finds.of_changes {files made : Location → Prop} (h : t.Finds links here names l)
    (hc : Changes files made t t')
    (hlink : ∀ k x, files k → t.get? k = some (.link x) →
      (t.set k (.file [] 0)).Finds links here names l) : t'.Finds links here names l := by
  have hset {k : Location} {x : Text} (hx : t.get? k = some (.link x)) (m : Location) :
      (t.set k (.file [] 0)).get? m = if m = k then some (.file [] 0) else t.get? m := by
    refine get?_set ?_
    rintro rfl
    cases hx
  induction h with
  | stop hdirectory => exact .stop (hc.directory _ hdirectory)
  | up _ ih =>
    refine .up (ih fun k x hk hx => ?_)
    cases hlink k x hk hx with
    | up hfinds => exact hfinds
    | down hname => exact absurd rfl hname
    | link hname => exact absurd rfl hname
  | @down links here l name names hname hsize hdirectory _ ih =>
    refine .down hname hsize (hc.directory _ hdirectory) (ih fun k x hk hx => ?_)
    have hne : here ++ [name] ≠ k := by
      rintro rfl
      rw [hdirectory] at hx
      cases hx
    cases hlink k x hk hx with
    | up => exact absurd rfl hname
    | down _ _ _ hfinds => exact hfinds
    | link _ _ hget => simp [hset hx, hne, hdirectory] at hget
  | @link links here l name target names hname hsize hget _ ih =>
    -- where a file has been put in place of this link, nothing more can be found
    have hnot : ¬ files (here ++ [name]) := by
      intro hfile
      cases hlink _ target hfile hget with
      | up => exact hname rfl
      | down _ _ hdirectory => simp [hset hget] at hdirectory
      | link _ _ hlink => simp [hset hget] at hlink
    have hget' : t'.get? (here ++ [name]) = some (.link target) := by
      obtain hs | ⟨-, hn, -⟩ := hc.kept _ hnot
      · rw [hs, hget]
      · rw [hget] at hn
        cases hn
    refine .link hname hsize hget' (ih fun k x hk hx => ?_)
    have hne : here ++ [name] ≠ k := by
      rintro rfl
      exact hnot hk
    cases hlink k x hk hx with
    | up => exact absurd rfl hname
    | down _ _ hdirectory => simp [hset hx, hne, hget] at hdirectory
    | link _ _ hlink hfinds =>
      rw [hset hx, if_neg hne, hget] at hlink
      cases hlink
      exact hfinds

/-- A path still leads to a directory if no link on the way has given way to a file. -/
theorem find_of_changes {files made : Location → Prop} {p : Path} (hc : Changes files made t t')
    (h : t.find true p = .ok (l, some .directory))
    (hlink : ∀ k x, files k → t.get? k = some (.link x) →
      (t.set k (.file [] 0)).find true p = .ok (l, some .directory)) :
    t'.find true p = .ok (l, some .directory) := by
  obtain ⟨hnull, hsize, hfind⟩ := find_eq_ok_iff.mp h
  refine find_eq_ok_iff.mpr ⟨hnull, hsize, findFrom_of_finds ?_⟩
  refine (finds_of_findFrom hfind).of_changes hc fun k x hk hx => ?_
  exact finds_of_findFrom (find_eq_ok_iff.mp (hlink k x hk hx)).2.2

/-- Names between directories and missing places lead to directories, or something is missing. -/
private theorem findFrom_passable (follow : Bool) (links : Nat)
    (hfits : ∀ n ∈ names, Utf8.size n ≤ maxName)
    (hhere : ∀ before, before <+: here → t.get? before = some .directory)
    (hpass : ∀ before, before <+: names → ∀ e, t.get? (straight here before) = some e →
      e = .directory) :
    (∀ before, before <+: names → before ≠ names →
      t.get? (straight here before) = some .directory) ∨
    t.findFrom follow links here names = .error .missing := by
  induction names generalizing here with
  | nil => exact .inl fun before hpre hne => absurd (List.prefix_nil.mp hpre) hne
  | cons n names ih =>
    obtain ⟨hsize, hfits⟩ := List.forall_mem_cons.mp hfits
    have hcons (here' : Location)
        (hstraight : ∀ before, straight here (n :: before) = straight here' before)
        (hall : ∀ before, before <+: names → before ≠ names →
          t.get? (straight here' before) = some .directory) (before : List Text)
        (hpre : before <+: n :: names) (hne : before ≠ n :: names) :
        t.get? (straight here before) = some .directory := by
      cases before with
      | nil => exact hhere here (List.prefix_refl _)
      | cons m before =>
        obtain ⟨rfl, hrest⟩ := List.cons_prefix_cons.mp hpre
        rw [hstraight]
        exact hall before hrest (by simpa using hne)
    by_cases hn : n = ".."
    · subst hn
      rw [findFrom_up]
      refine (ih (by assumption)
        (fun before hpre => hhere before (hpre.trans (List.dropLast_prefix here)))
        fun before hpre => hpass (".." :: before) (List.cons_prefix_cons.mpr ⟨rfl, hpre⟩)).imp_left ?_
      exact hcons here.dropLast (straight_up here)
    · have hnext := hpass [n] (List.prefix_append [n] names)
      rw [straight_cons here hn, straight_nil] at hnext
      cases hget : t.get? (here ++ [n]) with
      | none =>
        by_cases hnames : names = []
        · subst hnames
          refine .inl (hcons (here ++ [n]) (straight_cons here hn) fun before hpre hne => ?_)
          exact absurd (List.prefix_nil.mp hpre) hne
        · right
          rw [findFrom, if_neg hn, if_neg (Nat.not_lt.mpr hsize)]
          simp [hget, hnames]
      | some e =>
        rw [hnext e hget] at hget
        rw [findFrom_down hn hsize hget]
        refine (ih hfits (fun before hpre => ?_) fun before hpre => ?_).imp_left
          (hcons (here ++ [n]) (straight_cons here hn))
        · obtain rfl | hpre := List.prefix_concat_iff.mp hpre
          · exact hget
          · exact hhere before hpre
        · rw [← straight_cons here hn]
          exact hpass (n :: before) (List.cons_prefix_cons.mpr ⟨rfl, hpre⟩)

/-- A way to a directory: an outer path to one that is there, and the names from there on, between
which no link stands. -/
structure Site where
  outer : Path
  here : Location
  names : List Text

namespace Site

variable {s : Site}

def path (s : Site) : Path :=
  ⟨s.outer.root, s.outer.names ++ s.names⟩

def place (s : Site) : Location :=
  straight s.here s.names

/-- A place on the way from the outer directory on. -/
def Passes (s : Site) (l : Location) : Prop :=
  ∃ before, before <+: s.names ∧ l = straight s.here before

/-- The directory can be made: whatever stands on the way is a directory. -/
structure IsOpen (s : Site) (t : FileTree) : Prop where
  outer : t.find true s.outer = .ok (s.here, some .directory)
  passable : ∀ l, s.Passes l → ∀ e, t.get? l = some e → e = .directory

/-- The directory and all on the way to it are there. -/
structure Stands (s : Site) (t : FileTree) : Prop where
  outer : t.find true s.outer = .ok (s.here, some .directory)
  directory : ∀ l, s.Passes l → t.get? l = some .directory

/-- A file can be written in the directory: it is not refused for its length, and it neither stands
where a directory is nor on the way to itself. -/
structure Takes (s : Site) (t : FileTree) (n : Text) : Prop where
  isOpen : s.IsOpen t
  fits : (s.path.child n).Fits
  temporary : Utf8.size s.path.toText + FileM.temporarySize ≤ maxPath
  entry : t.get? (s.place ++ [n]) ≠ some .directory
  apart : s.IsOpen (t.set (s.place ++ [n]) (.file [] 0))

theorem IsOpen.not_passes (h : s.IsOpen (t.set l (.file [] 0))) (hl : l ≠ []) : ¬ s.Passes l := by
  intro hpasses
  have hdirectory := h.passable l hpasses (.file [] 0) (by rw [get?_set hl, if_pos rfl])
  cases hdirectory

/-- Without steps upwards, a file can be written where a file is or nothing. -/
theorem IsOpen.takes {n : Text} (h : s.IsOpen t) (hsteps : (".." : Text) ∉ s.names)
    (hfits : (s.path.child n).Fits)
    (htemporary : Utf8.size s.path.toText + FileM.temporarySize ≤ maxPath)
    (hfile : ∀ e, t.get? (s.place ++ [n]) = some e → ∃ bytes mode, e = .file bytes mode) :
    s.Takes t n := by
  have hpasses : ¬ s.Passes (s.place ++ [n]) := by
    rintro ⟨before, hpre, heq⟩
    have hbefore : (".." : Text) ∉ before := fun hmem => hsteps (hpre.subset hmem)
    rw [place, straight_of_not_mem _ hsteps, straight_of_not_mem _ hbefore] at heq
    have hlength := congrArg List.length heq
    have hle := hpre.length_le
    simp only [List.length_append, List.length_cons] at hlength
    omega
  have hentry : t.get? (s.place ++ [n]) ≠ some .directory := by
    intro hd
    obtain ⟨_, _, he⟩ := hfile _ hd
    cases he
  have hset : Changes (· = s.place ++ [n]) (fun _ => False) t
      (t.set (s.place ++ [n]) (.file [] 0)) := .set_file hentry
  refine ⟨h, hfits, htemporary, hentry, find_of_changes hset h.outer fun k x hk hx => ?_,
    fun l hl e he => h.passable l hl e ?_⟩
  · obtain ⟨_, _, he⟩ := hfile _ (hk ▸ hx)
    cases he
  · have hne : l ≠ s.place ++ [n] := by
      rintro rfl
      exact hpasses hl
    rwa [get?_set (by simp), if_neg hne] at he

section Changes

variable {files made : Location → Prop}

/-- A way stays open as long as no file comes to stand on it. -/
theorem IsOpen.of_changes (h : s.IsOpen t) (hc : Changes files made t t')
    (hf : ∀ l, files l → (t.bytes? l).isSome ∨ s.IsOpen (t.set l (.file [] 0))) : s.IsOpen t' where
  outer := by
    refine find_of_changes hc h.outer fun k x hk hx => ?_
    obtain hfile | hopen := hf k hk
    · simp [bytes?, hx] at hfile
    · exact hopen.outer
  passable l hl e he := by
    by_cases hfile : files l
    · obtain hfile | hopen := hf l hfile
      · obtain ⟨bytes, hbytes⟩ := Option.isSome_iff_exists.mp hfile
        obtain ⟨mode, hget⟩ := bytes?_eq_some.mp hbytes
        exact absurd (h.passable l hl _ hget) (by simp)
      · by_cases hnil : l = []
        · subst hnil
          exact (Option.some.inj he).symm
        · exact absurd hl (hopen.not_passes hnil)
    · obtain hs | ⟨-, -, hd⟩ := hc.kept l hfile
      · exact h.passable l hl e (by rw [← hs, he])
      · rw [hd] at he
        exact (Option.some.inj he).symm

/-- A file can still be written as long as no directory is made in its place and no other file there
or on the way to it. -/
theorem Takes.of_changes {n : Text} (h : s.Takes t n) (hc : Changes files made t t')
    (hf : ∀ l, files l → (t.bytes? l).isSome ∨ s.IsOpen (t.set l (.file [] 0)))
    (hfile : files (s.place ++ [n]) → (t.bytes? (s.place ++ [n])).isSome)
    (hmade : ¬ made (s.place ++ [n])) : s.Takes t' n := by
  have hentry : t'.get? (s.place ++ [n]) ≠ some .directory := by
    by_cases hplace : files (s.place ++ [n])
    · obtain ⟨bytes, hbytes⟩ := Option.isSome_iff_exists.mp (hc.file _ (hfile hplace))
      obtain ⟨mode, hget⟩ := bytes?_eq_some.mp hbytes
      simp [hget]
    · obtain hs | ⟨hm, -, -⟩ := hc.kept _ hplace
      · rw [hs]
        exact h.entry
      · exact absurd hm hmade
  refine ⟨h.isOpen.of_changes hc hf, h.fits, h.temporary, hentry, ?_⟩
  have hset : Changes (fun l => files l ∨ l = s.place ++ [n]) made t
      (t'.set (s.place ++ [n]) (.file [] 0)) :=
    (hc.mono (fun _ => .inl) fun _ => id).trans
      ((Changes.set_file hentry).mono (fun _ => .inr) fun _ => id)
  refine h.isOpen.of_changes hset fun l hl => ?_
  obtain hl | rfl := hl
  · exact hf l hl
  · exact .inr h.apart

/-- A directory stays as long as no file takes the place of a link that leads to it. -/
theorem Stands.of_changes (h : s.Stands t) (hc : Changes files made t t')
    (hf : ∀ l x, files l → t.get? l = some (.link x) → s.IsOpen (t.set l (.file [] 0))) :
    s.Stands t' where
  outer := find_of_changes hc h.outer fun k x hk hx => (hf k x hk hx).outer
  directory l hl := hc.directory l (h.directory l hl)

end Changes

theorem passes_place (s : Site) : s.Passes s.place :=
  ⟨s.names, List.prefix_refl _, rfl⟩

theorem IsOpen.above (h : s.IsOpen t) (before : Location) (hpre : before <+: s.here) :
    t.get? before = some .directory := by
  obtain ⟨way, hget⟩ := way_of_find h.outer
  have hroot : ∀ before : Location, before <+: [] → t.get? before = some .directory :=
    fun before hpre => by simp [List.prefix_nil.mp hpre]
  by_cases hall : before = s.here
  · rw [hall, ← hget]
  · exact (way.directories hroot).1 before hpre hall

/-- What is found along some of the names if all before the last one lead to directories. -/
theorem find_of_directories (follow : Bool) {names : List Text}
    (houter : t.find true s.outer = .ok (s.here, some .directory)) (hnames : names ≠ [])
    (hfits : Path.Fits ⟨s.outer.root, s.outer.names ++ names⟩)
    (hdirectory : ∀ before, before <+: names → before ≠ names →
      t.get? (straight s.here before) = some .directory)
    (hend : follow = true → ∀ x, t.get? (straight s.here names) ≠ some (.link x)) :
    t.find follow ⟨s.outer.root, s.outer.names ++ names⟩ =
      .ok (straight s.here names, t.get? (straight s.here names)) := by
  obtain ⟨-, -, hfind⟩ := find_eq_ok_iff.mp houter
  obtain ⟨left, hleft⟩ := (finds_of_findFrom hfind).findFrom_append hnames follow
  have hnames : ∀ n ∈ names, Utf8.size n ≤ maxName :=
    fun n hn => hfits.name n (List.mem_append_right _ hn)
  rw [find_of_fits hfits, hleft, findFrom_straight hdirectory hend, if_pos hnames]

/-- The whole path leads to the directory. -/
theorem Stands.find (h : s.Stands t) (hfits : s.path.Fits) :
    t.find true s.path = .ok (s.place, some .directory) := by
  have hplace := h.directory _ s.passes_place
  by_cases hnames : s.names = []
  · rw [place, hnames, straight_nil, path, hnames, List.append_nil]
    exact h.outer
  · rw [path, find_of_directories _ h.outer hnames hfits
      (fun before hpre _ => h.directory _ ⟨before, hpre, rfl⟩) fun _ x hx => ?_]
    · exact congrArg (fun x => Except.ok (s.place, x)) hplace
    · rw [place] at hplace
      rw [hplace] at hx
      cases hx

/-- A path leads to an entry of the directory. -/
theorem Stands.find_child (follow : Bool) {n : Text} (h : s.Stands t) (hn : n ≠ "..")
    (hfits : (s.path.child n).Fits)
    (hend : follow = true → ∀ x, t.get? (s.place ++ [n]) ≠ some (.link x)) :
    t.find follow (s.path.child n) = .ok (s.place ++ [n], t.get? (s.place ++ [n])) := by
  have hplace : straight s.here (s.names ++ [n]) = s.place ++ [n] := by
    rw [straight_append, straight_cons _ hn, straight_nil, place]
  have hchild : s.path.child n = ⟨s.outer.root, s.outer.names ++ (s.names ++ [n])⟩ := by
    simp [path, Path.child]
  rw [hchild] at hfits ⊢
  rw [find_of_directories _ h.outer (by simp) hfits (fun before hpre hne => ?_) (by rwa [hplace]),
    hplace]
  exact h.directory _ ⟨before, (List.prefix_concat_iff.mp hpre).resolve_left hne, rfl⟩

end Site

end FileTree

namespace FileM

open FileTree

variable {t : FileTree} {p : Path} {l : Location} {s : Site}

private theorem ensureDirectory_of_found (h : t.find true p = .ok (l, some .directory)) :
    After (ensureDirectory p) t (fun _ t' => t' = t) fun _ _ => False := by
  obtain ⟨hnull, hsize, hfind⟩ := find_eq_ok_iff.mp h
  obtain ⟨m, e, hthere⟩ := (finds_of_findFrom hfind).unfollowed
  have hthere : t.find false p = .ok (m, some e) := find_eq_ok_iff.mpr ⟨hnull, hsize, hthere⟩
  have hdirectory : t.isDirectory p = true := by rw [isDirectory, h]
  rw [ensureDirectory, after_tryCatch, makeDirectory, after_bind]
  refine (after_ask_ok hthere).mpr ?_
  rw [after_throw, after_bind, after_get]
  simp [hdirectory]

private theorem ensureDirectory_of_missing (h : t.find false p = .error .missing) :
    After (ensureDirectory p) t (fun _ _ => False) fun e t' => e = .missing ∧ t' = t := by
  rw [ensureDirectory, after_tryCatch, makeDirectory, after_bind]
  refine (after_ask_error h).mpr ?_
  rw [after_bind, after_get]
  simp

private theorem ensureDirectory_of_none (h : t.find false p = .ok (l, none)) :
    After (ensureDirectory p) t (fun _ t' => t' = t.set l .directory) fun _ _ => False := by
  rw [ensureDirectory, after_tryCatch, makeDirectory, after_bind]
  refine (after_ask_ok h).mpr ?_
  rfl

/-- If all before the last name are there, the last one is made. -/
private theorem after_ensureDirectory_last {names : List Text} {n : Text}
    (h : s.IsOpen t) (hnames : names ++ [n] <+: s.names)
    (hfits : Path.Fits ⟨s.outer.root, s.outer.names ++ (names ++ [n])⟩)
    (hdirectory : ∀ before, before <+: names → t.get? (straight s.here before) = some .directory) :
    After (ensureDirectory ⟨s.outer.root, s.outer.names ++ (names ++ [n])⟩) t
      (fun _ t' => Changes (fun _ => False) s.Passes t t' ∧
        ∀ before, before <+: names ++ [n] → t'.get? (straight s.here before) = some .directory)
      fun _ _ => False := by
  have hpasses : s.Passes (straight s.here (names ++ [n])) := ⟨_, hnames, rfl⟩
  have hbefore (before : List Text) (hpre : before <+: names ++ [n]) (hne : before ≠ names ++ [n]) :
      t.get? (straight s.here before) = some .directory :=
    hdirectory before ((List.prefix_concat_iff.mp hpre).resolve_left hne)
  have hfind (follow : Bool) (hend : follow = true → ∀ x,
      t.get? (straight s.here (names ++ [n])) ≠ some (.link x)) :=
    Site.find_of_directories follow h.outer (by simp) hfits hbefore hend
  cases hget : t.get? (straight s.here (names ++ [n])) with
  | none =>
    have hfound := hfind false (by simp)
    rw [hget] at hfound
    refine (ensureDirectory_of_none hfound).imp (fun _ t' h' => ?_) fun _ _ => False.elim
    subst h'
    have hc : Changes (fun _ => False) s.Passes t
        (t.set (straight s.here (names ++ [n])) .directory) := .set_directory hget hpasses
    refine ⟨hc, fun before hpre => ?_⟩
    by_cases hall : before = names ++ [n]
    · have hnil : straight s.here (names ++ [n]) ≠ [] := by
        intro hnil
        rw [hnil] at hget
        cases hget
      rw [hall, get?_set hnil, if_pos rfl]
    · exact hc.directory _ (hbefore before hpre hall)
  | some e =>
    obtain rfl := h.passable _ hpasses e hget
    have hfound := hfind true (by simp [hget])
    rw [hget] at hfound
    refine (ensureDirectory_of_found hfound).imp (fun _ t' h' => ?_) fun _ _ => False.elim
    subst h'
    refine ⟨.refl _, fun before hpre => ?_⟩
    by_cases hall : before = names ++ [n]
    · rw [hall, hget]
    · exact hbefore before hpre hall

private theorem after_ensureFrom_open {above : List Text} (h : s.IsOpen t) (hfits : s.path.Fits)
    (hnames : above.reverse <+: s.names) :
    After (ensureFrom s.outer.root (above ++ s.outer.names.reverse)) t
      (fun _ t' => Changes (fun _ => False) s.Passes t t' ∧
        ∀ before, before <+: above.reverse → t'.get? (straight s.here before) = some .directory)
      fun _ _ => False := by
  induction above with
  | nil =>
    have hhere : After (ensureDirectory s.outer) t (fun _ t' => t' = t) fun _ _ => False :=
      ensureDirectory_of_found h.outer
    have hkept : After (ensureFrom s.outer.root s.outer.names.reverse) t (fun _ t' => t' = t)
        fun _ _ => False := by
      cases hreverse : s.outer.names.reverse with
      | nil =>
        rw [List.reverse_eq_nil_iff] at hreverse
        rw [ensureFrom, ← hreverse]
        exact hhere
      | cons n above =>
        rw [ensureFrom, ← hreverse, List.reverse_reverse, after_tryCatch]
        exact hhere.imp (fun _ _ h => h) fun _ _ => False.elim
    refine hkept.imp (fun _ t' h' => ?_) fun _ _ => False.elim
    subst h'
    refine ⟨.refl _, fun before hpre => ?_⟩
    rw [List.prefix_nil.mp hpre, straight_nil]
    exact h.above _ (List.prefix_refl _)
  | cons n above ih =>
    rw [List.reverse_cons] at hnames ⊢
    have hpath : (n :: (above ++ s.outer.names.reverse)).reverse =
        s.outer.names ++ (above.reverse ++ [n]) := by simp
    have hfits' : Path.Fits ⟨s.outer.root, s.outer.names ++ (above.reverse ++ [n])⟩ :=
      hfits.above ((List.prefix_append_right_inj _).mpr hnames)
    have hpass (before : List Text) (hpre : before <+: above.reverse ++ [n]) (e : Entry)
        (he : t.get? (straight s.here before) = some e) : e = .directory :=
      h.passable _ ⟨before, hpre.trans hnames, rfl⟩ e he
    obtain ⟨-, -, houter⟩ := find_eq_ok_iff.mp h.outer
    have hrest : above.reverse ++ [n] ≠ [] := by simp
    obtain ⟨left, hleft⟩ := (finds_of_findFrom houter).findFrom_append hrest false
    rw [List.cons_append, ensureFrom, hpath, after_tryCatch]
    obtain hall | hmissing := findFrom_passable false left
      (fun m hm => hfits'.name m (List.mem_append_right _ hm)) h.above hpass
    · have hall (before : List Text) (hpre : before <+: above.reverse) :
          t.get? (straight s.here before) = some .directory := by
        refine hall before (hpre.trans (List.prefix_append _ _)) ?_
        rintro rfl
        exact absurd hpre.length_le (by simp)
      exact (after_ensureDirectory_last h hnames hfits' hall).imp (fun _ _ h => h) fun _ _ =>
        False.elim
    · have hfind : t.find false ⟨s.outer.root, s.outer.names ++ (above.reverse ++ [n])⟩ =
          .error .missing := by
        rw [find_of_fits hfits', hleft, hmissing]
      refine (ensureDirectory_of_missing hfind).imp (fun _ _ => False.elim) fun e t' h' => ?_
      obtain ⟨rfl, rfl⟩ := h'
      rw [if_pos rfl, after_bind]
      refine (ih ((List.prefix_append _ _).trans hnames)).imp (fun _ t' h' => ?_) fun _ _ => id
      obtain ⟨hc, hdirectory⟩ := h'
      refine (after_ensureDirectory_last (h.of_changes hc fun _ => False.elim) hnames hfits'
        hdirectory).imp (fun _ _ h'' => ?_) fun _ _ => id
      exact ⟨hc.trans h''.1, h''.2⟩

/-- A directory is made if the way to it is open. -/
theorem after_ensureDirectories_open (h : s.IsOpen t) (hfits : s.path.Fits) :
    After (ensureDirectories s.path) t
      (fun _ t' => Changes (fun _ => False) s.Passes t t' ∧ s.Stands t') fun _ _ => False := by
  have hreverse : s.path.names.reverse = s.names.reverse ++ s.outer.names.reverse :=
    List.reverse_append ..
  have hnames : s.names.reverse.reverse = s.names := List.reverse_reverse _
  rw [ensureDirectories, hreverse]
  refine (after_ensureFrom_open h hfits (by simp)).imp (fun _ t' h' => ?_) fun _ _ => id
  obtain ⟨hc, hdirectory⟩ := h'
  rw [hnames] at hdirectory
  refine ⟨hc, (h.of_changes hc fun _ => False.elim).outer, ?_⟩
  rintro l ⟨before, hpre, rfl⟩
  exact hdirectory before hpre

private theorem makeTemporary_of_found (h : t.find true p = .ok (l, some .directory))
    (hsize : Utf8.size p.toText + temporarySize ≤ maxPath) :
    After (makeTemporary p) t
      (fun m t' => m = l ++ [freshName t] ∧ t' = t.set m (.file [] 0o600)) fun _ _ => False := by
  rw [makeTemporary, after_bind]
  refine (after_ask_ok ((if_neg (Nat.not_lt.mpr hsize)).trans h)).mpr ?_
  exact ⟨rfl, rfl⟩

private theorem replace_of_found {temporary : Location} {text : Text} {bytes : List UInt8}
    {x : Option Entry} (htext : Utf8.encode text = some bytes) (hnil : temporary ≠ [])
    (hfind : (t.set temporary (.file bytes 0o600)).find false p = .ok (l, x))
    (hx : x ≠ some .directory) :
    After (replace temporary p text) t (fun m _ => m = l) fun _ _ => False := by
  have hget : (t.set temporary (.file bytes 0o600)).get? temporary = some (.file bytes 0o600) := by
    rw [get?_set hnil, if_pos rfl]
  rw [replace, after_tryCatch, after_bind, fill, htext, after_modify, rename, after_bind]
  refine (after_ask_ok hfind).mpr ?_
  split
  · exact absurd (congrArg Prod.snd (by assumption)) hx
  · rename_i target y _ heq
    obtain ⟨rfl, -⟩ := Prod.mk.inj heq
    rw [after_bind, after_get, hget]
    rfl

private theorem writeText_of_takes {n text : Text} (h : s.Takes t n) (hn : n ≠ "..")
    (htext : text.isEncodable = true) :
    After (writeText (s.path.child n) text) t (fun l _ => l = s.place ++ [n]) fun _ _ => False := by
  obtain ⟨bytes, hbytes⟩ := Utf8.exists_encode_iff.mpr htext
  have hparent : (s.path.child n).parent = s.path := by simp [Path.parent, Path.child]
  have hfits : s.path.Fits := h.fits.above (List.prefix_append _ _)
  rw [writeText, hparent, after_bind]
  refine (after_ensureDirectories_open h.isOpen hfits).imp (fun _ ready hready => ?_) fun _ _ => id
  obtain ⟨hc, hstands⟩ := hready
  rw [after_bind, after_get, after_bind]
  refine (makeTemporary_of_found (hstands.find hfits) h.temporary).imp (fun temporary opened ho => ?_)
    fun _ _ => id
  obtain ⟨htemporary, rfl⟩ := ho
  have hnil : temporary ≠ [] := by simp [htemporary]
  have hnone : ready.get? temporary = none := by rw [htemporary, get?_freshName]
  have hfilled (m : Location) :
      ((ready.set temporary (.file [] 0o600)).set temporary (.file bytes 0o600)).get? m =
        if m = temporary then some (.file bytes 0o600) else ready.get? m := by
    rw [get?_set hnil, get?_set hnil]
    split <;> rfl
  have hstands' : s.Stands
      ((ready.set temporary (.file [] 0o600)).set temporary (.file bytes 0o600)) := by
    have hc : Changes (· = temporary) (fun _ => False) ready
        ((ready.set temporary (.file [] 0o600)).set temporary (.file bytes 0o600)) :=
      .of_file (by simp [hnone]) hfilled
    refine hstands.of_changes hc fun k x hk hx => ?_
    rw [hk, hnone] at hx
    cases hx
  rw [after_bind]
  refine (replace_of_found hbytes hnil
    (hstands'.find_child false hn h.fits (by simp)) ?_).imp
    (fun l moved hl => ?_) fun _ _ => id
  · rw [hfilled]
    split
    · simp
    · exact (h.of_changes hc (fun _ => False.elim) False.elim (h.apart.not_passes (by simp))).entry
  · split
    · rw [after_bind, after_tryCatch]
      exact (after_self).imp (fun _ _ _ => hl) fun _ _ _ => hl
    · exact hl

/-- What comes of writing a text where it can be written. -/
theorem after_writeText_takes {n text : Text} (h : s.Takes t n) (hn : n ≠ "..")
    (htext : text.isEncodable = true) :
    After (writeText (s.path.child n) text) t
      (fun l t' => (l = s.place ++ [n] ∧ ∀ m, s.Passes m → t'.get? m = some .directory) ∧
        Changes (· = l) s.Passes t t' ∧
        ∃ bytes mode, Utf8.encode text = some bytes ∧ t'.get? l = some (.file bytes mode))
      fun _ _ => False := by
  have hparent : (s.path.child n).parent = s.path := by simp [Path.parent, Path.child]
  have hfits : s.path.Fits := h.fits.above (List.prefix_append _ _)
  have hdirectories := after_ensureDirectories_open h.isOpen hfits
  rw [← hparent] at hdirectories
  refine ((writeText_of_takes h hn htext).and (after_writeText_of text
    (hdirectories.imp (fun _ _ h' => h'.symm) fun _ _ => False.elim))).imp (fun l t' h' => ?_)
    fun _ _ h' => h'.1
  obtain ⟨rfl, -, ⟨u, hstands, hu, hwritten⟩, hfile⟩ := h'
  refine ⟨⟨rfl, fun m hm => hwritten.directory m (hstands.directory m hm)⟩, ?_, hfile⟩
  exact (hu.mono (fun _ => False.elim) fun _ => id).trans hwritten

end FileM

end LocaleLift
