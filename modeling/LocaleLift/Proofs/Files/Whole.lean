import LocaleLift.Proofs.Files.Reach
import Mathlib

/-! Writing a text to a file where there are no links: the file is written as a whole, with the
permissions it had, or nothing but directories above it comes about. -/
namespace LocaleLift

namespace FileTree

variable {t t' : FileTree} {l : Location}

/-- Where there are no links, names lead to the same place in every tree with these directories. -/
private theorem findFrom_of_directories {follow : Bool} {links links' : Nat} {here : Location}
    {names : List Text} {x : Option Entry} (h : t.findFrom follow links here names = .ok (l, x))
    (ht : t.Linkless)
    (ht' : t'.Linkless)
    (hdirectory : ∀ m, t.get? m = some .directory → t'.get? m = some .directory) :
    t'.findFrom true links' here names = .ok (l, t'.get? l) := by
  fun_induction findFrom t follow links here names with
  | case1 =>
    obtain ⟨rfl, -⟩ := Prod.mk.inj (Except.ok.inj h)
    rw [findFrom]
  | case2 links here rest ih => rw [findFrom_up, ih h]
  | case4 links here name rest hname hsize next hnext hrest =>
    obtain ⟨rfl, -⟩ := Prod.mk.inj (Except.ok.inj h)
    rw [List.isEmpty_iff.mp hrest]
    exact findFrom_last hname (Nat.not_lt.mp hsize) fun _ => ht' _
  | case6 links here name rest hname hsize next hnext ih =>
    rw [findFrom_down hname (Nat.not_lt.mp hsize) (hdirectory _ hnext), ih h]
  | case7 links here name rest hname hsize next bytes mode hnext hrest =>
    obtain ⟨rfl, -⟩ := Prod.mk.inj (Except.ok.inj h)
    rw [List.isEmpty_iff.mp hrest]
    exact findFrom_last hname (Nat.not_lt.mp hsize) fun _ => ht' _
  | case9 links here name rest hname hsize next target hnext hrest => exact absurd hnext (ht _ _)
  | case11 here name rest hname hsize next target hnext hrest links p ih =>
    exact absurd hnext (ht _ _)
  | case3 | case5 | case8 | case10 => cases h

theorem find_of_linkless {follow : Bool} {p : Path} {x : Option Entry}
    (h : t.find follow p = .ok (l, x)) (ht : t.Linkless) (ht' : t'.Linkless)
    (hdirectory : ∀ m, t.get? m = some .directory → t'.get? m = some .directory) :
    t'.find true p = .ok (l, t'.get? l) := by
  obtain ⟨hnull, hsize, hfind⟩ := find_eq_ok_iff.mp h
  exact find_eq_ok_iff.mpr ⟨hnull, hsize, findFrom_of_directories hfind ht ht' hdirectory⟩

private theorem resolveFrom_of_linkless (ht : t.Linkless) (links : Nat) (here : Location)
    (names : List Text) : t.resolveFrom links here names = .ok (straight here names) := by
  induction names generalizing here with
  | nil => rw [resolveFrom, straight_nil]
  | cons n names ih =>
    rw [resolveFrom]
    split
    · rename_i hn
      subst hn
      rw [straight_up, ih]
    · rename_i hn
      split
      · rename_i hget
        exact absurd hget (ht _ _)
      · rw [straight_cons here hn, ih]

theorem resolve_of_linkless {p q : Path} (ht : t.Linkless) (h : t.resolve p = .ok q) :
    q = ⟨1, straight [] p.names⟩ := by
  rw [resolve, resolveFrom_of_linkless ht] at h
  split at h
  · cases h
  · exact (Except.ok.inj h).symm

theorem Linkless.clear (h : t.Linkless) (names : List Text) : t.Clear [] names :=
  fun _ _ _ => h _

section File

variable {bytes : List UInt8} {mode : Nat}
  (h : ∀ m, t'.get? m = if m = l then some (.file bytes mode) else t.get? m)

include h

private theorem Linkless.of_file (ht : t.Linkless) : t'.Linkless := by
  intro m x hm
  rw [h] at hm
  split at hm
  · cases hm
  · exact ht m x hm

private theorem directory_of_file {m : Location} (hm : t'.get? m = some .directory) :
    t.get? m = some .directory := by
  rw [h] at hm
  split at hm
  · cases hm
  · exact hm

private theorem directory_file (hl : t.get? l ≠ some .directory) {m : Location}
    (hm : t.get? m = some .directory) : t'.get? m = some .directory := by
  have hne : m ≠ l := by
    rintro rfl
    exact hl hm
  rw [h, if_neg hne, hm]

end File

/-- The permissions of a file that is written: those it had, or those of a new file. -/
def newMode (t : FileTree) (l : Location) : Nat :=
  match t.get? l with
  | some (.file _ mode) => mode % 0o1000
  | _ => 0o600

/-- A place is as it was, or a directory has been made there that a path needs. -/
def KeepsOrMakes (p : Path) (t t' : FileTree) (l : Location) : Prop :=
  t'.get? l = t.get? l ∨ t.get? l = none ∧ t'.get? l = some .directory ∧
    ∃ before, before <+: p.parent.names ∧ l = straight [] before

theorem Changes.keepsOrMakes {files : Location → Prop} {p : Path}
    (h : Changes files (t.MayMake p.parent.names) t t') (ht : t.Linkless) (hl : ¬ files l) :
    KeepsOrMakes p t t' l := by
  refine (h.kept l hl).imp_right fun ⟨⟨before, hpre, hleads⟩, hnone, hdirectory⟩ => ?_
  exact ⟨hnone, hdirectory, before, hpre, hleads.eq_straight (ht.clear before)⟩

end FileTree

namespace FileM

open FileTree

variable {t u : FileTree} {p : Path} {l : Location} {bytes : List UInt8}

private theorem after_setMode_of_find {new mode : Nat}
    (h : t.find true p = .ok (l, some (.file bytes mode))) :
    After (setMode p new) t (fun _ t' => t' = t.set l (.file bytes new)) fun _ _ => False := by
  rw [setMode, after_bind, after_ask_ok h]
  exact after_modify.mpr rfl

/-- A file is opened where the names lead, and found there. -/
theorem after_openForAppending_linkless {t : FileTree} (ht : t.Linkless) (p : Path) :
    After (openForAppending p) t
      (fun l t' => l = straight [] p.names ∧ t'.find true p = .ok (l, t'.get? l)) fun _ _ => True := by
  rw [openForAppending, after_bind, after_ask]
  refine ⟨fun found hfind => ?_, fun _ _ => trivial⟩
  obtain ⟨l, x⟩ := found
  obtain ⟨way, rfl⟩ := way_of_find hfind
  have hl := way.eq_straight (ht.clear _) fun _ => ht _
  cases hx : t.get? l with
  | none =>
    rw [hx] at hfind
    have hset : Changes (· = l) (fun _ => False) t (t.set l (.file [] 0o644)) :=
      .set_file (by simp [hx])
    exact ⟨hl, find_of_linkless hfind ht (ht.of_changes hset) hset.directory⟩
  | some e =>
    cases e with
    | directory => exact trivial
    | file | link => exact ⟨hl, hfind⟩

/-- The permissions that are kept are those of the file that is replaced. -/
private theorem mode?_of_find (h : t.find true p = .ok (l, t.get? l)) (ht : t.Linkless)
    (hl : t.get? l ≠ some .directory) :
    mode? t p = some (t.newMode l) ∨ mode? t p = none ∧ t.newMode l = 0o600 := by
  rw [mode?, newMode, h]
  cases hget : t.get? l with
  | none => exact .inr ⟨rfl, rfl⟩
  | some e =>
    cases e with
    | directory => exact absurd hget hl
    | file bytes mode => exact .inl rfl
    | link x => exact absurd hget (ht l x)

/-- Where no links are, a filled file is moved to the one place that the names lead to, and with any
permissions it is found there. -/
private theorem after_replace_linkless {temporary : Location} {text : Text} (hu : u.Linkless)
    (hnil : temporary ≠ []) (hnone : u.get? temporary = none)
    (ht : ∀ m, t.get? m = if m = temporary then some (.file [] 0o600) else u.get? m) :
    After (replace temporary p text) t
      (fun l moved => l = straight [] p.names ∧ u.get? l ≠ some .directory ∧
        u.find true p = .ok (l, u.get? l) ∧ ∃ bytes, Utf8.encode text = some bytes ∧
          (∀ m, moved.get? m = if m = l then some (.file bytes 0o600) else u.get? m) ∧
          ∀ (t' : FileTree) (mode : Nat),
            (∀ m, t'.get? m = if m = l then some (.file bytes mode) else u.get? m) →
              t'.find true p = .ok (l, some (.file bytes mode)))
      fun _ t' => ∀ m, t'.get? m = u.get? m := by
  refine (after_replace hnil hnone ht).imp (fun l moved h => ?_) fun _ _ h => h
  obtain ⟨hl, bytes, htext, hmoved, filled, x, hfind, hfilled⟩ := h
  have hlinks := hu.of_file hfilled
  have hplace : l = straight [] p.names :=
    (way_of_find hfind).1.eq_straight (hlinks.clear _) fun h => absurd h Bool.false_ne_true
  have hfound : u.find true p = .ok (l, u.get? l) :=
    find_of_linkless hfind hlinks hu fun m => directory_of_file hfilled
  refine ⟨hplace, hl, hfound, bytes, htext, hmoved, fun t' mode h => ?_⟩
  have hput := find_of_linkless hfind hlinks (hu.of_file h) fun m hm =>
    directory_file h hl (directory_of_file hfilled hm)
  rwa [h, if_pos rfl] at hput

/-- Where no links are, a text is written to the place that the path leads to, with the permissions
the file had or those of a new one, and nothing else changes but that missing directories above it
are made. If it cannot be written, no file changes, and no other one is left behind. -/
theorem writeText_whole (t : FileTree) (ht : t.Linkless) (p : Path) (text : Text) :
    After (writeText p text) t
      (fun l t' => l = straight [] p.names ∧ t.get? l ≠ some .directory ∧
        (∃ bytes, Utf8.encode text = some bytes ∧
          t'.find true p = .ok (l, some (.file bytes (t.newMode l)))) ∧
        ∀ m, m ≠ l → KeepsOrMakes p t t' m)
      fun _ t' => ∀ m, KeepsOrMakes p t t' m := by
  rw [writeText, after_bind]
  have hmade : After (ensureDirectories p.parent) t
      (fun _ u => Changes (fun _ => False) (t.MayMake p.parent.names) t u)
      fun _ t' => Changes (fun _ => False) (t.MayMake p.parent.names) t t' :=
    after_ensureDirectories (.refl t) fun _ h => h
  refine hmade.imp (fun _ u hu => ?_) fun _ t' h m => h.keepsOrMakes ht id
  have hlinks := ht.of_changes hu
  have hkeeps {t' : FileTree} {m : Location} (hm : t'.get? m = u.get? m) :
      KeepsOrMakes p t t' m := by
    rw [KeepsOrMakes, hm]
    exact hu.keepsOrMakes ht id
  rw [after_bind, after_get, after_bind]
  refine after_makeTemporary.imp (fun temporary opened h => ?_) fun _ _ h m => hkeeps (by rw [h])
  obtain ⟨hnil, hnone, hopened⟩ := h
  rw [after_bind]
  refine (after_replace_linkless hlinks hnil hnone hopened).imp (fun l moved h => ?_)
    fun _ _ h m => hkeeps (h m)
  obtain ⟨hplace, hl, hfound, bytes, htext, hmoved, hput⟩ := h
  have hlt : u.get? l = t.get? l := by
    rcases hu.kept l id with hkept | ⟨-, -, hdirectory⟩
    · exact hkept
    · exact absurd hdirectory hl
  have hmode : u.newMode l = t.newMode l := by rw [newMode, newMode, hlt]
  have hdone {t' : FileTree} (h : ∀ m, t'.get? m =
      if m = l then some (.file bytes (u.newMode l)) else u.get? m) :
      l = straight [] p.names ∧ t.get? l ≠ some .directory ∧
        (∃ bytes, Utf8.encode text = some bytes ∧
          t'.find true p = .ok (l, some (.file bytes (t.newMode l)))) ∧
        ∀ m, m ≠ l → KeepsOrMakes p t t' m :=
    ⟨hplace, hlt ▸ hl, ⟨bytes, htext, hmode ▸ hput t' _ h⟩,
      fun m hm => hkeeps (by rw [h, if_neg hm])⟩
  rcases mode?_of_find hfound hlinks hl with hmode? | ⟨hmode?, hnew⟩
  · rw [hmode?]
    dsimp only
    rw [after_bind, after_tryCatch]
    refine (after_setMode_of_find (hput moved _ hmoved)).imp (fun _ t' h => hdone fun m => ?_)
      fun _ _ => False.elim
    have hlnil : l ≠ [] := by
      rintro rfl
      exact hl rfl
    rw [h, get?_set hlnil, hmoved]
    split <;> rfl
  · rw [hmode?]
    exact hdone fun m => by rw [hmoved, hnew]

def twoFiles : FileTree :=
  ⟨[(["d"], .directory), (["d", "a"], .file [1] 0o640), (["d", "b"], .file [2] 0o600)]⟩

/-- A file keeps its permissions, and the one beside it stays as it is; below a file nothing can be
written. -/
theorem writeText_whole_twoFiles :
    twoFiles.Linkless ∧
      (∃ t', ((writeText ⟨1, ["d", "a"]⟩ "hi").run.run twoFiles :
          Except FileError Location × FileTree) = (.ok ["d", "a"], t') ∧
        t'.find true ⟨1, ["d", "a"]⟩ = .ok (["d", "a"], some (.file [104, 105] 0o640)) ∧
        KeepsOrMakes ⟨1, ["d", "a"]⟩ twoFiles t' ["d", "b"]) ∧
      ∃ t', ((writeText ⟨1, ["d", "a", "c"]⟩ "hi").run.run twoFiles :
          Except FileError Location × FileTree) = (.error .occupied, t') ∧
        ∀ m, KeepsOrMakes ⟨1, ["d", "a", "c"]⟩ twoFiles t' m := by
  have hlinkless : twoFiles.Linkless := ne_link_of_entries (by simp [twoFiles])
  have hwritten : ((writeText ⟨1, ["d", "a"]⟩ "hi").run.run twoFiles :
      Except FileError Location × FileTree).1 = .ok ["d", "a"] := by cbv
  have hrefused : ((writeText ⟨1, ["d", "a", "c"]⟩ "hi").run.run twoFiles :
      Except FileError Location × FileTree).1 = .error .occupied := by cbv
  refine ⟨hlinkless, ⟨_, Prod.ext hwritten rfl, ?_⟩, ⟨_, Prod.ext hrefused rfl, ?_⟩⟩
  · obtain ⟨-, -, ⟨bytes, hbytes, hfind⟩, hothers⟩ :=
      (writeText_whole twoFiles hlinkless ⟨1, ["d", "a"]⟩ "hi").of_ok (Prod.ext hwritten rfl)
    obtain rfl : [104, 105] = bytes := Option.some.inj (Eq.trans (by decide) hbytes)
    exact ⟨hfind, hothers _ (by decide)⟩
  · exact (writeText_whole twoFiles hlinkless ⟨1, ["d", "a", "c"]⟩ "hi").of_error
      (Prod.ext hrefused rfl)

end FileM

end LocaleLift
