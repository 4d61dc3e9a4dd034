import LocaleLift.Proofs.After
import LocaleLift.Proofs.Files.Tree

/-! What steps on a file tree change: the file that is written, and the directories on the way to
it. -/
namespace LocaleLift

namespace FileTree

section Append

variable {t : FileTree} {l m : Location} {bytes old : List UInt8}

theorem bytes?_append_self (h : t.bytes? l = some old) :
    (t.append l bytes).bytes? l = some (old ++ bytes) := by
  obtain ⟨mode, hl⟩ := bytes?_eq_some.mp h
  have hnil : l ≠ [] := by
    rintro rfl
    cases hl
  refine bytes?_eq_some.mpr ⟨mode, ?_⟩
  rw [append, hl]
  exact (get?_set hnil).trans (if_pos rfl)

theorem get?_append_of_ne (h : m ≠ l) : (t.append l bytes).get? m = t.get? m := by
  rw [append]
  split
  · rename_i old mode hl
    have hnil : l ≠ [] := by
      rintro rfl
      cases hl
    exact (get?_set hnil).trans (if_neg h)
  · rfl

end Append

/-- From one tree to another, only the files at some places change, and directories are made at
others where nothing was. What is a file or a directory stays one, and no link comes about. -/
structure Changes (files made : Location → Prop) (t t' : FileTree) : Prop where
  kept : ∀ l, ¬ files l →
    t'.get? l = t.get? l ∨ made l ∧ t.get? l = none ∧ t'.get? l = some .directory
  file : ∀ l, (t.bytes? l).isSome → (t'.bytes? l).isSome
  directory : ∀ l, t.get? l = some .directory → t'.get? l = some .directory
  link : ∀ l x, t'.get? l = some (.link x) → t.get? l = some (.link x)

namespace Changes

variable {files made files' made' : Location → Prop} {t t' t'' : FileTree} {l : Location}

theorem refl (t : FileTree) : Changes files made t t :=
  ⟨fun _ _ => .inl rfl, fun _ h => h, fun _ h => h, fun _ _ h => h⟩

theorem trans (h : Changes files made t t') (h' : Changes files made t' t'') :
    Changes files made t t'' where
  kept l hl := by
    obtain hs | ⟨hm, hn, hd⟩ := h.kept l hl
    · rw [← hs]
      exact h'.kept l hl
    · exact .inr ⟨hm, hn, h'.directory l hd⟩
  file l hl := h'.file l (h.file l hl)
  directory l hl := h'.directory l (h.directory l hl)
  link l x hl := h.link l x (h'.link l x hl)

theorem mono (h : Changes files made t t') (hf : ∀ l, files l → files' l)
    (hm : ∀ l, made l → made' l) : Changes files' made' t t' where
  kept l hl := (h.kept l fun hfl => hl (hf l hfl)).imp id fun ⟨hml, hrest⟩ => ⟨hm l hml, hrest⟩
  file := h.file
  directory := h.directory
  link := h.link

theorem bytes? (h : Changes files made t t') (hl : ¬ files l) : t'.bytes? l = t.bytes? l := by
  obtain hs | ⟨-, hn, hd⟩ := h.kept l hl
  · exact bytes?_congr hs
  · simp [FileTree.bytes?, hn, hd]

theorem steps (h : Changes files made t t') (ht : ∀ l, t.get? l ≠ none → (".." : Text) ∉ l)
    (hfiles : ∀ l, files l → (".." : Text) ∉ l) (hmade : ∀ l, made l → (".." : Text) ∉ l) (l : Location)
    (hl : t'.get? l ≠ none) : (".." : Text) ∉ l := by
  by_cases hfile : files l
  · exact hfiles l hfile
  · obtain hs | ⟨hm, -⟩ := h.kept l hfile
    · exact ht l (by rwa [← hs])
    · exact hmade l hm

/-- A change that is seen entry by entry: a file is put where no directory is. -/
theorem of_file {bytes : List UInt8} {mode : Nat} (hl : t.get? l ≠ some .directory)
    (h : ∀ m, t'.get? m = if m = l then some (.file bytes mode) else t.get? m) :
    Changes (· = l) made t t' where
  kept m hm := .inl (by rw [h, if_neg hm])
  file m hm := by
    by_cases hml : m = l
    · rw [FileTree.bytes?, h, if_pos hml]
      rfl
    · have hsame : t'.bytes? m = t.bytes? m := bytes?_congr (by rw [h, if_neg hml])
      rwa [hsame]
  directory m hm := by
    have hne : m ≠ l := by
      rintro rfl
      exact hl hm
    rw [h, if_neg hne, hm]
  link m x hm := by
    rw [h] at hm
    split at hm
    · cases hm
    · exact hm

theorem set_file {bytes : List UInt8} {mode : Nat} (hl : t.get? l ≠ some .directory) :
    Changes (· = l) made t (t.set l (.file bytes mode)) := by
  have hnil : l ≠ [] := by
    rintro rfl
    exact hl rfl
  have hset (m : Location) : (t.set l (.file bytes mode)).get? m =
      if m = l then some (.file bytes mode) else t.get? m := get?_set hnil
  exact of_file hl hset

theorem set_directory (hl : t.get? l = none) (hm : made l) :
    Changes files made t (t.set l .directory) := by
  have hnil : l ≠ [] := by
    rintro rfl
    cases hl
  refine ⟨fun m _ => ?_, fun m h => ?_, fun m h => ?_, fun m x h => ?_⟩
  · rw [get?_set hnil]
    split
    · rename_i hml
      exact .inr (hml ▸ ⟨hm, hl, rfl⟩)
    · exact .inl rfl
  · have hml : m ≠ l := by
      rintro rfl
      simp [FileTree.bytes?, hl] at h
    have hsame : (t.set l .directory).bytes? m = t.bytes? m :=
      bytes?_congr (by rw [get?_set hnil, if_neg hml])
    rwa [hsame]
  · rw [get?_set hnil, h]
    simp
  · rw [get?_set hnil] at h
    split at h
    · cases h
    · exact h

theorem append (bytes : List UInt8) : Changes (· = l) made t (t.append l bytes) := by
  rw [FileTree.append]
  split
  · rename_i h
    exact set_file (by simp [h])
  · exact refl t

end Changes

def Linkless (t : FileTree) : Prop :=
  ∀ l x, t.get? l ≠ some (.link x)

namespace Linkless

variable {t t' : FileTree} {l m : Location}

theorem of_changes {files made : Location → Prop} (h : t.Linkless) (hc : Changes files made t t') :
    t'.Linkless :=
  fun k x hk => h k x (hc.link k x hk)

theorem erase (h : t.Linkless) (l : Location) : (t.erase l).Linkless := by
  intro k x hk
  refine h k x ?_
  rw [get?] at hk ⊢
  split at hk
  · cases hk
  · rename_i hnil
    rw [if_neg hnil]
    rw [FileTree.erase, Assoc.get?_filter t.entries (· != l) k] at hk
    split at hk
    · exact hk
    · cases hk

theorem move (h : t.Linkless) (hl : l ≠ []) (m : Location) : (t.move l m).Linkless := by
  intro k x hk
  rw [get?] at hk
  split at hk
  · cases hk
  · rename_i hnil
    obtain ⟨j, hj, hget⟩ := Assoc.exists_of_get?_map hk
    have hne : j ≠ [] := by
      rintro rfl
      rw [← hj, moved, if_neg (by simpa using hl)] at hnil
      exact hnil rfl
    refine h j x ?_
    rwa [get?, if_neg (by simpa using hne)]

end Linkless

theorem Resolved.of_changes {t t' : FileTree} {files made : Location → Prop} {l : Location}
    (h : t.Resolved l) (hc : Changes files made t t') : t'.Resolved l :=
  ⟨h.steps, fun before hpre x hx => h.link before hpre x (hc.link before x hx)⟩

/-- Names lead to a place, at the latest once other entries than links have been made. -/
def LeadsTo (t : FileTree) (names : List Text) (l : Location) : Prop :=
  ∃ t' : FileTree, (∀ m x, t'.get? m = some (.link x) → t.get? m = some (.link x)) ∧
    t'.Way false [] names l

section LeadsTo

variable {t t' : FileTree} {names : List Text} {l : Location}

theorem Way.leadsTo (h : t'.Way false [] names l)
    (hlink : ∀ m x, t'.get? m = some (.link x) → t.get? m = some (.link x)) : t.LeadsTo names l :=
  ⟨t', hlink, h⟩

theorem LeadsTo.of_changes {files made : Location → Prop} (h : t'.LeadsTo names l)
    (hc : Changes files made t t') : t.LeadsTo names l := by
  obtain ⟨t'', hlink, way⟩ := h
  exact ⟨t'', fun m x hm => hc.link m x (hlink m x hm), way⟩

theorem LeadsTo.not_mem_steps (h : t.LeadsTo names l) : (".." : Text) ∉ l := by
  obtain ⟨t', -, way⟩ := h
  exact way.not_mem_steps (by simp)

theorem LeadsTo.getLast?_eq {n : Text} (h : t.LeadsTo names l) (hlast : names.getLast? = some n)
    (hn : n ≠ "..") : l.getLast? = some n := by
  obtain ⟨t', -, way⟩ := h
  exact way.getLast?_eq hlast hn

theorem LeadsTo.eq_straight (h : t.LeadsTo names l) (hclear : t.Clear [] names) :
    l = straight [] names := by
  obtain ⟨t', hlink, way⟩ := h
  refine way.eq_straight (fun before hpre hne x hx => ?_) (by simp)
  exact hclear before hpre hne x (hlink _ x hx)

theorem LeadsTo.eq_names (h : t.LeadsTo names l) (hclear : t.Clear [] names)
    (hsteps : (".." : Text) ∉ names) : l = names := by
  rw [h.eq_straight hclear, straight_of_not_mem [] hsteps, List.nil_append]

/-- A directory may be made on the way along some names. -/
def MayMake (t : FileTree) (names : List Text) (l : Location) : Prop :=
  ∃ before, before <+: names ∧ t.LeadsTo before l

theorem MayMake.not_mem_steps (h : t.MayMake names l) : (".." : Text) ∉ l := by
  obtain ⟨before, -, hl⟩ := h
  exact hl.not_mem_steps

end LeadsTo

end FileTree

namespace FileM

open FileTree

variable {files made : Location → Prop} {t₀ t t' : FileTree} {l : Location} {p : Path}

@[simp] theorem after_ask {α : Type} {f : FileTree → Except FileError α} {q : α → FileTree → Prop}
    {r : FileError → FileTree → Prop} :
    After (ask f) t q r ↔ (∀ a, f t = .ok a → q a t) ∧ ∀ e, f t = .error e → r e t := by
  rw [ask, after_bind, after_get]
  cases f t with
  | error e => simp
  | ok a => simp

theorem after_ask_ok {α : Type} {f : FileTree → Except FileError α} {a : α}
    {q : α → FileTree → Prop} {r : FileError → FileTree → Prop} (h : f t = .ok a) :
    After (ask f) t q r ↔ q a t := by
  simp [h]

theorem after_ask_error {α : Type} {f : FileTree → Except FileError α} {e : FileError}
    {q : α → FileTree → Prop} {r : FileError → FileTree → Prop} (h : f t = .error e) :
    After (ask f) t q r ↔ r e t := by
  simp [h]

private theorem after_makeDirectory (hc : Changes files made t₀ t)
    (hm : ∀ l, t₀.LeadsTo p.names l → made l) :
    After (makeDirectory p) t (fun _ t => Changes files made t₀ t)
      fun _ t => Changes files made t₀ t := by
  rw [makeDirectory, after_bind, after_ask]
  refine ⟨fun ⟨l, x⟩ hfind => ?_, fun _ _ => hc⟩
  obtain ⟨way, hx⟩ := way_of_find hfind
  cases x with
  | some _ => exact hc
  | none => exact hc.trans (.set_directory hx.symm (hm l (way.leadsTo hc.link)))

private theorem after_ensureDirectory (hc : Changes files made t₀ t)
    (hm : ∀ l, t₀.LeadsTo p.names l → made l) :
    After (ensureDirectory p) t (fun _ t => Changes files made t₀ t)
      fun _ t => Changes files made t₀ t := by
  rw [ensureDirectory, after_tryCatch]
  refine (after_makeDirectory hc hm).imp (fun _ _ h => h) fun e t h => ?_
  rw [after_bind, after_get]
  split
  · exact h
  · exact h

private theorem after_ensureFrom (root : Nat) {names : List Text} (hc : Changes files made t₀ t)
    (hm : ∀ l, t₀.MayMake names.reverse l → made l) :
    After (ensureFrom root names) t (fun _ t => Changes files made t₀ t)
      fun _ t => Changes files made t₀ t := by
  induction names generalizing t with
  | nil => exact after_ensureDirectory hc fun l hl => hm l ⟨[], List.prefix_refl _, hl⟩
  | cons name above ih =>
    have hname (l : Location) (hl : t₀.LeadsTo (name :: above).reverse l) : made l :=
      hm l ⟨_, List.prefix_refl _, hl⟩
    have habove (l : Location) (hl : t₀.MayMake above.reverse l) : made l := by
      obtain ⟨before, hpre, hl⟩ := hl
      rw [List.reverse_cons] at hm
      exact hm l ⟨before, hpre.trans (List.prefix_append _ _), hl⟩
    rw [ensureFrom, after_tryCatch]
    refine (after_ensureDirectory hc hname).imp (fun _ _ h => h) fun e t h => ?_
    split
    · rw [after_bind]
      exact (ih h habove).imp (fun _ _ h => after_ensureDirectory h hname) fun _ _ h => h
    · exact h

/-- Directories are made on the way only, whether or not all of them can be. -/
theorem after_ensureDirectories (hc : Changes files made t₀ t)
    (hm : ∀ l, t₀.MayMake p.names l → made l) :
    After (ensureDirectories p) t (fun _ t => Changes files made t₀ t)
      fun _ t => Changes files made t₀ t :=
  after_ensureFrom p.root hc (by rwa [List.reverse_reverse])

private theorem le_foldl_max (ns : List Nat) (m : Nat) :
    m ≤ ns.foldl max m ∧ ∀ n ∈ ns, n ≤ ns.foldl max m := by
  induction ns generalizing m with
  | nil => simp
  | cons n ns ih =>
    obtain ⟨hmax, hns⟩ := ih (max m n)
    refine ⟨Nat.le_trans (Nat.le_max_left m n) hmax, fun k hk => ?_⟩
    obtain rfl | hk := List.mem_cons.mp hk
    · exact Nat.le_trans (Nat.le_max_right m k) hmax
    · exact hns k hk

theorem get?_freshName (t : FileTree) (l : Location) :
    t.get? (l ++ [freshName t]) = none := by
  refine Decidable.byContradiction fun h => ?_
  have hget : Assoc.get? t.entries (l ++ [freshName t]) ≠ none := by simpa [get?] using h
  obtain ⟨e, he⟩ := Assoc.get?_ne_none_iff.mp hget
  have hle := (le_foldl_max _ 0).2 _
    (List.mem_map_of_mem (f := fun e => (e.1.getLast?.map List.length).getD 0) he)
  simp only [List.getLast?_concat, Option.map_some, Option.getD_some, freshName,
    List.length_replicate] at hle
  exact Nat.not_succ_le_self _ hle

/-- A temporary file stands where nothing was. -/
theorem after_makeTemporary :
    After (makeTemporary p) t
      (fun l t' => l ≠ [] ∧ t.get? l = none ∧
        ∀ m, t'.get? m = if m = l then some (.file [] 0o600) else t.get? m)
      fun _ t' => t' = t := by
  rw [makeTemporary, after_bind, after_ask]
  refine ⟨fun ⟨l, x⟩ _ => ?_, fun _ _ => rfl⟩
  obtain _ | _ | _ | _ := x
  · exact rfl
  · have hnil : l ++ [freshName t] ≠ [] := by simp
    exact ⟨hnil, get?_freshName t l, fun m => get?_set hnil⟩
  · exact rfl
  · exact rfl

/-- Where a temporary file ends up that is filled and moved. -/
theorem after_replace {temporary : Location} {text : Text} {mode : Nat}
    (hnil : temporary ≠ []) (hnone : t₀.get? temporary = none)
    (ht : ∀ m, t.get? m = if m = temporary then some (.file [] mode) else t₀.get? m) :
    After (replace temporary p text) t
      (fun l t' => t₀.get? l ≠ some .directory ∧ ∃ bytes, Utf8.encode text = some bytes ∧
        (∀ m, t'.get? m = if m = l then some (.file bytes 0o600) else t₀.get? m) ∧
        ∃ (filled : FileTree) (x : Option Entry), filled.find false p = .ok (l, x) ∧
          ∀ m, filled.get? m =
            if m = temporary then some (.file bytes 0o600) else t₀.get? m)
      fun _ t' => ∀ m, t'.get? m = t₀.get? m := by
  have herase {t' : FileTree} {x : Option Entry}
      (h : ∀ m, t'.get? m = if m = temporary then x else t₀.get? m) (m : Location) :
      (t'.erase temporary).get? m = t₀.get? m := by
    rw [get?_erase hnil, h]
    split
    · rename_i hm
      rw [hm, hnone]
    · rfl
  rw [replace, after_tryCatch, after_bind, fill]
  cases htext : Utf8.encode text with
  | none => exact herase ht
  | some bytes =>
    have hfilled (m : Location) : (t.set temporary (.file bytes 0o600)).get? m =
        if m = temporary then some (.file bytes 0o600) else t₀.get? m := by
      rw [get?_set hnil, ht]
      split <;> rfl
    rw [after_modify, rename, after_bind, after_ask]
    refine ⟨fun ⟨l, x⟩ hfind => ?_, fun _ _ => herase hfilled⟩
    have hx := (way_of_find hfind).2
    by_cases hdirectory : x = some .directory
    · rw [hdirectory]
      exact herase hfilled
    · have hl : t₀.get? l ≠ some .directory := by
        rw [hx, hfilled] at hdirectory
        split at hdirectory
        · rename_i hl
          rw [hl, hnone]
          simp
        · exact hdirectory
      have hlnil : l ≠ [] := by
        rintro rfl
        exact hl rfl
      have hmoved (m : Location) :
          (((t.set temporary (.file bytes 0o600)).erase temporary).set l
            (.file bytes 0o600)).get? m =
              if m = l then some (.file bytes 0o600) else t₀.get? m := by
        rw [get?_set hlnil, herase hfilled]
      split
      · exact absurd (congrArg Prod.snd (by assumption)) hdirectory
      · rename_i target y _ heq
        obtain ⟨rfl, rfl⟩ := Prod.mk.inj heq
        have htemporary := hfilled temporary
        rw [if_pos rfl] at htemporary
        rw [after_bind, after_get, htemporary]
        exact ⟨hl, bytes, rfl, hmoved, _, _, hfind, hfilled⟩

/-- Setting the permissions of a file that has just been put where a path leads changes nothing but
this file. -/
private theorem after_setMode {filled : FileTree} {bytes : List UInt8} {mode : Nat} (new : Nat)
    (way : filled.Way false [] p.names l) (hl : t₀.get? l ≠ some .directory)
    (ht : ∀ m, t.get? m = if m = l then some (.file bytes mode) else t₀.get? m)
    (hsame : ∀ m, m ≠ l → t.get? m = filled.get? m ∨
      ∃ bytes mode, filled.get? m = some (.file bytes mode)) :
    After (setMode p new) t
      (fun _ t' => ∃ mode, ∀ m, t'.get? m = if m = l then some (.file bytes mode) else t₀.get? m)
      fun _ t' => t' = t := by
  have hfile : t.get? l = some (.file bytes mode) := by rw [ht, if_pos rfl]
  have hnil : l ≠ [] := by
    rintro rfl
    exact hl rfl
  rw [setMode, after_bind, after_ask]
  refine ⟨fun ⟨m, x⟩ hfind => ?_, fun _ _ => rfl⟩
  obtain ⟨way', hx⟩ := way_of_find hfind
  obtain rfl : m = l := way.eq_of_file way' ⟨bytes, mode, hfile⟩ hsame
  rw [hfile] at hx
  subst hx
  refine ⟨new, fun k => ?_⟩
  rw [get?_set hnil, ht]
  split <;> rfl

/-- What comes of writing a text, where `made` are the directories that are made for it: the file
stands where the path leads, and nothing else changes. If it cannot be written, no file changes. -/
theorem after_writeText_of {ready : FileTree → Prop} (text : Text)
    (h : After (ensureDirectories p.parent) t
      (fun _ u => ready u ∧ Changes (fun _ => False) made t u)
      fun _ t' => Changes (fun _ => False) made t t') :
    After (writeText p text) t
      (fun l t' => t.LeadsTo p.names l ∧
        (∃ u, ready u ∧ Changes (fun _ => False) made t u ∧ Changes (· = l) made u t') ∧
        ∃ bytes mode, Utf8.encode text = some bytes ∧ t'.get? l = some (.file bytes mode))
      fun _ t' => Changes (fun _ => False) made t t' := by
  rw [writeText, after_bind]
  refine h.imp (fun _ u hu => ?_) fun _ _ h => h
  obtain ⟨hready, hu⟩ := hu
  rw [after_bind, after_get, after_bind]
  refine after_makeTemporary.imp (fun temporary opened h => ?_) fun _ _ h => h ▸ hu
  obtain ⟨hnil, hnone, hopened⟩ := h
  rw [after_bind]
  refine (after_replace hnil hnone hopened).imp (fun l moved h => ?_) fun _ removed h => ?_
  · obtain ⟨hl, bytes, htext, hmoved, filled, x, hfind, hfilled⟩ := h
    have way := (way_of_find hfind).1
    have hleads : t.LeadsTo p.names l := by
      refine way.leadsTo fun m x hm => hu.link m x ?_
      rw [hfilled] at hm
      split at hm
      · cases hm
      · exact hm
    have hdone {t' : FileTree} (h : ∃ mode, ∀ m, t'.get? m =
        if m = l then some (.file bytes mode) else u.get? m) :
        t.LeadsTo p.names l ∧
          (∃ u, ready u ∧ Changes (fun _ => False) made t u ∧ Changes (· = l) made u t') ∧
          ∃ bytes mode, Utf8.encode text = some bytes ∧ t'.get? l = some (.file bytes mode) := by
      obtain ⟨mode, h⟩ := h
      refine ⟨hleads, ⟨u, hready, hu, .of_file hl h⟩, bytes, mode, htext, ?_⟩
      rw [h, if_pos rfl]
    split
    · rename_i mode _
      rw [after_bind, after_tryCatch]
      have hsame (m : Location) (hm : m ≠ l) : moved.get? m = filled.get? m ∨
          ∃ bytes mode, filled.get? m = some (.file bytes mode) := by
        rw [hmoved, if_neg hm, hfilled]
        split
        · exact .inr ⟨_, _, rfl⟩
        · exact .inl rfl
      refine (after_setMode mode way hl hmoved hsame).imp (fun _ _ h => hdone h) fun _ _ h => ?_
      rw [h]
      exact hdone ⟨_, hmoved⟩
    · exact hdone ⟨_, hmoved⟩
  · refine hu.trans ⟨fun m _ => .inl (h m), fun m hm => ?_, fun m hm => ?_, fun m x hm => ?_⟩
    · rwa [bytes?_congr (h m)]
    · rwa [h]
    · rwa [h] at hm

/-- Directories are made on the way to the text only. -/
theorem after_writeText (t : FileTree) (p : Path) (text : Text) :
    After (writeText p text) t
      (fun l t' => t.LeadsTo p.names l ∧ Changes (· = l) (t.MayMake p.parent.names) t t' ∧
        ∃ bytes mode, Utf8.encode text = some bytes ∧ t'.get? l = some (.file bytes mode))
      fun _ t' => Changes (fun _ => False) (t.MayMake p.parent.names) t t' := by
  have hdirectories : After (ensureDirectories p.parent) t
      (fun _ u => True ∧ Changes (fun _ => False) (t.MayMake p.parent.names) t u)
      fun _ t' => Changes (fun _ => False) (t.MayMake p.parent.names) t t' :=
    (after_ensureDirectories (.refl t) fun _ h => h).imp (fun _ _ h => ⟨trivial, h⟩) fun _ _ h => h
  refine (after_writeText_of text hdirectories).imp (fun l t' h => ?_) fun _ _ h => h
  obtain ⟨hleads, ⟨u, -, hu, hwritten⟩, hfile⟩ := h
  exact ⟨hleads, (hu.mono (fun _ => False.elim) fun _ h => h).trans hwritten, hfile⟩

/-- A file that is opened for appending is there afterwards, and nothing else has changed. -/
theorem after_openForAppending (made : Location → Prop) :
    After (openForAppending p) t
      (fun l t' => (".." : Text) ∉ l ∧ Changes (· = l) made t t' ∧ (t'.bytes? l).isSome)
      fun _ t' => t' = t := by
  rw [openForAppending, after_bind, after_ask]
  refine ⟨fun ⟨l, x⟩ hfind => ?_, fun _ _ => rfl⟩
  obtain ⟨way, hx⟩ := way_of_find hfind
  have hsteps := way.not_mem_steps (by simp)
  have hroot : ∀ before : Location, before <+: [] → t.get? before = some .directory :=
    fun before hpre => by simp [List.prefix_nil.mp hpre]
  have hlink := (way.directories hroot).2 rfl
  cases x with
  | none =>
    have hdirectory : t.get? l ≠ some .directory := by simp [← hx]
    have hnil : l ≠ [] := by
      rintro rfl
      cases hx
    exact ⟨hsteps, .set_file hdirectory, by simp [FileTree.bytes?, get?_set hnil]⟩
  | some e =>
    cases e with
    | directory => exact rfl
    | file bytes mode => exact ⟨hsteps, .refl t, by simp [FileTree.bytes?, ← hx]⟩
    | link y => exact absurd hx.symm (hlink y)

section Valid

private theorem isValid_set_found {follow : Bool} {e : Entry} (ht : t.IsValid)
    (hfind : t.find follow p = .ok (l, none)) : (t.set l e).IsValid := by
  obtain ⟨way, hnone⟩ := way_of_find hfind
  have hnil : l ≠ [] := by
    rintro rfl
    cases hnone
  have hroot : ∀ before : Location, before <+: [] → t.get? before = some .directory :=
    fun before hpre => by simp [List.prefix_nil.mp hpre]
  have hparent := (way.directories hroot).1 l.dropLast (List.dropLast_prefix l) fun heq => by
    have hlength := congrArg List.length heq
    rw [List.length_dropLast] at hlength
    have hpos := List.length_pos_iff.mpr hnil
    omega
  refine ht.set hnil (way.not_mem_steps List.not_mem_nil) hparent fun hdirectory => ?_
  rw [← hnone] at hdirectory
  cases hdirectory

private theorem keeps_valid_ensureDirectory (p : Path) : Keeps IsValid (ensureDirectory p) := by
  have hmake : Keeps IsValid (makeDirectory p) := by
    intro t ht
    rw [makeDirectory, after_bind, after_ask]
    refine ⟨fun ⟨l, x⟩ hfind => ?_, fun _ _ => ht⟩
    cases x with
    | none => exact isValid_set_found ht hfind
    | some e => exact ht
  refine hmake.tryCatch fun e => keeps_get.bind fun t => ?_
  split
  · exact keeps_throw e
  · exact keeps_pure _

private theorem keeps_valid_ensureFrom (root : Nat) (names : List Text) :
    Keeps IsValid (ensureFrom root names) := by
  induction names with
  | nil => exact keeps_valid_ensureDirectory _
  | cons name above ih =>
    refine (keeps_valid_ensureDirectory _).tryCatch fun e => ?_
    split
    · exact ih.bind fun _ => keeps_valid_ensureDirectory _
    · exact keeps_throw e

theorem keeps_valid_ensureDirectories (p : Path) : Keeps IsValid (ensureDirectories p) :=
  keeps_valid_ensureFrom p.root p.names.reverse

theorem keeps_valid_openForAppending (p : Path) : Keeps IsValid (openForAppending p) := by
  intro t ht
  rw [openForAppending, after_bind, after_ask]
  refine ⟨fun ⟨l, x⟩ hfind => ?_, fun _ _ => ht⟩
  cases x with
  | none => exact isValid_set_found ht hfind
  | some e => cases e <;> exact ht

end Valid

theorem after_remove_file {bytes : List UInt8} {mode : Nat}
    (h : t.find false p = .ok (l, some (.file bytes mode))) :
    After (remove p) t (fun m t' => m = l ∧ t' = t.erase l) fun _ _ => False := by
  rw [remove, after_bind, after_ask_ok h]
  exact ⟨rfl, rfl⟩

theorem after_move_file {q : Path} {m : Location} {bytes : List UInt8} {mode : Nat}
    (h : t.find false p = .ok (l, some (.file bytes mode))) (hq : t.find false q = .ok (m, none)) :
    After (move p q) t (fun ends t' => ends = (l, m) ∧ t' = (t.erase m).move l m) fun _ _ => False := by
  rw [move, after_bind, after_ask_ok h]
  dsimp only
  rw [after_bind, after_ask_ok hq]
  exact ⟨rfl, rfl⟩

theorem after_openForAppending_new (h : t.find true p = .ok (l, none)) :
    After (openForAppending p) t (fun m t' => m = l ∧ t' = t.set l (.file [] 0o644))
      fun _ _ => False := by
  rw [openForAppending, after_bind, after_ask_ok h]
  exact ⟨rfl, rfl⟩

section Linkless

theorem keeps_linkless_openForAppending (p : Path) : Keeps Linkless (openForAppending p) :=
  fun t ht => (after_openForAppending fun _ => False).imp (fun _ _ h => ht.of_changes h.2.1)
    fun _ t' h => by rwa [h]

theorem keeps_linkless_remove (p : Path) : Keeps Linkless (remove p) := by
  intro t ht
  rw [remove, after_bind, after_ask]
  refine ⟨fun ⟨l, x⟩ _ => ?_, fun _ _ => ht⟩
  cases x with
  | none => exact ht
  | some e =>
    cases e with
    | directory => exact ht
    | file | link => exact ht.erase l

theorem keeps_linkless_move (p q : Path) : Keeps Linkless (move p q) := by
  intro t ht
  rw [move, after_bind, after_ask]
  refine ⟨fun ⟨l, x⟩ hfind => ?_, fun _ _ => ht⟩
  have hx := (way_of_find hfind).2
  cases x with
  | none => exact ht
  | some e =>
    dsimp only
    rw [after_bind, after_ask]
    refine ⟨fun ⟨m, y⟩ _ => ?_, fun _ _ => ht⟩
    have hmoved : After (do
        if e = .directory && (y.isSome || l.isPrefixOf m) then throw .notDirectory
        modify fun t => (t.erase m).move l m
        return (l, m) : FileM (Location × Location)) t (fun _ => Linkless) fun _ => Linkless := by
      split
      · exact ht
      · rename_i hmay
        refine (ht.erase m).move ?_ m
        rintro rfl
        obtain rfl := Option.some.inj hx
        simp at hmay
    cases y with
    | none => exact hmoved
    | some e' =>
      cases e' with
      | directory => exact ht
      | file | link => exact hmoved

end Linkless

end FileM

end LocaleLift
