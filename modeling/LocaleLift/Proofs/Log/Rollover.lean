import LocaleLift.Proofs.Files.Reach
import LocaleLift.Proofs.Log.Session

/-! Rolling a log file over: each older file takes the place of the next one, and the log file is
begun anew. -/
namespace LocaleLift

namespace Log

def slot (p : Path) (n : Nat) : Location :=
  (backup p n).names

section Slot

variable {p q : Path} {n m k : Nat}

private theorem ofNat_eq (n : Nat) : Text.ofNat n = (Nat.toDigits 10 n).map CodePoint.scalar := by
  rw [Text.ofNat, Text.ofString, Nat.toString_eq_ofList_toDigits, String.toList_ofList]

private theorem ofNat_injective (h : Text.ofNat n = Text.ofNat m) : n = m := by
  rw [ofNat_eq, ofNat_eq] at h
  have hdigits := List.map_injective_iff.mpr (fun _ _ => CodePoint.scalar.inj) h
  rw [← Nat.ofDigitChars_ten_toDigits (n := n), hdigits, Nat.ofDigitChars_ten_toDigits]

private theorem point_not_mem_ofNat (n : Nat) : CodePoint.scalar '.' ∉ Text.ofNat n := by
  rw [ofNat_eq]
  intro h
  obtain ⟨c, hc, hpoint⟩ := List.mem_map.mp h
  obtain rfl := CodePoint.scalar.inj hpoint
  exact absurd (Nat.isDigit_of_mem_toDigits (by decide) (by decide) hc) (by decide)

private theorem append_point_inj {x y d e : Text} (hd : CodePoint.scalar '.' ∉ d)
    (he : CodePoint.scalar '.' ∉ e)
    (h : x ++ CodePoint.scalar '.' :: d = y ++ CodePoint.scalar '.' :: e) : x = y ∧ d = e := by
  obtain ⟨z, hy, htail⟩ | ⟨z, hx, htail⟩ := List.append_eq_append_iff.mp h
  · cases z with
    | nil => exact ⟨by simpa using hy.symm, (List.cons.inj htail).2⟩
    | cons c z => exact absurd (by simp [(List.cons.inj htail).2]) hd
  · cases z with
    | nil => exact ⟨by simpa using hx, (List.cons.inj htail).2.symm⟩
    | cons c z => exact absurd (by simp [(List.cons.inj htail).2]) he

/-- A number at the end of a name can be told from the name. -/
private theorem numbered_inj {x y : Text}
    (h : x ++ "." ++ Text.ofNat n = y ++ "." ++ Text.ofNat m) : x = y ∧ n = m := by
  rw [List.append_assoc, List.append_assoc] at h
  exact (append_point_inj (point_not_mem_ofNat n) (point_not_mem_ofNat m) h).imp_right ofNat_injective

private theorem dropLast_append_name (hp : p.names ≠ []) : p.names = p.names.dropLast ++ [p.name] := by
  rw [Path.name, List.getLast?_eq_some_getLast hp, Option.getD_some, List.dropLast_append_getLast hp]

theorem slot_succ (p : Path) (n : Nat) :
    slot p (n + 1) = p.names.dropLast ++ [p.name ++ "." ++ Text.ofNat (n + 1)] := rfl

theorem dropLast_slot (p : Path) (n : Nat) : (slot p n).dropLast = p.names.dropLast := by
  cases n with
  | zero => rfl
  | succ n => rw [slot_succ, List.dropLast_concat]

theorem slot_ne_nil (hp : p.names ≠ []) (n : Nat) : slot p n ≠ [] := by
  cases n with
  | zero => exact hp
  | succ n => simp [slot_succ]

private theorem length_slot (hp : p.names ≠ []) (n : Nat) : (slot p n).length = p.names.length := by
  have hpos := List.length_pos_iff.mpr hp
  cases n with
  | zero => rfl
  | succ n =>
    rw [slot_succ, List.length_append, List.length_dropLast, List.length_singleton]
    omega

theorem slot_inj (hp : p.names ≠ []) (h : slot p n = slot p m) : n = m := by
  have hne (n : Nat) : slot p 0 ≠ slot p (n + 1) := by
    intro h
    have hname := List.singleton_inj.mp
      (List.append_cancel_left ((dropLast_append_name hp).symm.trans h))
    rw [List.append_assoc] at hname
    exact List.cons_ne_nil _ _ (List.self_eq_append_right.mp hname)
  cases n with
  | zero =>
    cases m with
    | zero => rfl
    | succ m => exact absurd h (hne m)
  | succ n =>
    cases m with
    | zero => exact absurd h.symm (hne n)
    | succ m =>
      rw [slot_succ, slot_succ] at h
      exact (numbered_inj (List.singleton_inj.mp (List.append_cancel_left h))).2

theorem not_mem_slot (hsteps : (".." : Text) ∉ p.names) (n : Nat) : (".." : Text) ∉ slot p n := by
  cases n with
  | zero => exact hsteps
  | succ n =>
    rw [slot_succ, List.mem_append, List.mem_singleton, not_or]
    refine ⟨fun hmem => hsteps ((List.dropLast_prefix _).subset hmem), fun h => ?_⟩
    -- A name that ends in a number does not end in a point.
    rw [List.append_assoc] at h
    have hpoint : p.name ++ CodePoint.scalar '.' :: Text.ofNat (n + 1) =
        [CodePoint.scalar '.'] ++ CodePoint.scalar '.' :: [] := h.symm
    obtain ⟨-, hdigits⟩ := append_point_inj (point_not_mem_ofNat _) List.not_mem_nil hpoint
    rw [ofNat_eq, List.map_eq_nil_iff] at hdigits
    exact Nat.toDigits_ne_nil hdigits

/-- The log files of one path stand apart from those of another one, if none of the older ones is the
other log file itself or stands on the way to it. -/
theorem slot_ne_slot (hp : p.names ≠ []) (hq : q.names ≠ []) (hne : p.names ≠ q.names)
    (hpq : ∀ n, n < k → ¬ slot p (n + 1) <+: q.names) (hqp : ∀ n, n < k → ¬ slot q (n + 1) <+: p.names)
    (hn : n ≤ k) (hm : m ≤ k) : slot p n ≠ slot q m := by
  intro h
  cases n with
  | zero =>
    cases m with
    | zero => exact hne h
    | succ m => exact hqp m hm (h ▸ List.prefix_refl _)
  | succ n =>
    cases m with
    | zero => exact hpq n hn (h ▸ List.prefix_refl _)
    | succ m =>
      rw [slot_succ, slot_succ] at h
      obtain ⟨hdirectory, hname⟩ := List.append_inj' h rfl
      refine hne ?_
      rw [dropLast_append_name hp, dropLast_append_name hq, hdirectory,
        (numbered_inj (List.singleton_inj.mp hname)).1]

end Slot

/-- The log files of a path can be moved about: they can be found, and nothing but files stands in
their places. -/
structure CanShift (p : Path) (k : Nat) (t : FileTree) : Prop where
  valid : t.IsValid
  linkless : t.Linkless
  nonempty : p.names ≠ []
  steps : (".." : Text) ∉ p.names
  above : t.get? p.names.dropLast = some .directory
  fits : ∀ n ≤ k, (backup p n).Fits
  plain : ∀ n ≤ k, t.get? (slot p n) ≠ some .directory

namespace CanShift

variable {p : Path} {k n : Nat} {t t' : FileTree}

theorem find (h : CanShift p k t) (hn : n ≤ k) (follow : Bool) :
    t.find follow (backup p n) = .ok (slot p n, t.get? (slot p n)) := by
  have hstraight {before : List Text} (hpre : before <+: slot p n) :
      FileTree.straight [] before = before :=
    FileTree.straight_of_not_mem [] fun hmem => not_mem_slot h.steps n (hpre.subset hmem)
  have habove (before : List Text) (hpre : before <+: slot p n) (hne : before ≠ slot p n) :
      t.get? before = some .directory := by
    have hconcat := List.dropLast_append_getLast (slot_ne_nil h.nonempty n)
    rw [dropLast_slot] at hconcat
    rw [← hconcat] at hpre hne
    obtain ⟨rest, hrest⟩ := (List.prefix_concat_iff.mp hpre).resolve_left hne
    by_cases hnil : rest = []
    · rw [← List.append_nil before, ← hnil, hrest, h.above]
    · exact h.valid.directory hnil (by simp [hrest, h.above])
  have hsizes : ∀ name ∈ slot p n, Utf8.size name ≤ FileTree.maxName := (h.fits n hn).name
  rw [FileTree.find_of_fits (h.fits n hn), show (backup p n).names = slot p n from rfl,
    FileTree.findFrom_straight (fun before hpre hne => by rw [hstraight hpre, habove before hpre hne])
      fun _ => h.linkless _, if_pos hsizes, hstraight (List.prefix_refl _)]

theorem file_of_get? (h : CanShift p k t) (hn : n ≤ k) {e : Entry} (he : t.get? (slot p n) = some e) :
    ∃ bytes mode, e = .file bytes mode := by
  cases e with
  | directory => exact absurd he (h.plain n hn)
  | file bytes mode => exact ⟨bytes, mode, rfl⟩
  | link x => exact absurd he (h.linkless _ x)

theorem file_of_or (h : CanShift p k t) {m : Nat} (hm : m ≤ k) (hn : n ≤ k) {e : Entry}
    (he : (t.get? (slot p m)).or (t.get? (slot p n)) = some e) :
    ∃ bytes mode, e = .file bytes mode := by
  cases hget : t.get? (slot p m) with
  | some e' =>
    rw [hget, Option.some_or] at he
    exact h.file_of_get? hm (hget.trans he)
  | none =>
    rw [hget, Option.none_or] at he
    exact h.file_of_get? hn he

/-- Nothing stands below a log file. -/
theorem get?_below (h : CanShift p k t) (hn : n ≤ k) {rest : List Text} (hrest : rest ≠ []) :
    t.get? (slot p n ++ rest) = none := by
  refine Decidable.byContradiction fun hget => ?_
  exact h.plain n hn (h.valid.directory hrest hget)

/-- When only the log files have been changed, they can still be moved about. -/
theorem of_get? (h : CanShift p k t)
    (hothers : ∀ l, (∀ n ≤ k, l ≠ slot p n) → t'.get? l = t.get? l)
    (hslots : ∀ n ≤ k, ∀ e, t'.get? (slot p n) = some e → ∃ bytes mode, e = .file bytes mode) :
    CanShift p k t' := by
  have hplain (n : Nat) (hn : n ≤ k) : t'.get? (slot p n) ≠ some .directory := by
    intro hget
    obtain ⟨_, _, he⟩ := hslots n hn _ hget
    cases he
  have hslot (l : Location) : (∃ n ≤ k, l = slot p n) ∨ t'.get? l = t.get? l := by
    by_cases hl : ∃ n ≤ k, l = slot p n
    · exact .inl hl
    · exact .inr (hothers l fun n hn heq => hl ⟨n, hn, heq⟩)
  have habove : t'.get? p.names.dropLast = some .directory := by
    obtain ⟨n, hn, hl⟩ | hl := hslot p.names.dropLast
    · exact absurd (hl ▸ h.above) (h.plain n hn)
    · rw [hl, h.above]
  refine ⟨⟨fun l hget => ?_, fun l name hget => ?_⟩, fun l x hget => ?_, h.nonempty, h.steps, habove,
    h.fits, hplain⟩
  · obtain ⟨n, -, rfl⟩ | hl := hslot l
    · exact not_mem_slot h.steps n
    · exact h.valid.steps l (hl ▸ hget)
  · obtain ⟨n, -, hl⟩ | hl := hslot (l ++ [name])
    · have hdrop := congrArg List.dropLast hl
      rw [List.dropLast_concat, dropLast_slot] at hdrop
      rw [hdrop, habove]
    · have hparent := h.valid.parent l name (hl ▸ hget)
      obtain ⟨n, hn, rfl⟩ | hl := hslot l
      · exact absurd hparent (h.plain n hn)
      · rw [hl, hparent]
  · obtain ⟨n, hn, rfl⟩ | hl := hslot l
    · obtain ⟨_, _, he⟩ := hslots n hn _ hget
      cases he
    · exact h.linkless l x (hl ▸ hget)

/-- When the log files of one path have been changed, those of another one can still be moved about. -/
theorem of_other {q : Path} (hq : CanShift q k t) (hp : CanShift p k t) (hp' : CanShift p k t')
    (hothers : ∀ l, (∀ n ≤ k, l ≠ slot p n) → t'.get? l = t.get? l)
    (hne : ∀ m ≤ k, ∀ n ≤ k, slot q m ≠ slot p n) : CanShift q k t' where
  valid := hp'.valid
  linkless := hp'.linkless
  nonempty := hq.nonempty
  steps := hq.steps
  above := by
    rw [hothers _ fun n hn heq => hp.plain n hn (heq ▸ hq.above), hq.above]
  fits := hq.fits
  plain n hn := by
    rw [hothers _ fun m hm => hne n hn m hm]
    exact hq.plain n hn

end CanShift

/-- What stands in the places of a log file and of the older ones. -/
abbrev Slots := Nat → Option Entry

namespace Slots

variable {b : Slots} {k n : Nat}

def clear (b : Slots) (n : Nat) : Slots := fun m =>
  if m = n then none else b m

/-- One of the files, if it is there, takes the place of the next one. -/
def shift (b : Slots) (n : Nat) : Slots := fun m =>
  if b n = none then b m else if m = n + 1 then b n else if m = n then none else b m

/-- All files move on by one, and the last one goes. -/
def roll (b : Slots) (k : Nat) : Slots :=
  (((List.range (k - 1)).reverse.foldl (fun b n => b.shift (n + 1)) b).clear 1).shift 0

private theorem foldl_shift (b : Slots) (m n : Nat) :
    (List.range m).reverse.foldl (fun b n => b.shift (n + 1)) b n =
      if n = 0 ∨ m + 1 < n ∨ m = 0 then b n
      else if n = 1 then none
      else if n = m + 1 then (b m).or (b (m + 1))
      else b (n - 1) := by
  induction m generalizing b n with
  | zero => simp
  | succ m ih =>
    rw [List.range_succ, List.reverse_append, List.reverse_singleton, List.singleton_append,
      List.foldl_cons, ih]
    cases hlast : b (m + 1) <;> grind [shift]

/-- The last of the files goes only if there is one to take its place. -/
theorem roll_apply (hk : 0 < k) (hfile : b 0 ≠ none) :
    b.roll k n =
      if n = 0 then none else if k < n then b n
      else if n = k then (b (k - 1)).or (b k) else b (n - 1) := by
  rw [roll, shift, clear, foldl_shift]
  simp only [clear, foldl_shift]
  cases hzero : b 0 <;> grind

end Slots

/-- No file that is open stands in the place of a log file, or below it. -/
def Logger.Apart (p : Path) (k : Nat) (g : Logger) : Prop :=
  ∀ f ∈ g.files, ∀ l, f.stream = some (.visible l) → ∀ n ≤ k, ¬ slot p n <+: l

namespace Session

/-- The files of a session have changed in the places of a log file only, which can still be moved
about. -/
structure Rolling (p : Path) (k : Nat) (s₀ : Session) (b : Slots) (s : Session) : Prop where
  session : s = { s₀ with tree := s.tree }
  can : CanShift p k s.tree
  slots : ∀ n ≤ k, s.tree.get? (slot p n) = b n
  others : ∀ l, (∀ n ≤ k, l ≠ slot p n) → s.tree.get? l = s₀.tree.get? l

variable {p : Path} {k n : Nat} {s₀ s : Session} {b : Slots}

private theorem mapStreams_eq_self {g : Logger} {h : OpenFile → OpenFile}
    (hg : ∀ f ∈ g.files, ∀ o, f.stream = some o → h o = o) : g.mapStreams h = g := by
  have hmap (x : Handler) (hx : x ∈ g.handlers) :
      x.mapFile (fun f => { f with stream := f.stream.map h }) = x := by
    cases x with
    | console => rfl
    | file f =>
      have hstream : f.stream.map h = f.stream := by
        cases ho : f.stream with
        | none => rfl
        | some o => exact congrArg some (hg f (List.mem_filterMap.mpr ⟨_, hx, rfl⟩) o ho)
      rw [Handler.mapFile, hstream]
  rw [Logger.mapStreams, List.map_congr_left hmap, List.map_id']

private theorem displace_of_ne {o : OpenFile} {l : Location} {size : Nat}
    (h : ∀ m, o = .visible m → m ≠ l) : o.displace l size = o := by
  cases o with
  | hidden => rfl
  | visible m => rw [OpenFile.displace, if_neg (h m rfl)]

private theorem move_of_not_prefix {o : OpenFile} {l m : Location}
    (h : ∀ j, o = .visible j → ¬ l <+: j) : o.move l m = o := by
  cases o with
  | hidden => rfl
  | visible j =>
    rw [OpenFile.move, FileTree.moved, if_neg fun hpre => h j rfl (List.isPrefixOf_iff_prefix.mp hpre)]

private theorem Rolling.isThere (h : Rolling p k s₀ b s) (hn : n ≤ k) :
    s.tree.isThere (backup p n) = (b n).isSome := by
  rw [FileTree.isThere, h.can.find hn, h.slots n hn]
  cases b n <;> rfl

/-- Another change in the places of the log files. -/
private theorem Rolling.step {b' : Slots} {t : FileTree} (h : Rolling p k s₀ b s)
    (hslots : ∀ n ≤ k, t.get? (slot p n) = b' n)
    (hplain : ∀ n ≤ k, b' n = none ∨ ∃ m ≤ k, b' n = b m)
    (hothers : ∀ l, (∀ n ≤ k, l ≠ slot p n) → t.get? l = s.tree.get? l) :
    Rolling p k s₀ b' { s with tree := t } where
  session := by rw [h.session]
  can := by
    refine h.can.of_get? hothers fun n hn e he => ?_
    rw [hslots n hn] at he
    obtain hnone | ⟨m, hm, hsome⟩ := hplain n hn
    · rw [hnone] at he
      cases he
    · rw [hsome, ← h.slots m hm] at he
      exact h.can.file_of_get? hm he
  slots := hslots
  others l hl := by rw [hothers l hl, h.others l hl]

private theorem after_clear (h : Rolling p k s₀ b s) (hapart : s₀.logger.Apart p k) (hn : n ≤ k) :
    After (clear (backup p n)) s (fun _ => Rolling p k s₀ (b.clear n)) fun _ _ => False := by
  have hnil := slot_ne_nil h.can.nonempty n
  rw [clear, after_bind, after_get, h.isThere hn]
  cases hb : b n with
  | none =>
    have hsame : b.clear n = b := by
      funext m
      rw [Slots.clear]
      split
      · rename_i hm
        rw [hm, hb]
      · rfl
    rw [hsame]
    exact h
  | some e =>
    obtain ⟨bytes, mode, rfl⟩ := h.can.file_of_get? hn ((h.slots n hn).trans hb)
    have hfind := h.can.find hn false
    rw [h.slots n hn, hb] at hfind
    rw [Option.isSome_some, if_pos rfl, displacing, after_bind, after_get, after_bind, after_onFiles]
    refine (FileM.after_remove_file hfind).imp (fun place t ht => ?_) fun _ _ => False.elim
    obtain ⟨rfl, rfl⟩ := ht
    have hstreams : s.logger.mapStreams (.displace (slot p n) (s.tree.size (slot p n))) = s.logger := by
      refine mapStreams_eq_self fun f hf o ho => displace_of_ne fun m hm => ?_
      rw [h.session] at hf
      rintro rfl
      exact hapart f hf _ (hm ▸ ho) n hn (List.prefix_refl _)
    rw [after_modify]
    dsimp only
    rw [hstreams]
    refine h.step (fun m hm => ?_) (fun m hm => ?_) fun l hl => ?_
    · rw [FileTree.get?_erase hnil, h.slots m hm, Slots.clear]
      by_cases hmn : m = n
      · rw [if_pos hmn, hmn, if_pos rfl]
      · rw [if_neg hmn, if_neg fun heq => hmn (slot_inj h.can.nonempty heq)]
    · rw [Slots.clear]
      split
      · exact .inl rfl
      · exact .inr ⟨m, hm, rfl⟩
    · rw [FileTree.get?_erase hnil, if_neg (hl n hn)]

/-- A log file is moved to where nothing stands. -/
private theorem after_move (h : Rolling p k s₀ b s) (hapart : s₀.logger.Apart p k) (hn : n < k)
    (hfile : b n ≠ none) (hnone : b (n + 1) = none) :
    After (move (backup p n) (backup p (n + 1))) s (fun _ => Rolling p k s₀ (b.shift n))
      fun _ _ => False := by
  have hle : n ≤ k := Nat.le_of_lt hn
  have hne : slot p n ≠ slot p (n + 1) := fun heq =>
    absurd (slot_inj h.can.nonempty heq) (Nat.ne_of_lt (Nat.lt_succ_self n))
  obtain ⟨e, he⟩ := Option.ne_none_iff_exists'.mp hfile
  obtain ⟨bytes, mode, rfl⟩ := h.can.file_of_get? hle ((h.slots n hle).trans he)
  have hfrom := h.can.find hle false
  have hto := h.can.find hn false
  rw [h.slots n hle, he] at hfrom
  rw [h.slots (n + 1) hn, hnone] at hto
  rw [move, after_bind, after_get, after_bind, after_onFiles]
  refine (FileM.after_move_file hfrom hto).imp (fun ends t ht => ?_) fun _ _ => False.elim
  obtain ⟨rfl, rfl⟩ := ht
  have hstreams (size : Nat) : s.logger.mapStreams
      (fun o => (o.displace (slot p (n + 1)) size).move (slot p n) (slot p (n + 1))) = s.logger := by
    refine mapStreams_eq_self fun f hf o ho => ?_
    rw [h.session] at hf
    have hopen (l : Location) (hl : o = .visible l) := hapart f hf l (hl ▸ ho)
    rw [displace_of_ne fun l hl => ?_, move_of_not_prefix fun l hl => hopen l hl n hle]
    rintro rfl
    exact hopen _ hl (n + 1) hn (List.prefix_refl _)
  dsimp only
  rw [after_modify]
  dsimp only
  rw [hstreams]
  have hget := FileTree.get?_erase_move (slot_ne_nil h.can.nonempty n)
    (slot_ne_nil h.can.nonempty (n + 1)) hne (fun _ => h.can.get?_below hle)
  refine h.step (fun m hm => ?_) (fun m hm => ?_) fun l hl => ?_
  · have hslot (j : Nat) : slot p m = slot p j ↔ m = j :=
      ⟨slot_inj h.can.nonempty, fun heq => heq ▸ rfl⟩
    rw [hget, Slots.shift, if_neg hfile, h.slots n hle, h.slots m hm]
    simp only [hslot]
  · rw [Slots.shift, if_neg hfile]
    split
    · exact .inr ⟨n, hle, rfl⟩
    · split
      · exact .inl rfl
      · exact .inr ⟨m, hm, rfl⟩
  · rw [hget, if_neg (hl (n + 1) hn), if_neg (hl n hle)]

private theorem after_shift (h : Rolling p k s₀ b s) (hapart : s₀.logger.Apart p k) (hn : n < k) :
    After (shift p n) s (fun _ => Rolling p k s₀ (b.shift n)) fun _ _ => False := by
  rw [shift, after_bind, after_get, h.isThere (Nat.le_of_lt hn)]
  by_cases hb : b n = none
  · have hsame : b.shift n = b := funext fun m => by rw [Slots.shift, if_pos hb]
    rw [hb, hsame]
    exact h
  · rw [if_pos (Option.isSome_iff_ne_none.mpr hb), after_bind]
    refine (after_clear h hapart hn).imp (fun _ s hs => ?_) fun _ _ => False.elim
    have hkept : b.clear (n + 1) n = b n := if_neg (Nat.ne_of_lt (Nat.lt_succ_self n))
    have hsame : (b.clear (n + 1)).shift n = b.shift n := by
      funext m
      simp only [Slots.shift, Slots.clear]
      grind
    rw [← hsame]
    exact after_move hs hapart hn (hkept ▸ hb) (if_pos rfl)

private theorem after_shifts (hapart : s₀.logger.Apart p k) {m : Nat} (hm : m < k)
    (h : Rolling p k s₀ b s) :
    After ((List.range m).reverse.forM fun n => shift p (n + 1)) s
      (fun _ => Rolling p k s₀ ((List.range m).reverse.foldl (fun b n => b.shift (n + 1)) b))
      fun _ _ => False := by
  induction m generalizing b s with
  | zero => exact h
  | succ m ih =>
    rw [List.range_succ, List.reverse_append, List.reverse_singleton, List.singleton_append,
      after_forM_cons]
    exact (after_shift h hapart hm).imp (fun _ _ hs => ih (Nat.lt_of_succ_lt hm) hs)
      fun _ _ => False.elim

/-- All log files have moved on by one, the last of them has gone if another one takes its place, and
an empty file has been begun. -/
structure RolledOver (p : Path) (k : Nat) (t t' : FileTree) : Prop where
  begun : t'.get? p.names = some (.file [] 0o644)
  older : ∀ n < k, t'.get? (slot p (n + 1)) =
    if n + 1 = k then (t.get? (slot p n)).or (t.get? (slot p (n + 1))) else t.get? (slot p n)
  others : ∀ l, (∀ n ≤ k, l ≠ slot p n) → t'.get? l = t.get? l

/-- Rolling a log file over comes to its end if the log files can be moved about and no other file
that is open stands in their way. -/
theorem after_rollOver {i : Nat} {f : LogFile} (hbackups : 0 < f.rollover.backups)
    (hcan : CanShift f.path f.rollover.backups s.tree) (hfile : s.tree.get? f.path.names ≠ none)
    (hapart : (s.logger.setStream i none).Apart f.path f.rollover.backups) :
    After (rollOver i f) s
      (fun o s' => o = .visible f.path.names ∧
        s'.logger = (s.logger.setStream i none).setStream i (some o) ∧ s'.console = s.console ∧
        s.renewals < s'.renewals ∧ RolledOver f.path f.rollover.backups s.tree s'.tree)
      fun _ _ => False := by
  have hk : f.rollover.backups - 1 < f.rollover.backups := Nat.sub_lt hbackups Nat.one_pos
  rw [rollOver, after_bind, after_modify, after_bind, setStream, after_modify, if_pos hbackups,
    after_bind]
  generalize hs₀ : ({ s with renewals := _, logger := _ } : Session) = s₀
  have htree : s₀.tree = s.tree := by rw [← hs₀]
  have hlogger : s₀.logger = s.logger.setStream i none := by rw [← hs₀]
  have hstart : Rolling f.path f.rollover.backups s₀ (fun n => s.tree.get? (slot f.path n)) s₀ :=
    ⟨rfl, htree ▸ hcan, fun n _ => by rw [htree], fun _ _ => rfl⟩
  have hapart : s₀.logger.Apart f.path f.rollover.backups := hlogger ▸ hapart
  refine (after_shifts hapart hk hstart).imp (fun _ s₁ h₁ => ?_) fun _ _ => False.elim
  rw [after_bind]
  refine (after_clear h₁ hapart hbackups).imp (fun _ s₂ h₂ => ?_) fun _ _ => False.elim
  rw [after_bind]
  refine (after_shift h₂ hapart hbackups).imp (fun _ s₃ h₃ => ?_) fun _ _ => False.elim
  have hslots (n : Nat) (hn : n ≤ f.rollover.backups) :=
    (h₃.slots n hn).trans (Slots.roll_apply hbackups hfile)
  have hfind := h₃.can.find (Nat.zero_le _) true
  rw [hslots 0 (Nat.zero_le _), if_pos rfl] at hfind
  rw [reopen, after_bind, after_modify, after_bind, after_onFiles]
  refine (FileM.after_openForAppending_new hfind).imp (fun place t ht => ?_) fun _ _ => False.elim
  obtain ⟨rfl, rfl⟩ := ht
  rw [setStream, after_bind, after_modify, after_pure]
  have hset (l : Location) : (s₃.tree.set (slot f.path 0) (.file [] 0o644)).get? l =
      if l = slot f.path 0 then some (.file [] 0o644) else s₃.tree.get? l :=
    FileTree.get?_set (slot_ne_nil h₃.can.nonempty 0)
  refine ⟨rfl, ?_, ?_, ?_, ?_, fun n hn => ?_, fun l hl => ?_⟩
  · rw [h₃.session]
    exact congrArg (Logger.setStream · i _) hlogger
  · rw [h₃.session, ← hs₀]
  · rw [h₃.session, ← hs₀]
    exact Nat.lt_succ_of_lt (Nat.lt_succ_self _)
  · exact (hset _).trans (if_pos rfl)
  · have hne : slot f.path (n + 1) ≠ slot f.path 0 := fun heq =>
      absurd (slot_inj h₃.can.nonempty heq) (Nat.succ_ne_zero n)
    refine ((hset _).trans (if_neg hne)).trans ?_
    rw [hslots (n + 1) hn, if_neg (Nat.succ_ne_zero n), if_neg (Nat.not_lt.mpr hn)]
    split
    · rename_i hlast
      rw [← hlast]
      rfl
    · rfl
  · refine ((hset _).trans (if_neg (hl 0 (Nat.zero_le _)))).trans ?_
    rw [h₃.others l hl, htree]

end Session

end Log
end LocaleLift
