import LocaleLift.Diff.Hunk
import LocaleLift.Proofs.Diff.Script

/-! Unified diffs as patches: what a reader of their lines makes of them. -/
namespace LocaleLift.Diff

/-- Some of the lines of one side: how many come before them, and how many they are. -/
structure Range where
  start : Nat
  length : Nat
  deriving DecidableEq, Repr

/-- Lines of the old side and those that come in their place, with how many lines come before them
on either side. -/
structure Replacement where
  oldStart : Nat
  newStart : Nat
  old : List Text
  new : List Text
  deriving DecidableEq, Repr

/-- Whether a code point is one of the ten digits of a header. -/
def isDigit (c : CodePoint) : Bool :=
  c.inRange 0x30 0x39

/-- The number that a text starts with, and what follows it. -/
def number? (t : Text) : Option (Nat × Text) :=
  match t.takeWhile isDigit with
  | [] => none
  | digits => some (digits.foldl (fun n c => 10 * n + (c.toNat - 0x30)) 0, t.dropWhile isDigit)

/-- The range with a first line, counted from one, and a length. Without lines, the first one is
the line before. -/
def Range.ofFirst? (first length : Nat) : Option Range :=
  if length = 0 then some ⟨first, 0⟩
  else if 0 < first then some ⟨first - 1, length⟩
  else none

/-- The range that a text starts with, and what follows it. A length that is not given is one. -/
def range? (t : Text) : Option (Range × Text) := do
  match ← number? t with
  | (first, .scalar ',' :: t) =>
    let (length, t) ← number? t
    return (← Range.ofFirst? first length, t)
  | (first, t) => return (← Range.ofFirst? first 1, t)

/-- The ranges of either side that the first line of a hunk gives. -/
def header? (line : Text) : Option (Range × Range) := do
  let t ← Text.dropStart? "@@ -" line
  let (old, t) ← range? t
  let t ← Text.dropStart? " +" t
  let (new, t) ← range? t
  if t = " @@\n" then return (old, new) else none

/-- The line that a marked line of a hunk keeps, removes or adds. -/
def Segment.ofLine? : Text → Option Segment
  | .scalar ' ' :: l => some (.same [l])
  | .scalar '-' :: l => some (.change [l] [])
  | .scalar '+' :: l => some (.change [] [l])
  | _ => none

/-- The lines up to the first header, as those of either side, and what the hunks say from there on.
Each must have as many lines as its header says. -/
def hunks? : List Text → Option ((List Text × List Text) × List Replacement)
  | [] => some (([], []), [])
  | line :: lines => do
    let ((old, new), rest) ← hunks? lines
    match Segment.ofLine? line with
    | some s => return ((s.old ++ old, s.new ++ new), rest)
    | none =>
      let (o, n) ← header? line
      if o.length = old.length ∧ n.length = new.length then
        return (([], []), ⟨o.start, n.start, old, new⟩ :: rest)
      else none

/-- Replace lines one hunk after another. So many lines come before on either side, and a hunk must
not reach back over them. It must find the lines that it replaces where it says, and put others where
it says. -/
def replace? (before after : Nat) (lines : List Text) : List Replacement → Option (List Text)
  | [] => some lines
  | r :: rs =>
    let kept := r.oldStart - before
    if before ≤ r.oldStart ∧ r.newStart = after + kept ∧ kept ≤ lines.length ∧
        r.old <+: lines.drop kept then do
      let rest ← replace? (r.oldStart + r.old.length) (r.newStart + r.new.length)
        (lines.drop (kept + r.old.length)) rs
      return lines.take kept ++ r.new ++ rest
    else none

/-- The lines that a unified diff makes of others. An empty diff leaves them. -/
def patch? (diff lines : List Text) : Option (List Text) :=
  match diff with
  | [] => some lines
  | old :: new :: diff =>
    match Text.startsWith "--- " old && Text.startsWith "+++ " new, hunks? diff with
    | true, some (([], []), rs) => replace? 0 0 lines rs
    | _, _ => none
  | _ => none

private theorem isDigit_of_mem_toDigits {n : Nat} {c : CodePoint}
    (h : c ∈ (Nat.toDigits 10 n).map CodePoint.scalar) : isDigit c = true := by
  obtain ⟨d, hd, rfl⟩ := List.mem_map.mp h
  have hdigit := Nat.isDigit_of_mem_toDigits (by decide) (by decide) hd
  simp only [Char.isDigit, ge_iff_le, Bool.and_eq_true, decide_eq_true_eq] at hdigit
  rw [isDigit, CodePoint.inRange, CodePoint.toNat, Bool.and_eq_true]
  exact ⟨decide_eq_true hdigit.1, decide_eq_true hdigit.2⟩

private theorem foldl_digits (ds : List Char) (n : Nat) :
    (ds.map CodePoint.scalar).foldl (fun n c => 10 * n + (c.toNat - 0x30)) n =
      Nat.ofDigitChars 10 ds n := by
  rw [List.foldl_map, Nat.ofDigitChars_eq_foldl]
  rfl

private theorem number?_ofNat (n : Nat) {rest : Text} (hrest : ∀ c ∈ rest.head?, isDigit c = false) :
    number? (Text.ofNat n ++ rest) = some (n, rest) := by
  have hdigits : Text.ofNat n = (Nat.toDigits 10 n).map CodePoint.scalar := by
    rw [Text.ofNat, Text.ofString, Nat.toString_eq_ofList_toDigits, String.toList_ofList]
  have hall : ∀ c ∈ Text.ofNat n, isDigit c = true := fun c hc =>
    isDigit_of_mem_toDigits (hdigits ▸ hc)
  have hstop : rest.takeWhile isDigit = [] ∧ rest.dropWhile isDigit = rest := by
    cases rest with
    | nil => exact ⟨rfl, rfl⟩
    | cons c rest => simp [hrest c rfl]
  rw [number?, List.takeWhile_append_of_pos hall, List.dropWhile_append_of_pos hall, hstop.1,
    hstop.2, List.append_nil]
  split
  · rename_i hnil
    rw [hdigits, List.map_eq_nil_iff] at hnil
    exact absurd hnil Nat.toDigits_ne_nil
  · rw [hdigits, foldl_digits, Nat.ofDigitChars_ten_toDigits]

private theorem ofFirst?_succ (start length : Nat) (h : length ≠ 0) :
    Range.ofFirst? (start + 1) length = some ⟨start, length⟩ := by
  rw [Range.ofFirst?, if_neg h, if_pos (Nat.succ_pos start), Nat.add_sub_cancel]

/-- A range is read as it was written. -/
theorem range?_rangeText (start length : Nat) (rest : Text) :
    range? (rangeText start length ++ .scalar ' ' :: rest) =
      some (⟨start, length⟩, .scalar ' ' :: rest) := by
  have hspace : ∀ c ∈ (CodePoint.scalar ' ' :: rest).head?, isDigit c = false := by
    rintro c ⟨⟩
    rfl
  rw [rangeText]
  split
  · rename_i hone
    subst hone
    rw [range?, number?_ofNat _ hspace]
    rfl
  · rename_i hone
    have hcomma : ∀ c ∈ (Text.ofString "," ++ (Text.ofNat length ++ .scalar ' ' :: rest)).head?,
        isDigit c = false := by
      rintro c ⟨⟩
      rfl
    rw [List.append_assoc, List.append_assoc, range?, number?_ofNat _ hcomma]
    change (number? (Text.ofNat length ++ _) >>= fun _ => _) = _
    rw [number?_ofNat _ hspace]
    split
    · rename_i hzero
      subst hzero
      rfl
    · rename_i hzero
      change (Range.ofFirst? (start + 1) length >>= fun _ => _) = _
      rw [ofFirst?_succ start length hzero]
      rfl

/-- A header is read as it was written. -/
theorem header?_header (h : Hunk) :
    header? h.header = some (⟨h.oldStart, h.old.length⟩, ⟨h.newStart, h.new.length⟩) := by
  have hheader : h.header = Text.ofString "@@ -" ++ (rangeText h.oldStart h.old.length ++
      (Text.ofString " +" ++ (rangeText h.newStart h.new.length ++ Text.ofString " @@\n"))) := by
    simp only [Hunk.header, List.append_assoc]
  rw [header?, Text.dropStart?_eq_some.mpr hheader, Option.bind_eq_bind, Option.bind_some]
  change (range? (rangeText h.oldStart h.old.length ++ .scalar ' ' :: _) >>= fun _ => _) = _
  rw [range?_rangeText, Option.bind_eq_bind, Option.bind_some]
  change (range? (rangeText h.newStart h.new.length ++ .scalar ' ' :: _) >>= fun _ => _) = _
  rw [range?_rangeText]
  rfl

def Hunk.replacement (h : Hunk) : Replacement :=
  ⟨h.oldStart, h.newStart, h.old, h.new⟩

section Marked

variable {old new : List Text} {rs : List Replacement} {rest : List Text}

private theorem hunks?_marked (h : hunks? rest = some ((old, new), rs)) (mark : Char)
    (s : Text → Segment) (hs : ∀ l, Segment.ofLine? (.scalar mark :: l) = some (s l))
    (ls : List Text) : hunks? (marked mark ls ++ rest) =
      some ((ls.flatMap (fun l => (s l).old) ++ old, ls.flatMap (fun l => (s l).new) ++ new), rs) := by
  induction ls with
  | nil => exact h
  | cons l ls ih =>
    rw [marked, List.map_cons, List.cons_append, ← marked, hunks?, ih, Option.bind_eq_bind,
      Option.bind_some, hs, List.flatMap_cons, List.flatMap_cons, List.append_assoc,
      List.append_assoc]
    rfl

private theorem hunks?_segments (h : hunks? rest = some ((old, new), rs)) (segs : List Segment) :
    hunks? (segs.flatMap Segment.lines ++ rest) =
      some ((segs.flatMap Segment.old ++ old, segs.flatMap Segment.new ++ new), rs) := by
  induction segs with
  | nil => exact h
  | cons s segs ih =>
    simp only [List.flatMap_cons, List.append_assoc]
    cases s with
    | same ls =>
      have hkept := hunks?_marked ih ' ' (fun l => .same [l]) (fun _ => rfl) ls
      simpa [Segment.lines, Segment.old, Segment.new] using hkept
    | change o n =>
      have hadded := hunks?_marked ih '+' (fun l => .change [] [l]) (fun _ => rfl) n
      have hremoved := hunks?_marked hadded '-' (fun l => .change [l] []) (fun _ => rfl) o
      have hnone (ls : List Text) : ls.flatMap (fun _ => ([] : List Text)) = [] :=
        List.flatMap_eq_nil_iff.mpr fun _ _ => rfl
      rw [Segment.lines, List.append_assoc]
      simpa [Segment.old, Segment.new, hnone] using hremoved

end Marked

/-- The lines of hunks are read as what the hunks say. -/
theorem hunks?_lines (hs : List Hunk) :
    hunks? (hs.flatMap Hunk.lines) = some (([], []), hs.map Hunk.replacement) := by
  induction hs with
  | nil => rfl
  | cons h hs ih =>
    have hbody := hunks?_segments ih h.segments
    rw [List.append_nil, List.append_nil] at hbody
    rw [List.flatMap_cons, Hunk.lines, List.cons_append, hunks?, hbody, Option.bind_eq_bind,
      Option.bind_some]
    change (header? h.header >>= fun _ => _) = _
    rw [header?_header, Option.bind_eq_bind, Option.bind_some]
    exact if_pos ⟨rfl, rfl⟩

/-- A hunk that stands behind lines that stay is applied to the lines in front. -/
private theorem replace?_replacement {before after : Nat} {h : Hunk} {kept : List Text}
    (hold : h.oldStart = before + kept.length) (hnew : h.newStart = after + kept.length)
    (rest : List Text) (rs : List Replacement) :
    replace? before after (kept ++ h.old ++ rest) (h.replacement :: rs) =
      (replace? (h.oldStart + h.old.length) (h.newStart + h.new.length) rest rs).map
        (kept ++ h.new ++ ·) := by
  have hkept : h.oldStart - before = kept.length := by omega
  have hdrop : (kept ++ h.old ++ rest).drop kept.length = h.old ++ rest := by
    rw [List.append_assoc, List.drop_left]
  have hrest : (kept ++ h.old ++ rest).drop (kept.length + h.old.length) = rest := by
    rw [← List.length_append, List.drop_left]
  have htake : (kept ++ h.old ++ rest).take kept.length = kept := by
    rw [List.append_assoc, List.take_left]
  rw [replace?]
  simp only [Hunk.replacement, hkept]
  rw [if_pos ⟨by omega, hnew, by simp, hdrop ▸ List.prefix_append h.old rest⟩, hrest, htake]
  cases replace? (h.oldStart + h.old.length) (h.newStart + h.new.length) rest rs <;> rfl

/-- So many lines come before the end of a hunk on either side. -/
structure Hunk.EndsAt (h : Hunk) (old new : Nat) : Prop where
  old_eq : h.oldStart + h.old.length = old
  new_eq : h.newStart + h.new.length = new

private theorem Hunk.EndsAt.add {h : Hunk} {old new : Nat} (hends : h.EndsAt old new) (s : Segment) :
    (h.add s).EndsAt (old + s.old.length) (new + s.new.length) := by
  constructor
  · rw [Hunk.old_add, List.length_append, ← hends.old_eq, ← Nat.add_assoc]
    rfl
  · rw [Hunk.new_add, List.length_append, ← hends.new_eq, ← Nat.add_assoc]
    rfl

private theorem Hunk.afterSame_endsAt (old new : Nat) (ls : List Text) :
    (Hunk.afterSame old new ls).EndsAt (old + ls.length) (new + ls.length) := by
  constructor
  · rw [Hunk.oldStart_afterSame, Hunk.old_afterSame, List.length_drop]
    omega
  · rw [Hunk.newStart_afterSame, Hunk.new_afterSame, List.length_drop]
    omega

/-- Between the first of the lines that stay, which are shown before, and the hunk after them there is
a gap. -/
private theorem Hunk.exists_gap (old new : Nat) (ls : List Text) (shown : Nat)
    (h : shown ≤ ls.length - context) :
    ∃ gap, ls.drop shown = gap ++ (Hunk.afterSame old new ls).old ∧
      (Hunk.afterSame old new ls).oldStart = old + shown + gap.length ∧
      (Hunk.afterSame old new ls).newStart = new + shown + gap.length := by
  have hlength : ((ls.drop shown).take (ls.length - context - shown)).length =
      ls.length - context - shown := by
    rw [List.length_take, List.length_drop]
    omega
  refine ⟨(ls.drop shown).take (ls.length - context - shown), ?_, ?_, ?_⟩
  · have hlast : ls.drop (ls.length - context) =
        (ls.drop shown).drop (ls.length - context - shown) := by
      rw [List.drop_drop, Nat.add_sub_cancel' h]
    rw [Hunk.old_afterSame, hlast, List.take_append_drop]
  · rw [hlength, Hunk.oldStart_afterSame]
    omega
  · rw [hlength, Hunk.newStart_afterSame]
    omega

private theorem replace?_gather {before after : Nat} (hunk : Hunk) (kept : List Text)
    (hold : hunk.oldStart = before + kept.length) (hnew : hunk.newStart = after + kept.length)
    {old new : Nat} (hends : hunk.EndsAt old new) (segs : List Segment) :
    replace? before after (kept ++ hunk.old ++ segs.flatMap Segment.old)
        ((gather hunk old new segs).map Hunk.replacement) =
      some (kept ++ hunk.new ++ segs.flatMap Segment.new) := by
  fun_induction gather hunk old new segs generalizing before after kept with
  | case1 hunk old new =>
    rw [List.map_singleton, replace?_replacement hold hnew]
    rfl
  | case2 hunk old new ls =>
    have hlast := replace?_replacement (h := hunk.add (.same (ls.take context))) hold hnew
      (ls.drop context) []
    rw [Hunk.old_add, Hunk.new_add] at hlast
    simp only [Segment.old, Segment.new, List.append_assoc, List.take_append_drop] at hlast
    simpa [Segment.old, Segment.new, replace?] using hlast
  | case3 hunk old new ls rest hrest old' new' =>
    rename_i hlong ih
    -- Of the lines that stay, the first are shown with this hunk and the last with the next one.
    obtain ⟨gap, hgap, hgapOld, hgapNew⟩ := Hunk.exists_gap old new ls context (by omega)
    have hshown : (ls.take context).length = context := List.length_take_of_le (by omega)
    have hthis := replace?_replacement (h := hunk.add (.same (ls.take context))) hold hnew
      (ls.drop context ++ rest.flatMap Segment.old)
      ((gather (Hunk.afterSame old new ls) old' new' rest).map Hunk.replacement)
    have hends' := hends.add (.same (ls.take context))
    have hnext := ih gap hgapOld hgapNew (Hunk.afterSame_endsAt old new ls)
    rw [hends'.old_eq, hends'.new_eq, Hunk.old_add, Hunk.new_add] at hthis
    simp only [Segment.old, Segment.new, hshown] at hthis
    rw [Hunk.new_afterSame, ← Hunk.old_afterSame old new, ← hgap] at hnext
    have hjoin (as bs : List Text) : kept ++ (as ++ ls.take context) ++ (ls.drop context ++ bs) =
        kept ++ as ++ (ls ++ bs) := by
      rw [← List.append_assoc kept, List.append_assoc (kept ++ as),
        ← List.append_assoc (ls.take context), List.take_append_drop]
    rw [hnext, hjoin, Option.map_some, hjoin] at hthis
    exact hthis
  | case4 hunk old new ls rest hrest old' new' =>
    rename_i hshort ih
    have h := ih kept hold hnew (hends.add (.same ls))
    rw [Hunk.old_add, Hunk.new_add] at h
    simpa [Segment.old, Segment.new] using h
  | case5 hunk old new o n rest ih =>
    have h := ih kept hold hnew (hends.add (.change o n))
    rw [Hunk.old_add, Hunk.new_add] at h
    simpa [Segment.old, Segment.new] using h

private theorem replace?_hunks (segs : List Segment) :
    replace? 0 0 (segs.flatMap Segment.old) ((hunks segs).map Hunk.replacement) =
      some (segs.flatMap Segment.new) := by
  rw [hunks.eq_def]
  split
  · rfl
  · rfl
  · rename_i ls rest hrest
    obtain ⟨gap, hgap, hgapOld, hgapNew⟩ := Hunk.exists_gap 0 0 ls 0 (Nat.zero_le _)
    have h := replace?_gather _ gap hgapOld hgapNew (Hunk.afterSame_endsAt 0 0 ls) rest
    rw [Hunk.new_afterSame, ← Hunk.old_afterSame 0 0, ← hgap] at h
    simpa [Segment.old, Segment.new] using h
  · exact replace?_gather ⟨0, 0, []⟩ [] rfl rfl ⟨rfl, rfl⟩ segs

private theorem gather_ne_nil (hunk : Hunk) (old new : Nat) (segs : List Segment) :
    gather hunk old new segs ≠ [] := by
  fun_induction gather hunk old new segs with
  | case1 | case2 | case3 => exact List.cons_ne_nil _ _
  | case4 _ _ _ _ _ _ _ _ _ ih => exact ih
  | case5 _ _ _ _ _ _ ih => exact ih

/-- Only a script without changes has no hunks. -/
theorem hunks_eq_nil_iff {segs : List Segment} :
    hunks segs = [] ↔ segs = [] ∨ ∃ ls, segs = [.same ls] := by
  constructor
  · intro h
    rw [hunks.eq_def] at h
    split at h
    · exact .inl rfl
    · exact .inr ⟨_, rfl⟩
    · exact absurd h (gather_ne_nil _ _ _ _)
    · exact absurd h (gather_ne_nil _ _ _ _)
  · rintro (rfl | ⟨ls, rfl⟩) <;> rfl

/-- There is nothing to print exactly if the texts are equal. -/
theorem hunks_script_eq_nil_iff {old new : Text} :
    hunks (script (Text.lines old) (Text.lines new)) = [] ↔ old = new := by
  rw [hunks_eq_nil_iff]
  constructor
  · intro h
    obtain ⟨hold, hnew⟩ := sides_script (Text.lines old) (Text.lines new)
    have hlines : Text.lines old = Text.lines new := by
      rcases h with h | ⟨ls, h⟩
      · rw [h] at hold hnew
        exact hold.symm.trans hnew
      · rw [h] at hold hnew
        exact hold.symm.trans hnew
    rw [← Text.flatten_lines old, hlines, Text.flatten_lines]
  · rintro rfl
    rw [script_self]
    split
    · exact .inl rfl
    · exact .inr ⟨_, rfl⟩

private theorem patch?_names {old new : Text} {diff lines : List Text} {rs : List Replacement}
    (hold : Text.startsWith "--- " old = true) (hnew : Text.startsWith "+++ " new = true)
    (hdiff : hunks? diff = some (([], []), rs)) :
    patch? (old :: new :: diff) lines = replace? 0 0 lines rs := by
  rw [patch?, hold, hnew, hdiff]
  rfl

/-- A unified diff is its lines joined, and these are a patch: applied to the lines of the old text,
where the headers say, it gives the lines of the new one. It is empty exactly if the texts are
equal. -/
theorem unifiedLines_patches (path : Path) (old new : Text) :
    unified path old new = (unifiedLines path old new).flatten ∧
      patch? (unifiedLines path old new) (Text.lines old) = some (Text.lines new) ∧
      (unified path old new = [] ↔ old = new) := by
  refine ⟨rfl, ?_, ?_⟩
  · rw [unifiedLines]
    split
    · rename_i hnone
      rw [hunks_script_eq_nil_iff.mp hnone]
      rfl
    · obtain ⟨hold, hnew⟩ := sides_script (Text.lines old) (Text.lines new)
      have h := replace?_hunks (script (Text.lines old) (Text.lines new))
      rw [hold, hnew] at h
      rw [patch?_names rfl rfl (hunks?_lines _), h]
  · rw [unified, unifiedLines]
    split
    · rename_i hnone
      exact ⟨fun _ => hunks_script_eq_nil_iff.mp hnone, fun _ => rfl⟩
    · rename_i hsome
      exact ⟨nofun, fun heq => absurd (hunks_script_eq_nil_iff.mpr heq) hsome⟩

/-- A line that is replaced, with its number and all lines around it. -/
example : unifiedLines (Text.ofString "a") "1\n2\n" "1\n3\n" =
    [Text.ofString "--- a/a\n", Text.ofString "+++ b/a\n", Text.ofString "@@ -1,2 +1,2 @@\n",
      Text.ofString " 1\n", Text.ofString "-2\n", Text.ofString "+3\n"] := by
  decide +kernel

end LocaleLift.Diff
