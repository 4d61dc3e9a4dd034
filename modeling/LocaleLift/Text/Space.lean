import LocaleLift.Text

/-! White space, and trimming by it. -/
namespace LocaleLift

/-- White space is what Unicode counts as a separator of words or lines, and the four
separator controls. -/
def CodePoint.isSpace (c : CodePoint) : Bool :=
  c.inRange 0x09 0x0D || c.inRange 0x1C 0x20 || c.toNat == 0x85 || c.toNat == 0xA0 ||
    c.toNat == 0x1680 || c.inRange 0x2000 0x200A || c.inRange 0x2028 0x2029 ||
    c.toNat == 0x202F || c.toNat == 0x205F || c.toNat == 0x3000

namespace Text

def trimStart (t : Text) : Text :=
  t.dropWhile (·.isSpace)

def trimEnd (t : Text) : Text :=
  (t.reverse.dropWhile (·.isSpace)).reverse

def trim (t : Text) : Text :=
  trimEnd (trimStart t)

def isBlank (t : Text) : Bool :=
  t.all (·.isSpace)

private theorem dropWhile_eq_self {p : CodePoint → Bool} {t : Text}
    (h : ∀ c, t.head? = some c → p c = false) : t.dropWhile p = t := by
  cases t with
  | nil => rfl
  | cons c t => exact List.dropWhile_cons_of_neg (by simp [h c rfl])

/-- A first part is taken as a whole if the rest does not go on like it. -/
theorem takeWhile_append {p : CodePoint → Bool} {s t : Text} (hs : ∀ c ∈ s, p c = true)
    (ht : ∀ c ∈ t.head?, p c = false) : (s ++ t).takeWhile p = s := by
  rw [List.takeWhile_append_of_pos hs]
  cases t with
  | nil => exact List.append_nil s
  | cons c t => rw [List.takeWhile_cons_of_neg (by simp [ht c rfl]), List.append_nil]

theorem head?_dropWhile {p : CodePoint → Bool} {t : Text} {c : CodePoint}
    (h : (t.dropWhile p).head? = some c) : p c = false := by
  have hc := List.head?_dropWhile_not p t
  rw [h] at hc
  simpa using hc

/-- Trimming takes only white space away. -/
theorem forall_mem_trim {p : CodePoint → Prop} (hspace : ∀ c, c.isSpace = true → p c) {t : Text} :
    (∀ c ∈ trim t, p c) ↔ ∀ c ∈ t, p c := by
  have hdrop (t : Text) : (∀ c ∈ t.dropWhile (·.isSpace), p c) ↔ ∀ c ∈ t, p c := by
    induction t with
    | nil => exact Iff.rfl
    | cons c t ih =>
      rw [List.dropWhile_cons]
      split
      · rename_i hc
        rw [ih, List.forall_mem_cons]
        exact (and_iff_right (hspace c hc)).symm
      · exact Iff.rfl
  rw [trim, trimEnd]
  simp only [List.mem_reverse]
  rw [hdrop]
  simp only [List.mem_reverse]
  rw [trimStart, hdrop]

/-- Without white space there is nothing to trim. -/
theorem trim_eq_self {t : Text} (h : ∀ c ∈ t, c.isSpace = false) : trim t = t := by
  have hdrop {t : Text} (h : ∀ c ∈ t, c.isSpace = false) : t.dropWhile (·.isSpace) = t :=
    dropWhile_eq_self fun c hc => h c (List.mem_of_head? hc)
  rw [trim, trimEnd, trimStart, hdrop h, hdrop fun c hc => h c (List.mem_reverse.mp hc),
    List.reverse_reverse]

/-- A text is what stays when its end is trimmed, and white space. -/
theorem exists_trimEnd (t : Text) : ∃ s, t = trimEnd t ++ s ∧ isBlank s = true := by
  refine ⟨(t.reverse.takeWhile (·.isSpace)).reverse, ?_, ?_⟩
  · rw [trimEnd, ← List.reverse_append, List.takeWhile_append_dropWhile, List.reverse_reverse]
  · rw [isBlank, List.all_reverse]
    exact List.all_takeWhile

theorem trimEnd_append (t : Text) {s : Text} (hs : isBlank s = true) :
    trimEnd (t ++ s) = trimEnd t := by
  rw [trimEnd, trimEnd, List.reverse_append, List.dropWhile_append_of_pos fun c hc =>
    List.all_eq_true.mp hs c (List.mem_reverse.mp hc)]

/-- Trimming twice is trimming once. -/
@[simp] theorem trim_trim (t : Text) : trim (trim t) = trim t := by
  have hstart : trimStart (trim t) = trim t := by
    apply dropWhile_eq_self
    intro c hc
    obtain ⟨s, hwhole, -⟩ := exists_trimEnd (trimStart t)
    apply head?_dropWhile (t := t)
    change (trimStart t).head? = some c
    rw [hwhole, List.head?_append]
    change (trim t).head?.or _ = _
    rw [hc]
    rfl
  have hend : trimEnd (trim t) = trim t := by
    simp only [trim, trimEnd, List.reverse_reverse]
    rw [dropWhile_eq_self fun c hc => head?_dropWhile hc]
  rw [trim, hstart, hend]

end Text
end LocaleLift
