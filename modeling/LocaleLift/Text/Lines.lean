import LocaleLift.Text

/-! Lines of texts. -/
namespace LocaleLift

/-- The characters that end a line. A carriage return and the line feed behind it are one end. -/
def CodePoint.endsLine (c : CodePoint) : Bool :=
  c.inRange 0x0A 0x0D || c.inRange 0x1C 0x1E || c.toNat == 0x85 || c.inRange 0x2028 0x2029

namespace Text

def lines : Text → List Text
  | [] => []
  | .scalar '\r' :: .scalar '\n' :: t => "\r\n" :: lines t
  | c :: t =>
    if c.endsLine then [c] :: lines t
    else match lines t with
      | [] => [[c]]
      | l :: ls => (c :: l) :: ls

/-- The lines of a text make it up. -/
theorem flatten_lines (t : Text) : (lines t).flatten = t := by
  induction t using lines.induct with
  | case1 => rfl
  | case2 t ih => rw [lines, List.flatten_cons, ih]; rfl
  | case3 c t _ h ih => rw [lines] <;> simp_all
  | case4 c t _ h ht ih => rw [lines] <;> simp_all
  | case5 c t _ h l ls ht ih => rw [lines] <;> simp_all

/-- A text in which every line feed, carriage return, or both in this order is a line feed. -/
def withLineFeeds : Text → Text
  | [] => []
  | .scalar '\r' :: .scalar '\n' :: t => .scalar '\n' :: withLineFeeds t
  | .scalar '\r' :: t => .scalar '\n' :: withLineFeeds t
  | c :: t => c :: withLineFeeds t

/-- No carriage return is left. -/
theorem not_mem_withLineFeeds (t : Text) : .scalar '\r' ∉ withLineFeeds t := by
  fun_induction withLineFeeds t with
  | case1 => simp
  | case2 t ih => simp [ih]
  | case3 t _ ih => simp [ih]
  | case4 c t _ hc ih => simp [ih, Ne.symm hc]

/-- A text is left as it is exactly if no carriage return stands in it. -/
theorem withLineFeeds_eq_self_iff {t : Text} : withLineFeeds t = t ↔ .scalar '\r' ∉ t := by
  constructor
  · intro h
    rw [← h]
    exact not_mem_withLineFeeds t
  · intro h
    fun_induction withLineFeeds t with
    | case1 => rfl
    | case2 | case3 => simp at h
    | case4 c t _ hc ih => rw [ih fun hmem => h (List.mem_cons_of_mem c hmem)]

@[simp] theorem isEncodable_withLineFeeds (t : Text) :
    (withLineFeeds t).isEncodable = t.isEncodable := by
  fun_induction withLineFeeds t <;> simp_all

end Text
end LocaleLift
