import LocaleLift.Text

/-! Hexadecimal numbers. -/
namespace LocaleLift.Text

def hexDigit? (c : CodePoint) : Option Nat :=
  if c.inRange 0x30 0x39 then some (c.toNat - 0x30)
  else if c.inRange 0x41 0x46 then some (c.toNat - 0x37)
  else if c.inRange 0x61 0x66 then some (c.toNat - 0x57)
  else none

def hexNumber? (digits : Text) : Option Nat :=
  digits.foldl (fun n? c => do return 16 * (← n?) + (← hexDigit? c)) (some 0)

theorem lt_of_hexDigit? {c : CodePoint} {n : Nat} (h : hexDigit? c = some n) : n < 16 := by
  simp only [hexDigit?, CodePoint.inRange, Bool.and_eq_true, decide_eq_true_eq] at h
  split at h
  · cases h
    omega
  · split at h
    · cases h
      omega
    · split at h
      · cases h
        omega
      · cases h

/-- Every digit of a number counts for 16. -/
theorem lt_of_hexNumber? {t : Text} {n : Nat} (h : hexNumber? t = some n) :
    n < Nat.pow 16 t.length := by
  have hnone (t : Text) :
      t.foldl (fun n? c => do return 16 * (← n?) + (← hexDigit? c)) none = none := by
    induction t with
    | nil => rfl
    | cons c t ih => exact ih
  have hfold (t : Text) (m : Nat)
      (h : t.foldl (fun n? c => do return 16 * (← n?) + (← hexDigit? c)) (some m) = some n) :
      n < (m + 1) * Nat.pow 16 t.length := by
    induction t generalizing m with
    | nil =>
      obtain rfl := Option.some.inj h
      simp
    | cons c t ih =>
      rw [List.foldl_cons] at h
      cases hc : hexDigit? c with
      | none =>
        rw [hc] at h
        exact absurd (h.symm.trans (hnone t)) nofun
      | some d =>
        rw [hc] at h
        have hd := lt_of_hexDigit? hc
        calc n < (16 * m + d + 1) * Nat.pow 16 t.length := ih (16 * m + d) h
          _ ≤ ((m + 1) * 16) * Nat.pow 16 t.length := Nat.mul_le_mul_right _ (by omega)
          _ = (m + 1) * (Nat.pow 16 t.length * 16) := by rw [Nat.mul_assoc, Nat.mul_comm 16]
  have := hfold t 0 h
  rwa [Nat.zero_add, Nat.one_mul] at this

/-- A number is written in digits and in nothing else. -/
theorem isSome_hexNumber? {t : Text} :
    (hexNumber? t).isSome = true ↔ ∀ c ∈ t, (hexDigit? c).isSome = true := by
  have hfold (t : Text) (n? : Option Nat) :
      (t.foldl (fun n? c => do return 16 * (← n?) + (← hexDigit? c)) n?).isSome = true ↔
        n?.isSome = true ∧ ∀ c ∈ t, (hexDigit? c).isSome = true := by
    induction t generalizing n? with
    | nil => simp
    | cons c t ih =>
      rw [List.foldl_cons, ih, List.forall_mem_cons, ← and_assoc]
      refine and_congr_left fun _ => ?_
      cases n? with
      | none => simp
      | some n => cases hexDigit? c <;> simp
  rw [hexNumber?, hfold]
  simp

theorem not_mem_of_hexNumber? {t : Text} {n : Nat} (h : hexNumber? t = some n) {c : CodePoint}
    (hc : hexDigit? c = none) : c ∉ t := by
  intro hmem
  have := isSome_hexNumber?.mp (Option.isSome_of_mem h) c hmem
  rw [hc] at this
  cases this

/-- A number in hexadecimal digits, the letters small, with zeros before it up to a width. -/
def hex (width n : Nat) : Text :=
  let digits := Nat.toDigits 16 n
  (List.replicate (width - digits.length) '0' ++ digits).map .scalar

end LocaleLift.Text
