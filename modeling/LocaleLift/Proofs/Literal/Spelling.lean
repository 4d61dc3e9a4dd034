import LocaleLift.Literal

/-! How escapes are spelled, and what a body comes to when it is read from left to right. -/
namespace LocaleLift.Literal

/-- The code points that end a line in a script. -/
def lineEnds : Text :=
  "\n\r\u2028\u2029"

/-- What stands behind the backslash of an escape. -/
inductive Spelling : Text → Escape → Prop where
  | braced {hex : Text} {n : Nat} (hne : hex ≠ []) (hhex : Text.hexNumber? hex = some n) :
      Spelling (.scalar 'u' :: .scalar '\x7b' :: (hex ++ [.scalar '\x7d'])) (.number n)
  | unit {hex : Text} {n : Nat} (hlength : hex.length = 4) (hhex : Text.hexNumber? hex = some n) :
      Spelling (.scalar 'u' :: hex) (.number n)
  | byte {hex : Text} {n : Nat} (hlength : hex.length = 2) (hhex : Text.hexNumber? hex = some n) :
      Spelling (.scalar 'x' :: hex) (.number n)
  | lineEnd : Spelling [.scalar '\r', .scalar '\n'] (.text [])
  | single (c : CodePoint) : Spelling [c] (.text (simpleEscape c))

private theorem exists_of_digits {k n : Nat} {t : Text} (h : digits k t = some n) :
    ∃ hex rest, t = hex ++ rest ∧ hex.length = k ∧ Text.hexNumber? hex = some n := by
  rw [digits] at h
  split at h
  · cases h
  · rename_i hlength
    exact ⟨t.take k, t.drop k, (List.take_append_drop k t).symm,
      List.length_take_of_le (Nat.le_of_not_lt hlength), h⟩

/-- An escape that is found stands there as it is spelled. -/
theorem spelling_of_escape? {t : Text} {e : Escape} {n : Nat} (h : escape? t = some (e, n)) :
    ∃ r rest, t = r ++ rest ∧ r.length = n ∧ Spelling r e := by
  unfold escape? at h
  split at h
  · cases h
  · rename_i t
    dsimp only at h
    split at h
    · rename_i hbraces
      obtain ⟨k, hk, h⟩ := Option.map_eq_some_iff.mp h
      cases h
      rw [Bool.and_eq_true, Bool.not_eq_true', List.isEmpty_eq_false_iff, beq_iff_eq] at hbraces
      obtain ⟨rest, hrest⟩ := List.head?_eq_some_iff.mp hbraces.2
      have hsplit := List.prefix_iff_eq_append.mp
        (List.takeWhile_prefix (l := t) fun c => (Text.hexDigit? c).isSome)
      rw [hrest] at hsplit
      refine ⟨_, rest, ?_, ?_, .braced hbraces.1 hk⟩
      · rw [List.cons_append, List.cons_append, List.append_assoc, List.singleton_append, hsplit]
      · rw [List.length_cons, List.length_cons, List.length_append, List.length_singleton]
    · cases h
      exact ⟨[.scalar 'u'], _, rfl, rfl, .single _⟩
  · split at h
    · rename_i hdigits
      cases h
      obtain ⟨hex, rest, rfl, hlength, hhex⟩ := exists_of_digits hdigits
      exact ⟨.scalar 'u' :: hex, rest, rfl, by rw [List.length_cons, hlength], .unit hlength hhex⟩
    · cases h
      exact ⟨[.scalar 'u'], _, rfl, rfl, .single _⟩
  · split at h
    · rename_i hdigits
      cases h
      obtain ⟨hex, rest, rfl, hlength, hhex⟩ := exists_of_digits hdigits
      exact ⟨.scalar 'x' :: hex, rest, rfl, by rw [List.length_cons, hlength], .byte hlength hhex⟩
    · cases h
      exact ⟨[.scalar 'x'], _, rfl, rfl, .single _⟩
  · cases h
    exact ⟨[.scalar '\r', .scalar '\n'], _, rfl, rfl, .lineEnd⟩
  · cases h
    exact ⟨[_], _, rfl, rfl, .single _⟩

/-- Behind a backslash something is always found, unless the body ends there. -/
theorem exists_escape? {t : Text} (h : t ≠ []) : ∃ e n, escape? t = some (e, n) := by
  unfold escape?
  split
  · exact absurd rfl h
  · rename_i t
    dsimp only
    split
    · obtain ⟨n, hn⟩ := Option.isSome_iff_exists.mp
        (Text.isSome_hexNumber?.mpr (List.all_eq_true.mp (List.all_takeWhile (l := t))))
      rw [hn]
      exact ⟨_, _, rfl⟩
    · exact ⟨_, _, rfl⟩
  · split
    · exact ⟨_, _, rfl⟩
    · exact ⟨_, _, rfl⟩
  · split
    · exact ⟨_, _, rfl⟩
    · exact ⟨_, _, rfl⟩
  · exact ⟨_, _, rfl⟩
  · exact ⟨_, _, rfl⟩

private theorem digits_exact {hex : Text} {k : Nat} (h : hex.length = k) (t : Text) :
    digits k (hex ++ t) = Text.hexNumber? hex := by
  have hlong : ¬ (hex ++ t).length < k := by
    rw [List.length_append]
    omega
  rw [digits, if_neg hlong, ← h, List.take_left]

/-- A number that is spelled behind a backslash is found whatever follows. -/
theorem escape?_number {r : Text} {n : Nat} (h : Spelling r (.number n)) (t : Text) :
    escape? (r ++ t) = some (.number n, r.length) := by
  cases h with
  | @braced hex _ hne hhex =>
    have hwhile : (hex ++ .scalar '\x7d' :: t).takeWhile (fun c => (Text.hexDigit? c).isSome) =
        hex := by
      rw [List.takeWhile_append_of_pos (Text.isSome_hexNumber?.mp (Option.isSome_of_mem hhex)),
        List.takeWhile_cons_of_neg (by decide), List.append_nil]
    simp only [List.cons_append, List.append_assoc, List.nil_append, escape?, hwhile,
      List.drop_left, List.head?_cons, beq_self_eq_true, Bool.and_true, hhex, Option.map_some]
    rw [if_pos (by simpa using hne)]
    simp
  | @unit hex _ hlength hhex =>
    have hopen (u : Text) (hu : hex ++ t = .scalar '\x7b' :: u) : False := by
      cases hex with
      | nil => cases hlength
      | cons c hex =>
        obtain rfl := (List.cons.inj hu).1
        cases Text.isSome_hexNumber?.mp (Option.isSome_of_mem hhex) _ (List.mem_cons_self ..)
    rw [List.cons_append, escape?.eq_3 _ hopen, digits_exact hlength, hhex, List.length_cons,
      hlength]
  | @byte hex _ hlength hhex =>
    rw [List.cons_append, escape?, digits_exact hlength, hhex, List.length_cons, hlength]

private theorem cook_of_parts {p : Part Escape} {body rest : Text}
    (h : Text.parts matchEscape body = p :: Text.parts matchEscape rest) :
    cook body = do return (← cookPart p) ++ (← cook rest) := by
  rw [cook, cook, h, List.mapM_cons]
  simp only [bind_assoc, pure_bind, List.flatten_cons]

theorem cook_nil : cook [] = pure [] := rfl

/-- Without a backslash a code point stands for itself. -/
theorem cook_cons {c : CodePoint} (hc : c ≠ .scalar '\\') (t : Text) :
    cook (c :: t) = do return c :: (← cook t) := by
  have hnone : matchEscape c t = none := by rw [matchEscape, if_neg hc]
  rw [cook_of_parts (Text.parts_plain hnone)]
  rfl

/-- An escape stands for what is found behind its backslash. -/
theorem cook_escape {r t : Text} {e : Escape} (h : escape? (r ++ t) = some (e, r.length)) :
    cook (.scalar '\\' :: (r ++ t)) =
      do return (← e.cook (.scalar '\\' :: r)) ++ (← cook t) := by
  have hfound : matchEscape (.scalar '\\') (r ++ t) = some (e, r.length) := by
    rw [matchEscape, if_pos rfl, h]
  exact cook_of_parts (Text.parts_found hfound)

end LocaleLift.Literal
