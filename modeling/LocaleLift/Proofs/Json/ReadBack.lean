import LocaleLift.Json.Read
import LocaleLift.Json.Write
import LocaleLift.Proofs.Text.Order
import LocaleLift.Proofs.Text.Split

/-! JSON that is written and read back. -/
namespace LocaleLift

namespace JsonValue

section String

variable {c : CodePoint} {t rest : Text}

private theorem readString_plain (hquote : c ≠ .scalar '\x22') (hslash : c ≠ .scalar '\\')
    (hc : 0x20 ≤ c.toNat) : readString (c :: t) = cons? (some c) (readString t) := by
  rw [readString, if_neg (by omega)]
  · exact hquote
  all_goals
    intros
    contradiction

private theorem readString_simple {d : CodePoint} (hu : c ≠ .scalar 'u') (h : simpleEscape? c = some d) :
    readString (.scalar '\\' :: c :: t) = cons? (some d) (readString t) := by
  rw [readString, h]
  all_goals
    intros
    contradiction

/-- A unit that is no half of a pair is read alone, whatever follows. -/
private theorem readString_unit {a b d e : CodePoint} {n : Nat} (h : unit? a b d e = some n)
    (hn : n < 0xD800) : readString (.scalar '\\' :: .scalar 'u' :: a :: b :: d :: e :: t) =
      cons? (CodePoint.ofNat? n) (readString t) := by
  by_cases hnext : ∃ a b d e u, t = .scalar '\\' :: .scalar 'u' :: a :: b :: d :: e :: u
  · obtain ⟨a', b', d', e', u, rfl⟩ := hnext
    have hpair (low? : Option Nat) : low?.bind (pair? n) = none := by
      cases low? with
      | none => rfl
      | some low => rw [Option.bind_some, pair?, if_neg (by omega)]
    rw [readString, h]
    simp only [hpair]
  · rw [readString, h, Option.bind_some]
    exact fun a b d e u hu => hnext ⟨a, b, d, e, u, hu⟩

private theorem hexNumber?_hex : ∀ n < 0x20,
    (Text.hex 4 n).length = 4 ∧ Text.hexNumber? (Text.hex 4 n) = some n := by
  decide

private theorem readString_control (hc : c.toNat < 0x20) :
    readString ("\\u" ++ Text.hex 4 c.toNat ++ t) = cons? (some c) (readString t) := by
  obtain ⟨hlength, hnumber⟩ := hexNumber?_hex c.toNat hc
  obtain ⟨a, b, d, e, hdigits⟩ : ∃ a b d e, Text.hex 4 c.toNat = [a, b, d, e] := by
    match Text.hex 4 c.toNat, hlength with
    | [a, b, d, e], _ => exact ⟨a, b, d, e, rfl⟩
  obtain ⟨p, hp⟩ := CodePoint.exists_ofNat?.mpr c.toNat_lt
  obtain rfl : p = c := CodePoint.toNat_injective (CodePoint.toNat_of_ofNat? hp)
  rw [hdigits] at hnumber ⊢
  exact (readString_unit hnumber (by omega)).trans (by rw [hp]; rfl)

/-- A code point that was written is read, whatever follows. -/
private theorem readString_writePoint (c : CodePoint) (t : Text) :
    readString (writePoint c ++ t) = cons? (some c) (readString t) := by
  unfold writePoint
  split
  case h_8 hquote hslash _ _ _ _ _ =>
    split
    · rename_i hc
      exact readString_control hc
    · rename_i hc
      exact readString_plain hquote hslash (by omega)
  all_goals exact readString_simple (by decide) rfl

private theorem readString_flatMap (t rest : Text) :
    readString (t.flatMap writePoint ++ .scalar '\x22' :: rest) = some (t, rest) := by
  induction t with
  | nil => rfl
  | cons c t ih =>
    rw [List.flatMap_cons, List.append_assoc, readString_writePoint, ih]
    rfl

end String

/-- What a layout puts between the parts of a value is white space. -/
structure Layout.IsBlank (l : Layout) : Prop where
  afterColon : ∀ c ∈ l.afterColon, isBlank c = true
  lineBreak : ∀ depth, ∀ c ∈ l.lineBreak depth, isBlank c = true

theorem Layout.isBlank_indented : Layout.indented.IsBlank where
  afterColon := by decide
  lineBreak depth c hc := by
    obtain rfl | hc := List.mem_cons.mp hc
    · rfl
    · rw [List.eq_of_mem_replicate hc]
      rfl

/-- A value at a depth is read as what it is, whatever follows. -/
structure ReadsBack (l : Layout) (depth : Nat) (v : JsonValue) : Prop where
  start : ∃ c t, writeAt l depth v = c :: t ∧ isBlank c = false
  read : ∀ fuel rest, (writeAt l depth v).length ≤ fuel →
    readValue fuel (writeAt l depth v ++ rest) = some (v, rest)

section Values

variable {l : Layout} {depth : Nat} {v : JsonValue} {blank t : Text} {c : CodePoint}

private theorem skipBlank_append (hblank : ∀ c ∈ blank, isBlank c = true) (hc : isBlank c = false) :
    skipBlank (blank ++ c :: t) = c :: t := by
  rw [skipBlank, List.dropWhile_append_of_pos hblank, List.dropWhile_cons_of_neg (by simp [hc])]

private theorem ReadsBack.skipBlank (h : ReadsBack l depth v)
    (hblank : ∀ c ∈ blank, isBlank c = true) (rest : Text) :
    skipBlank (blank ++ (writeAt l depth v ++ rest)) = writeAt l depth v ++ rest := by
  obtain ⟨c, t, hstart, hc⟩ := h.start
  rw [hstart, List.cons_append, skipBlank_append hblank hc]

theorem readsBack_string (l : Layout) (depth : Nat) (t : Text) : ReadsBack l depth (string t) where
  start := ⟨_, _, rfl, rfl⟩
  read fuel rest hfuel := by
    obtain ⟨k, rfl⟩ : ∃ k, fuel = k + 1 := Nat.exists_eq_succ_of_ne_zero (by
      rintro rfl
      simp [writeAt, writeString] at hfuel)
    have hread := readString_flatMap t rest
    simp only [writeAt, writeString, List.cons_append, List.append_assoc, List.nil_append, readValue,
      hread, Option.map_some]

private theorem readMembers_member {fuel : Nat} (key tail : Text) (hl : l.IsBlank)
    (hv : ReadsBack l depth v) (hfuel : (writeAt l depth v).length ≤ fuel) :
    readMembers (fuel + 1)
      (writeString key ++ .scalar ':' :: l.afterColon ++ writeAt l depth v ++ tail) =
        match skipBlank tail with
        | .scalar '\x7d' :: rest => some ([(key, v)], rest)
        | .scalar ',' :: t =>
          (readMembers fuel (skipBlank t)).map fun (ms, rest) => ((key, v) :: ms, rest)
        | _ => none := by
  have hcolon (t : Text) : skipBlank (.scalar ':' :: t) = .scalar ':' :: t := rfl
  simp only [writeString, List.cons_append, List.append_assoc, List.nil_append]
  rw [readMembers, readString_flatMap]
  simp only [Option.bind_eq_bind, Option.bind_some, hcolon, hv.skipBlank hl.afterColon,
    hv.read _ _ hfuel]
  generalize skipBlank tail = u
  split
  · rfl
  · rename_i t
    change _ = (readMembers fuel (skipBlank t)).map fun x => ((key, v) :: x.1, x.2)
    cases readMembers fuel (skipBlank t) <;> rfl
  · simp_all

private theorem exists_join_writeMembers (l : Layout) (depth : Nat) (separator : Text)
    {ms : List (Text × JsonValue)} (h : ms ≠ []) :
    ∃ t, Text.join separator (writeMembers l depth ms) = .scalar '\x22' :: t := by
  obtain ⟨⟨key, value⟩, ms, rfl⟩ := List.exists_cons_of_ne_nil h
  cases ms with
  | nil => exact ⟨_, by simp [Text.join, writeMembers, writeString]; rfl⟩
  | cons m ms =>
    rw [writeMembers, Text.join_cons _ _ (by simp [writeMembers])]
    exact ⟨_, rfl⟩

/-- Members are read as what they are, up to the closing brace. -/
private theorem readMembers_join (outer : Nat) {ms : List (Text × JsonValue)} (hl : l.IsBlank)
    (h : ∀ m ∈ ms, ReadsBack l depth m.2) (hne : ms ≠ []) (fuel : Nat) (rest : Text)
    (hfuel : (Text.join (.scalar ',' :: l.lineBreak depth) (writeMembers l depth ms)).length ≤ fuel) :
    readMembers fuel (Text.join (.scalar ',' :: l.lineBreak depth) (writeMembers l depth ms) ++
      (l.lineBreak outer ++ .scalar '\x7d' :: rest)) = some (ms, rest) := by
  induction ms generalizing fuel with
  | nil => exact absurd rfl hne
  | cons m ms ih =>
    obtain ⟨key, value⟩ := m
    obtain ⟨hvalue, hms⟩ := List.forall_mem_cons.mp h
    have hvalue : ReadsBack l depth value := hvalue
    by_cases hnil : ms = []
    · subst hnil
      have hone : Text.join (.scalar ',' :: l.lineBreak depth) (writeMembers l depth [(key, value)]) =
          writeString key ++ .scalar ':' :: l.afterColon ++ writeAt l depth value := by
        simp [Text.join, writeMembers]
      rw [hone] at hfuel ⊢
      simp only [List.length_append, List.length_cons] at hfuel
      obtain ⟨k, rfl⟩ : ∃ k, fuel = k + 1 := Nat.exists_eq_succ_of_ne_zero (by omega)
      rw [readMembers_member key _ hl hvalue (by omega), skipBlank_append (hl.lineBreak outer) rfl]
      rfl
    · have hparts : writeMembers l depth ms ≠ [] := by
        obtain ⟨m, ms, rfl⟩ := List.exists_cons_of_ne_nil hnil
        simp [writeMembers]
      rw [writeMembers, Text.join_cons _ _ hparts] at hfuel ⊢
      simp only [List.length_append, List.length_cons] at hfuel
      obtain ⟨k, rfl⟩ : ∃ k, fuel = k + 1 := Nat.exists_eq_succ_of_ne_zero (by omega)
      have hcomma (t : Text) : skipBlank (.scalar ',' :: t) = .scalar ',' :: t := rfl
      have ih := ih hms hnil k (by omega)
      obtain ⟨t, ht⟩ := exists_join_writeMembers l depth (.scalar ',' :: l.lineBreak depth) hnil
      rw [ht] at ih ⊢
      rw [List.append_assoc, readMembers_member key _ hl hvalue (by omega)]
      simp only [List.cons_append, List.append_assoc, hcomma]
      rw [skipBlank_append (hl.lineBreak depth) rfl]
      simp only [List.cons_append] at ih
      rw [ih, Option.map_some]

/-- An object with different keys is read back if its members are. -/
theorem readsBack_object {ms : List (Text × JsonValue)} (hl : l.IsBlank)
    (h : ∀ m ∈ ms, ReadsBack l (depth + 1) m.2) (hkeys : (ms.map (·.1)).Nodup) :
    ReadsBack l depth (object ms) := by
  by_cases hnil : ms = []
  · subst hnil
    refine ⟨⟨_, _, rfl, rfl⟩, fun fuel rest hfuel => ?_⟩
    obtain ⟨k, rfl⟩ : ∃ k, fuel = k + 1 := Nat.exists_eq_succ_of_ne_zero (by
      rintro rfl
      simp [writeAt, writeMembers, enclose] at hfuel)
    rfl
  · have hparts : writeMembers l (depth + 1) ms ≠ [] := by
      obtain ⟨m, ms, rfl⟩ := List.exists_cons_of_ne_nil hnil
      simp [writeMembers]
    have hwrite : writeAt l depth (object ms) = .scalar '\x7b' :: (l.lineBreak (depth + 1) ++
        (Text.join (.scalar ',' :: l.lineBreak (depth + 1)) (writeMembers l (depth + 1) ms) ++
          (l.lineBreak depth ++ [.scalar '\x7d']))) := by
      simp [writeAt, enclose, hparts]
    refine ⟨⟨_, _, hwrite, rfl⟩, fun fuel rest hfuel => ?_⟩
    rw [hwrite] at hfuel ⊢
    simp only [List.length_cons, List.length_append] at hfuel
    obtain ⟨k, rfl⟩ : ∃ k, fuel = k + 1 := Nat.exists_eq_succ_of_ne_zero (by omega)
    obtain ⟨t, ht⟩ := exists_join_writeMembers l (depth + 1)
      (.scalar ',' :: l.lineBreak (depth + 1)) hnil
    have hread := readMembers_join depth hl h hnil k rest (by omega)
    rw [ht] at hread ⊢
    simp only [List.cons_append, List.append_assoc, List.nil_append] at hread ⊢
    rw [readValue, skipBlank_append (hl.lineBreak _) rfl]
    change (readMembers k (.scalar '\x22' :: _)).map (fun x => (object (Assoc.ofPairs x.1), x.2)) = _
    rw [hread, Option.map_some, Assoc.ofPairs_of_nodup hkeys]

/-- What was written is read as what it is, also with white space behind it. -/
theorem read?_write (h : ReadsBack l 0 v) (hblank : ∀ c ∈ blank, isBlank c = true) :
    read? (write l v ++ blank) = some v := by
  have hskip : skipBlank (writeAt l 0 v ++ blank) = writeAt l 0 v ++ blank :=
    h.skipBlank (fun c hc => absurd hc List.not_mem_nil) blank
  have hrest : skipBlank blank = [] := by
    have hall : (blank ++ []).dropWhile isBlank = [].dropWhile isBlank :=
      List.dropWhile_append_of_pos hblank
    simpa [skipBlank] using hall
  rw [read?, write, hskip, h.read _ _ (by rw [List.length_append]; omega)]
  simp [hrest]

end Values

section CodePoints

variable {p : CodePoint → Prop} {l : Layout} {depth : Nat} {t : Text}

private theorem isPrint_hex : ∀ n < 0x20, ∀ c ∈ Text.hex 4 n, 0x20 ≤ c.toNat ∧ c.toNat < 0x7F := by
  decide

/-- A string is made of printable characters and of those of its code points that are no
controls. -/
theorem forall_mem_writeString (hprint : ∀ c : CodePoint, 0x20 ≤ c.toNat → c.toNat < 0x7F → p c)
    (ht : ∀ c ∈ t, 0x20 ≤ c.toNat → p c) : ∀ c ∈ writeString t, p c := by
  have hpoint (d : CodePoint) (hd : d ∈ t) : ∀ c ∈ writePoint d, p c := by
    have hescape (q : CodePoint) (hq : 0x20 ≤ q.toNat ∧ q.toNat < 0x7F) :
        ∀ c ∈ [.scalar '\\', q], p c := by
      simp only [List.mem_cons, List.not_mem_nil, or_false]
      rintro c (rfl | rfl)
      · exact hprint _ (by decide) (by decide)
      · exact hprint _ hq.1 hq.2
    unfold writePoint
    split
    case h_8 =>
      split
      · rename_i hcontrol
        intro c hc
        obtain hc | hc := List.mem_append.mp hc
        · exact hescape (.scalar 'u') (by decide) c hc
        · exact (isPrint_hex _ hcontrol c hc).elim (hprint c)
      · intro c hc
        rw [List.mem_singleton.mp hc]
        exact ht d hd (by omega)
    all_goals exact hescape _ (by decide)
  have hquote : p (.scalar '\x22') := hprint _ (by decide) (by decide)
  intro c hc
  rw [writeString, List.mem_append, List.mem_cons, List.mem_flatMap, List.mem_singleton] at hc
  obtain (rfl | ⟨d, hd, hc⟩) | rfl := hc
  · exact hquote
  · exact hpoint d hd c hc
  · exact hquote

private theorem mem_writeMembers {part : Text} {ms : List (Text × JsonValue)}
    (h : part ∈ writeMembers l depth ms) : ∃ m ∈ ms,
      part = writeString m.1 ++ .scalar ':' :: l.afterColon ++ writeAt l depth m.2 := by
  induction ms with
  | nil => cases h
  | cons m ms ih =>
    obtain ⟨key, value⟩ := m
    rw [writeMembers, List.mem_cons] at h
    obtain rfl | h := h
    · exact ⟨_, List.mem_cons_self, rfl⟩
    · obtain ⟨m, hm, hpart⟩ := ih h
      exact ⟨m, List.mem_cons_of_mem _ hm, hpart⟩

theorem forall_mem_object {ms : List (Text × JsonValue)}
    (hprint : ∀ c : CodePoint, 0x20 ≤ c.toNat → c.toNat < 0x7F → p c)
    (hcolon : ∀ c ∈ l.afterColon, p c) (hbreak : ∀ depth, ∀ c ∈ l.lineBreak depth, p c)
    (hms : ∀ m ∈ ms, (∀ c ∈ m.1, 0x20 ≤ c.toNat → p c) ∧ ∀ c ∈ writeAt l (depth + 1) m.2, p c) :
    ∀ c ∈ writeAt l depth (object ms), p c := by
  have hsign (c : CodePoint) (h : 0x20 ≤ c.toNat ∧ c.toNat < 0x7F) : p c := hprint c h.1 h.2
  intro c hc
  rw [writeAt, enclose] at hc
  split at hc
  · simp only [List.mem_cons, List.not_mem_nil, or_false] at hc
    obtain rfl | rfl := hc
    · exact hsign _ (by decide)
    · exact hsign _ (by decide)
  · simp only [List.mem_append, List.mem_cons, List.not_mem_nil, or_false] at hc
    obtain (((rfl | hc) | hc) | hc) | rfl := hc
    · exact hsign _ (by decide)
    · exact hbreak _ c hc
    · obtain hc | ⟨part, hpart, hc⟩ := Text.mem_join hc
      · obtain rfl | hc := List.mem_cons.mp hc
        · exact hsign _ (by decide)
        · exact hbreak _ c hc
      · obtain ⟨m, hm, rfl⟩ := mem_writeMembers hpart
        simp only [List.mem_append, List.mem_cons] at hc
        obtain (hc | rfl | hc) | hc := hc
        · exact forall_mem_writeString hprint (hms m hm).1 c hc
        · exact hsign _ (by decide)
        · exact hcolon c hc
        · exact (hms m hm).2 c hc
    · exact hbreak _ c hc
    · exact hsign _ (by decide)

end CodePoints

end JsonValue

end LocaleLift
