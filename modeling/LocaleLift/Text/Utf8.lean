import LocaleLift.Text

/-! The UTF-8 form of texts; surrogates have none. -/
namespace LocaleLift.Utf8

/-- The bytes of one code point; a surrogate has none. -/
def encodePoint : CodePoint → Option (List UInt8)
  | .surrogate _ => none
  | .scalar c =>
    let n := c.toNat
    let tail (unit : Nat) : UInt8 := UInt8.ofNat (0x80 + n / unit % 0x40)
    some <|
      if n < 0x80 then [UInt8.ofNat n]
      else if n < 0x800 then [UInt8.ofNat (0xC0 + n / 0x40), tail 1]
      else if n < 0x10000 then [UInt8.ofNat (0xE0 + n / 0x1000), tail 0x40, tail 1]
      else [UInt8.ofNat (0xF0 + n / 0x40000), tail 0x1000, tail 0x40, tail 1]

def encode : Text → Option (List UInt8)
  | [] => some []
  | c :: t => do
    let bytes ← encodePoint c
    let rest ← encode t
    return bytes ++ rest

/-- How many bytes a code point takes; a surrogate is counted as three. -/
def pointSize (c : CodePoint) : Nat :=
  let n := c.toNat
  if n < 0x80 then 1 else if n < 0x800 then 2 else if n < 0x10000 then 3 else 4

def size (t : Text) : Nat :=
  t.foldr (fun c n => pointSize c + n) 0

/-- The part of a text that begins at or after one byte offset and before another. -/
def slice (start stop : Nat) : Text → Text
  | [] => []
  | c :: t =>
    let n := pointSize c
    if 0 < start then slice (start - n) (stop - n) t
    else if 0 < stop then c :: slice 0 (stop - n) t
    else []

private def tail? (b : UInt8) : Option Nat :=
  if 0x80 ≤ b.toNat ∧ b.toNat < 0xC0 then some (b.toNat - 0x80) else none

private def point? (least n : Nat) : Option CodePoint :=
  if least ≤ n then
    match CodePoint.ofNat? n with
    | some (.scalar c) => some (.scalar c)
    | _ => none
  else none

/-- The text of a list of bytes; none if they are not the shortest form of scalar values. -/
def decode : List UInt8 → Option Text
  | [] => some []
  | a :: bs =>
    if a.toNat < 0x80 then do
      let c ← point? 0 a.toNat
      return c :: (← decode bs)
    else if a.toNat < 0xC0 then none
    else match bs with
      | [] => none
      | b :: bs =>
        if a.toNat < 0xE0 then do
          let c ← point? 0x80 ((a.toNat - 0xC0) * 0x40 + (← tail? b))
          return c :: (← decode bs)
        else match bs with
          | [] => none
          | c :: bs =>
            if a.toNat < 0xF0 then do
              let p ← point? 0x800 ((a.toNat - 0xE0) * 0x1000 + (← tail? b) * 0x40 + (← tail? c))
              return p :: (← decode bs)
            else match bs with
              | [] => none
              | d :: bs => do
                let p ← point? 0x10000 ((a.toNat - 0xF0) * 0x40000 + (← tail? b) * 0x1000 +
                  (← tail? c) * 0x40 + (← tail? d))
                return p :: (← decode bs)

private theorem point?_toNat {c : Char} {least : Nat} (h : least ≤ c.toNat) :
    point? least c.toNat = some (.scalar c) := by
  have hv : c.toNat.isValidChar := c.valid
  have hc := Char.ofNat_toNat c
  rw [Char.ofNat, dif_pos hv] at hc
  rw [point?, if_pos h, CodePoint.ofNat?, dif_pos hv, hc]

private theorem toNat_byte {n : Nat} (h : n < 0x100) : (UInt8.ofNat n).toNat = n := by
  rw [UInt8.toNat_ofNat']
  exact Nat.mod_eq_of_lt h

private theorem tail?_byte {n : Nat} (h : n < 0x40) : tail? (UInt8.ofNat (0x80 + n)) = some n := by
  have hb : (UInt8.ofNat (0x80 + n)).toNat = 0x80 + n := toNat_byte (by omega)
  rw [tail?, hb, if_pos (by omega), Nat.add_sub_cancel_left]

private theorem some_bind {α β : Type} (a : α) (f : α → Option β) :
    (do f (← some a)) = f a := rfl

private theorem some_bind_cons (c : CodePoint) (rest : List UInt8) : (do
    let p ← some c
    return p :: (← decode rest)) = (decode rest).map (c :: ·) := by
  cases decode rest <;> rfl

private theorem decode_one {n : Nat} {c : CodePoint} (hn : n < 0x80) (h : point? 0 n = some c)
    (rest : List UInt8) : decode (UInt8.ofNat n :: rest) = (decode rest).map (c :: ·) := by
  have hlead : (UInt8.ofNat n).toNat = n := toNat_byte (by omega)
  rw [decode.eq_def]
  simp only [hlead]
  rw [if_pos hn, h, some_bind_cons]

private theorem decode_two {m u : Nat} {c : CodePoint} (hm : m < 0x20) (hu : u < 0x40)
    (h : point? 0x80 (m * 0x40 + u) = some c) (rest : List UInt8) :
    decode (UInt8.ofNat (0xC0 + m) :: UInt8.ofNat (0x80 + u) :: rest) =
      (decode rest).map (c :: ·) := by
  have hlead : (UInt8.ofNat (0xC0 + m)).toNat = 0xC0 + m := toNat_byte (by omega)
  rw [decode.eq_def]
  simp only [hlead, tail?_byte hu]
  rw [if_neg (by omega), if_neg (by omega), if_pos (by omega), Nat.add_sub_cancel_left,
    some_bind, h, some_bind_cons]

private theorem decode_three {m u v : Nat} {c : CodePoint} (hm : m < 0x10) (hu : u < 0x40)
    (hv : v < 0x40) (h : point? 0x800 (m * 0x1000 + u * 0x40 + v) = some c) (rest : List UInt8) :
    decode (UInt8.ofNat (0xE0 + m) :: UInt8.ofNat (0x80 + u) :: UInt8.ofNat (0x80 + v) :: rest) =
      (decode rest).map (c :: ·) := by
  have hlead : (UInt8.ofNat (0xE0 + m)).toNat = 0xE0 + m := toNat_byte (by omega)
  rw [decode.eq_def]
  simp only [hlead, tail?_byte hu, tail?_byte hv]
  rw [if_neg (by omega), if_neg (by omega), if_neg (by omega), if_pos (by omega),
    Nat.add_sub_cancel_left, some_bind, some_bind, h, some_bind_cons]

private theorem decode_four {m u v w : Nat} {c : CodePoint} (hm : m < 8) (hu : u < 0x40)
    (hv : v < 0x40) (hw : w < 0x40)
    (h : point? 0x10000 (m * 0x40000 + u * 0x1000 + v * 0x40 + w) = some c) (rest : List UInt8) :
    decode (UInt8.ofNat (0xF0 + m) :: UInt8.ofNat (0x80 + u) :: UInt8.ofNat (0x80 + v) ::
      UInt8.ofNat (0x80 + w) :: rest) = (decode rest).map (c :: ·) := by
  have hlead : (UInt8.ofNat (0xF0 + m)).toNat = 0xF0 + m := toNat_byte (by omega)
  rw [decode.eq_def]
  simp only [hlead, tail?_byte hu, tail?_byte hv, tail?_byte hw]
  rw [if_neg (by omega), if_neg (by omega), if_neg (by omega), if_neg (by omega),
    Nat.add_sub_cancel_left, some_bind, some_bind, some_bind, h, some_bind_cons]

/-- The bytes of a code point decode to it, whatever follows. -/
theorem decode_encodePoint {p : CodePoint} {bytes : List UInt8} (h : encodePoint p = some bytes)
    (rest : List UInt8) : decode (bytes ++ rest) = (decode rest).map (p :: ·) := by
  cases p with
  | surrogate i => simp [encodePoint] at h
  | scalar c =>
    have hlt : c.toNat < 0x110000 := by
      have hc : c.toNat < 0xD800 ∨ 0xDFFF < c.toNat ∧ c.toNat < 0x110000 := c.valid
      omega
    have hvalue (n : Nat) (hn : n = c.toNat) (least : Nat) (hl : least ≤ c.toNat) :
        point? least n = some (.scalar c) := hn ▸ point?_toNat hl
    have hmod (n : Nat) : n % 0x40 < 0x40 := Nat.mod_lt n (by decide)
    simp only [encodePoint, Option.some.injEq] at h
    subst h
    by_cases h1 : c.toNat < 0x80
    · rw [if_pos h1]
      exact decode_one h1 (hvalue _ rfl 0 (Nat.zero_le _)) rest
    · rw [if_neg h1]
      by_cases h2 : c.toNat < 0x800
      · rw [if_pos h2]
        exact decode_two (by omega) (hmod _) (hvalue _ (by omega) 0x80 (by omega)) rest
      · rw [if_neg h2]
        by_cases h3 : c.toNat < 0x10000
        · rw [if_pos h3]
          exact decode_three (by omega) (hmod _) (hmod _)
            (hvalue _ (by omega) 0x800 (by omega)) rest
        · rw [if_neg h3]
          exact decode_four (by omega) (hmod _) (hmod _) (hmod _)
            (hvalue _ (by omega) 0x10000 (by omega)) rest

/-- Encoding loses nothing. -/
theorem decode_encode {t : Text} {bytes : List UInt8} (h : encode t = some bytes) :
    decode bytes = some t := by
  induction t generalizing bytes with
  | nil =>
    obtain rfl : [] = bytes := Option.some.inj h
    rfl
  | cons p t ih =>
    obtain ⟨first, hp, h⟩ := Option.bind_eq_some_iff.mp h
    obtain ⟨rest, ht, h⟩ := Option.bind_eq_some_iff.mp h
    obtain rfl : first ++ rest = bytes := Option.some.inj h
    rw [decode_encodePoint hp, ih ht, Option.map_some]

private theorem exists_of_point? {least n : Nat} {p : CodePoint} (h : point? least n = some p) :
    ∃ c, p = .scalar c ∧ c.toNat = n ∧ least ≤ n := by
  rw [point?] at h
  split at h
  · split at h
    · rename_i c hc
      exact ⟨c, (Option.some.inj h).symm, CodePoint.toNat_of_ofNat? hc, by assumption⟩
    · cases h
  · cases h

private theorem ofNat_add_sub {b : UInt8} {n : Nat} (h : n ≤ b.toNat) :
    UInt8.ofNat (n + (b.toNat - n)) = b := by
  rw [Nat.add_sub_cancel' h, UInt8.ofNat_toNat]

private theorem eq_of_tail? {b : UInt8} {n : Nat} (h : tail? b = some n) :
    n < 0x40 ∧ UInt8.ofNat (0x80 + n) = b := by
  rw [tail?] at h
  split at h
  · obtain rfl := Option.some.inj h
    exact ⟨by omega, ofNat_add_sub (by omega)⟩
  · cases h

private theorem encodePoint_two {m u : Nat} {c : Char} (hm : m < 0x20) (hu : u < 0x40)
    (hc : c.toNat = m * 0x40 + u) (hleast : 0x80 ≤ c.toNat) :
    encodePoint (.scalar c) = some [UInt8.ofNat (0xC0 + m), UInt8.ofNat (0x80 + u)] := by
  have h₀ : c.toNat / 0x40 = m := by omega
  have h₁ : c.toNat / 1 % 0x40 = u := by omega
  simp only [encodePoint, h₀, h₁]
  rw [if_neg (by omega), if_pos (by omega)]

private theorem encodePoint_three {m u v : Nat} {c : Char} (hm : m < 0x10) (hu : u < 0x40)
    (hv : v < 0x40) (hc : c.toNat = m * 0x1000 + u * 0x40 + v) (hleast : 0x800 ≤ c.toNat) :
    encodePoint (.scalar c) =
      some [UInt8.ofNat (0xE0 + m), UInt8.ofNat (0x80 + u), UInt8.ofNat (0x80 + v)] := by
  have h₀ : c.toNat / 0x1000 = m := by omega
  have h₁ : c.toNat / 0x40 % 0x40 = u := by omega
  have h₂ : c.toNat / 1 % 0x40 = v := by omega
  simp only [encodePoint, h₀, h₁, h₂]
  rw [if_neg (by omega), if_neg (by omega), if_pos (by omega)]

private theorem encodePoint_four {m u v w : Nat} {c : Char} (hu : u < 0x40) (hv : v < 0x40)
    (hw : w < 0x40) (hc : c.toNat = m * 0x40000 + u * 0x1000 + v * 0x40 + w)
    (hleast : 0x10000 ≤ c.toNat) :
    encodePoint (.scalar c) = some [UInt8.ofNat (0xF0 + m), UInt8.ofNat (0x80 + u),
      UInt8.ofNat (0x80 + v), UInt8.ofNat (0x80 + w)] := by
  have h₀ : c.toNat / 0x40000 = m := by omega
  have h₁ : c.toNat / 0x1000 % 0x40 = u := by omega
  have h₂ : c.toNat / 0x40 % 0x40 = v := by omega
  have h₃ : c.toNat / 1 % 0x40 = w := by omega
  simp only [encodePoint, h₀, h₁, h₂, h₃]
  rw [if_neg (by omega), if_neg (by omega), if_neg (by omega)]

/-- Bytes that decode begin with those of a code point. -/
private theorem exists_of_decode {a : UInt8} {bs : List UInt8} {t : Text}
    (h : decode (a :: bs) = some t) :
    ∃ p first rest u, encodePoint p = some (a :: first) ∧ bs = first ++ rest ∧
      decode rest = some u ∧ t = p :: u := by
  have hfinish {least n : Nat} {rest : List UInt8} (h : (do
      let p ← point? least n
      return p :: (← decode rest)) = some t) :
      ∃ c u, c.toNat = n ∧ least ≤ n ∧ decode rest = some u ∧ t = .scalar c :: u := by
    obtain ⟨p, hp, h⟩ := Option.bind_eq_some_iff.mp h
    obtain ⟨u, hu, h⟩ := Option.bind_eq_some_iff.mp h
    obtain ⟨c, rfl, hc, hleast⟩ := exists_of_point? hp
    exact ⟨c, u, hc, hleast, hu, (Option.some.inj h).symm⟩
  rw [decode.eq_def] at h
  dsimp only at h
  split at h
  · rename_i hlead
    obtain ⟨c, u, hc, -, hu, rfl⟩ := hfinish h
    refine ⟨.scalar c, [], bs, u, ?_, rfl, hu, rfl⟩
    simp only [encodePoint, hc]
    rw [if_pos hlead, UInt8.ofNat_toNat]
  split at h
  · cases h
  cases bs with
  | nil => cases h
  | cons b bs =>
    dsimp only at h
    split at h
    · obtain ⟨m, hm, h⟩ := Option.bind_eq_some_iff.mp h
      obtain ⟨hm, hb⟩ := eq_of_tail? hm
      obtain ⟨c, u, hc, hleast, hu, rfl⟩ := hfinish h
      refine ⟨.scalar c, [b], bs, u, ?_, rfl, hu, rfl⟩
      rw [encodePoint_two (by omega) hm hc (by omega), hb, ofNat_add_sub (by omega)]
    cases bs with
    | nil => cases h
    | cons d bs =>
      dsimp only at h
      split at h
      · obtain ⟨m, hm, h⟩ := Option.bind_eq_some_iff.mp h
        obtain ⟨n, hn, h⟩ := Option.bind_eq_some_iff.mp h
        obtain ⟨hm, hb⟩ := eq_of_tail? hm
        obtain ⟨hn, hd⟩ := eq_of_tail? hn
        obtain ⟨c, u, hc, hleast, hu, rfl⟩ := hfinish h
        refine ⟨.scalar c, [b, d], bs, u, ?_, rfl, hu, rfl⟩
        rw [encodePoint_three (by omega) hm hn hc (by omega), hb, hd, ofNat_add_sub (by omega)]
      cases bs with
      | nil => cases h
      | cons e bs =>
        dsimp only at h
        obtain ⟨m, hm, h⟩ := Option.bind_eq_some_iff.mp h
        obtain ⟨n, hn, h⟩ := Option.bind_eq_some_iff.mp h
        obtain ⟨k, hk, h⟩ := Option.bind_eq_some_iff.mp h
        obtain ⟨hm, hb⟩ := eq_of_tail? hm
        obtain ⟨hn, hd⟩ := eq_of_tail? hn
        obtain ⟨hk, he⟩ := eq_of_tail? hk
        obtain ⟨c, u, hc, hleast, hu, rfl⟩ := hfinish h
        refine ⟨.scalar c, [b, d, e], bs, u, ?_, rfl, hu, rfl⟩
        rw [encodePoint_four hm hn hk hc (by omega), hb, hd, he, ofNat_add_sub (by omega)]

/-- Decoding loses nothing. -/
theorem encode_decode {bytes : List UInt8} {t : Text} (h : decode bytes = some t) :
    encode t = some bytes := by
  cases bytes with
  | nil =>
    obtain rfl : [] = t := Option.some.inj h
    rfl
  | cons a bs =>
    obtain ⟨p, first, rest, u, hp, rfl, hu, rfl⟩ := exists_of_decode h
    rw [encode, hp, encode_decode hu]
    rfl
termination_by bytes.length
decreasing_by
  subst_vars
  simp only [List.length_cons, List.length_append]
  omega

private theorem mem_encodePoint_iff {p : CodePoint} {bytes : List UInt8}
    (h : encodePoint p = some bytes) {c : Char} (hc : c.toNat < 0x80) :
    UInt8.ofNat c.toNat ∈ bytes ↔ p = .scalar c := by
  cases p with
  | surrogate i => cases h
  | scalar d =>
    have hbyte (n : Nat) (hn : n < 0x100) : UInt8.ofNat c.toNat = UInt8.ofNat n ↔ c.toNat = n := by
      rw [← UInt8.toNat_inj, toNat_byte (by omega), toNat_byte hn]
    have hdc : c.toNat = d.toNat ↔ CodePoint.scalar d = .scalar c := by
      rw [CodePoint.scalar.injEq, ← Char.toNat_inj, eq_comm]
    have hlt : d.toNat < 0x110000 := by
      have hd : d.toNat < 0xD800 ∨ 0xDFFF < d.toNat ∧ d.toNat < 0x110000 := d.valid
      omega
    rw [← hdc]
    simp only [encodePoint, Option.some.injEq] at h
    subst h
    -- the bytes of a longer form are all above those of one byte
    split
    · rw [List.mem_singleton, hbyte _ (by omega)]
    · split
      · simp only [List.mem_cons, List.not_mem_nil, or_false]
        rw [hbyte _ (by omega), hbyte _ (by omega)]
        omega
      · split
        · simp only [List.mem_cons, List.not_mem_nil, or_false]
          rw [hbyte _ (by omega), hbyte _ (by omega), hbyte _ (by omega)]
          omega
        · simp only [List.mem_cons, List.not_mem_nil, or_false]
          rw [hbyte _ (by omega), hbyte _ (by omega), hbyte _ (by omega), hbyte _ (by omega)]
          omega

/-- A character of one byte stands in a text exactly if this byte stands in its form. -/
theorem mem_encode_iff {t : Text} {bytes : List UInt8} (h : encode t = some bytes) {c : Char}
    (hc : c.toNat < 0x80) : UInt8.ofNat c.toNat ∈ bytes ↔ .scalar c ∈ t := by
  induction t generalizing bytes with
  | nil =>
    obtain rfl : [] = bytes := Option.some.inj h
    simp
  | cons p t ih =>
    obtain ⟨first, hp, h⟩ := Option.bind_eq_some_iff.mp h
    obtain ⟨rest, ht, h⟩ := Option.bind_eq_some_iff.mp h
    obtain rfl : first ++ rest = bytes := Option.some.inj h
    rw [List.mem_append, List.mem_cons, mem_encodePoint_iff hp hc, ih ht, eq_comm]

/-- A text has a form exactly if no surrogate stands in it. -/
theorem exists_encode_iff {t : Text} : (∃ bytes, encode t = some bytes) ↔ t.isEncodable = true := by
  induction t with
  | nil => simp [encode]
  | cons p t ih =>
    rw [Text.isEncodable_cons, Bool.and_eq_true, ← ih]
    cases p with
    | surrogate i => simp [encode, encodePoint, CodePoint.isScalar]
    | scalar c =>
      cases h : encode t with
      | none => simp [encode, h]
      | some bytes => simp [encode, h, encodePoint, CodePoint.isScalar]

end LocaleLift.Utf8
