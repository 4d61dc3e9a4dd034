import LocaleLift.Script.Rule
import LocaleLift.Literal

/-! Scanners for the tokens of scripts, and for what may stand between them. -/
namespace LocaleLift.Script.Lexeme

/-- The spaces between tokens: the ASCII ones, the space separators, the line separators and the
invisible characters that editors leave behind. -/
def isGap (c : CodePoint) : Bool :=
  c.inRange 0x09 0x0D || c.toNat == 0x20 || c.toNat == 0xA0 || c.toNat == 0x1680 ||
    c.inRange 0x2000 0x200B || c.inRange 0x2028 0x2029 || c.toNat == 0x202F ||
    c.inRange 0x205F 0x2060 || c.toNat == 0x3000 || c.toNat == 0xFEFF

/-- The spaces that may stand at the end of a line that ends a statement: those that do not keep
what is around them together. -/
def isBlank (c : CodePoint) : Bool :=
  isGap c && !([0xA0, 0x2007, 0x200B, 0x202F, 0x2060, 0xFEFF] : List Nat).contains c.toNat

/-- The characters that end a line where a statement may end with it. -/
def endsLine (c : CodePoint) : Bool :=
  c.toNat == 0x0A || c.inRange 0x2028 0x2029

private inductive Inside where
  | nothing
  | line
  | block

private def gapFrom : Inside → Nat → Nat → Text → Nat
  | .nothing, n, _, .scalar '/' :: .scalar '/' :: t => gapFrom .line (n + 2) n t
  | .nothing, n, _, .scalar '/' :: .scalar '*' :: t => gapFrom .block (n + 2) n t
  | .nothing, n, m, c :: t => if isGap c then gapFrom .nothing (n + 1) m t else n
  | .line, n, m, c :: t =>
    if endsLine c || c == .scalar '\r' then gapFrom .nothing (n + 1) m t
    else gapFrom .line (n + 1) m t
  | .block, n, m, .scalar '*' :: .scalar '/' :: t => gapFrom .nothing (n + 2) m t
  | .block, n, m, _ :: t => gapFrom .block (n + 1) m t
  | .block, _, m, [] => m
  | _, n, _, [] => n

/-- How much of a text is spaces and comments. A block comment that never ends is not skipped. -/
def gap (t : Text) : Nat :=
  gapFrom .nothing 0 0 t

@[simp] theorem gap_nil : gap [] = 0 := rfl

private theorem gapFrom_cons {c : CodePoint} (hc : isGap c = false) (hslash : c ≠ .scalar '/')
    (n m : Nat) (t : Text) : gapFrom .nothing n m (c :: t) = n := by
  unfold gapFrom
  split <;> simp_all

/-- Nothing is skipped before a character that is no space and begins no comment. -/
theorem gap_cons {c : CodePoint} (hc : isGap c = false) (hslash : c ≠ .scalar '/') (t : Text) :
    gap (c :: t) = 0 :=
  gapFrom_cons hc hslash 0 0 t

theorem gap_space_cons {c : CodePoint} (hc : isGap c = false) (hslash : c ≠ .scalar '/')
    (t : Text) : gap (.scalar ' ' :: c :: t) = 1 :=
  gapFrom_cons hc hslash 1 0 t

private def marks : Text :=
  ":;\x60\"'@#.,|^&<=>+-*/\\%?!~()[]\x7b\x7d"

private def isMark (c : CodePoint) : Bool :=
  !c.isScalar || marks.contains c

/-- Whether a name may begin with a character: no digit, mark, space or control. -/
def startsName (c : CodePoint) : Bool :=
  0x20 ≤ c.toNat && !c.inRange 0x30 0x39 && !isMark c && !isGap c

def continuesName (c : CodePoint) : Bool :=
  0x20 ≤ c.toNat && !isMark c && !isGap c

private def hexRun (t : Text) : Nat :=
  (t.takeWhile fun c => (Text.hexDigit? c).isSome).length

private def nameEscape (t : Text) : Option Nat :=
  match t with
  | .scalar '\\' :: .scalar 'u' :: .scalar '\x7b' :: t =>
    let n := hexRun t
    if 0 < n && (t.drop n).head? == some (.scalar '\x7d') then some (n + 4) else none
  | .scalar '\\' :: .scalar 'u' :: t => if 4 ≤ hexRun (t.take 4) then some 6 else none
  | _ => none

private def nameFrom : Nat → Nat → Text → Nat
  | n, _, [] => n
  | n, skip + 1, _ :: t => nameFrom n skip t
  | n, 0, c :: t =>
    if continuesName c then nameFrom (n + 1) 0 t
    else match nameEscape (c :: t) with
      | some k => nameFrom (n + k) (k - 1) t
      | none => n

/-- A name: its characters may be written as escapes. -/
def name : Scanner
  | [] => none
  | c :: t =>
    if startsName c || (nameEscape (c :: t)).isSome then some (nameFrom 0 0 (c :: t)) else none

def IsName (s : Text) : Prop :=
  ∃ c t, s = c :: t ∧ startsName c = true ∧ ∀ d ∈ t, continuesName d = true

theorem continuesName_of_startsName {c : CodePoint} (h : startsName c = true) :
    continuesName c = true := by
  simp only [startsName, continuesName, Bool.and_eq_true] at *
  exact ⟨⟨h.1.1.1, h.1.2⟩, h.2⟩

theorem startsName_of_isDigit {c : CodePoint} (h : startsName c = true) :
    c.inRange 0x30 0x39 = false := by
  simp only [startsName, Bool.and_eq_true, Bool.not_eq_true'] at h
  exact h.1.1.2

theorem isGap_of_startsName {c : CodePoint} (h : startsName c = true) : isGap c = false := by
  simp only [startsName, Bool.and_eq_true, Bool.not_eq_true'] at h
  exact h.2

theorem IsName.isScalar {s : Text} (h : IsName s) : ∀ c ∈ s, c.isScalar = true := by
  obtain ⟨c, t, rfl, hc, ht⟩ := h
  have hall : ∀ d ∈ c :: t, continuesName d = true :=
    List.forall_mem_cons.mpr ⟨continuesName_of_startsName hc, ht⟩
  intro d hd
  have hd := hall d hd
  simp only [continuesName, isMark, Bool.and_eq_true, Bool.not_eq_true', Bool.or_eq_false_iff]
    at hd
  simpa using hd.1.2.1

def EndsName (t : Text) : Prop :=
  ∀ c ∈ t.head?, continuesName c = false ∧ c ≠ .scalar '\\'

private theorem nameEscape_cons {c : CodePoint} (hc : c ≠ .scalar '\\') (t : Text) :
    nameEscape (c :: t) = none := by
  unfold nameEscape
  split <;> simp_all

private theorem nameFrom_of_endsName {t : Text} (h : EndsName t) (n : Nat) :
    nameFrom n 0 t = n := by
  cases t with
  | nil => rfl
  | cons c t =>
    obtain ⟨hc, hslash⟩ := h c rfl
    simp [nameFrom, hc, nameEscape_cons hslash]

private theorem nameFrom_append {s t : Text} (hs : ∀ c ∈ s, continuesName c = true)
    (ht : EndsName t) (n : Nat) : nameFrom n 0 (s ++ t) = n + s.length := by
  induction s generalizing n with
  | nil => exact nameFrom_of_endsName ht n
  | cons c s ih =>
    obtain ⟨hc, hs⟩ := List.forall_mem_cons.mp hs
    rw [List.cons_append, nameFrom, if_pos hc, ih hs, List.length_cons]
    omega

/-- A name is read up to where the text does not go on with it. -/
theorem name_append {s t : Text} (hs : IsName s) (ht : EndsName t) :
    name (s ++ t) = some s.length := by
  obtain ⟨c, s, rfl, hc, hs⟩ := hs
  have hall : ∀ d ∈ c :: s, continuesName d = true :=
    List.forall_mem_cons.mpr ⟨continuesName_of_startsName hc, hs⟩
  have hfrom := nameFrom_append hall ht 0
  rw [List.cons_append] at hfrom ⊢
  rw [name, hc, Bool.true_or, if_pos rfl, hfrom, Nat.zero_add]

theorem name_cons_eq_none {c : CodePoint} (hc : startsName c = false)
    (hslash : c ≠ .scalar '\\') (t : Text) : name (c :: t) = none := by
  simp [name, hc, nameEscape_cons hslash]

def nameExcept (words : List Text) : Scanner := fun t => do
  let n ← name t
  if words.contains (t.take n) then none else some n

def privateName : Scanner
  | .scalar '#' :: t => (name t).map (· + 1)
  | _ => none

def word (w : Text) : Scanner := fun t =>
  match name t with
  | some n => if t.take n = w then some n else none
  | none => none

theorem word_append {s t : Text} (hs : IsName s) (ht : EndsName t) (w : Text) :
    word w (s ++ t) = if s = w then some s.length else none := by
  rw [word, name_append hs ht]
  simp

theorem nameExcept_append {s t : Text} (hs : IsName s) (ht : EndsName t) (words : List Text) :
    nameExcept words (s ++ t) = if words.contains s then none else some s.length := by
  simp [nameExcept, name_append hs ht]

theorem privateName_cons_eq_none {c : CodePoint} (hc : c ≠ .scalar '#') (t : Text) :
    privateName (c :: t) = none := by
  unfold privateName
  split <;> simp_all

def mark (m stops : Text) : Scanner := fun t => do
  let rest ← Text.dropStart? m t
  match rest.head? with
  | some c => if stops.contains c then none else some m.length
  | none => some m.length

theorem mark_append {m stops t : Text} (h : ∀ c ∈ t.head?, c ∉ stops) :
    mark m stops (m ++ t) = some m.length := by
  have hdrop : Text.dropStart? m (m ++ t) = some t := Text.dropStart?_eq_some.mpr rfl
  simp only [mark, hdrop, Option.bind_eq_bind, Option.bind_some]
  cases t with
  | nil => rfl
  | cons c t => simpa using h c rfl

/-- A mark does not stand where a text begins with another character. -/
theorem mark_cons_eq_none {m : Text} {c : CodePoint} (h : ∃ d ∈ m.head?, d ≠ c)
    (stops t : Text) : mark m stops (c :: t) = none := by
  obtain ⟨d, hd, hne⟩ := h
  obtain ⟨m, rfl⟩ := List.head?_eq_some_iff.mp hd
  simp [mark, Text.dropStart?, hne]

/-- The question mark of a choice: no other question mark follows it, and no point, unless that
begins a number. Where types can be written, the point must stand apart, and no mark that ends an
optional parameter may follow. -/
def choiceMark (typed : Bool) : Scanner
  | .scalar '?' :: t =>
    let next := if typed then t.dropWhile isBlank else t
    match t, next with
    | .scalar '?' :: _, _ => none
    | .scalar '.' :: _, .scalar '.' :: c :: _ =>
      if !typed && c.inRange 0x30 0x39 then some 1 else none
    | _, .scalar '.' :: c :: _ => if c.inRange 0x30 0x39 then some 1 else none
    | _, .scalar '.' :: [] => none
    | _, c :: _ => if typed && (":)," : Text).contains c then none else some 1
    | _, _ => some 1
  | _ => none

def firstOf (scanners : List Scanner) : Scanner := fun t =>
  scanners.findSome? fun s => s t

def both (a b : Scanner) : Scanner := fun t => do
  let m ← a t
  let n ← b (t.drop m)
  return m + n

def maybe (a : Scanner) : Scanner := fun t =>
  some ((a t).getD 0)

private def digitsFrom (isDigit : CodePoint → Bool) : Nat → Text → Nat
  | n, .scalar '_' :: c :: t => if 0 < n && isDigit c then digitsFrom isDigit (n + 2) t else n
  | n, c :: t => if isDigit c then digitsFrom isDigit (n + 1) t else n
  | n, [] => n

def digits (isDigit : CodePoint → Bool) : Scanner := fun t =>
  let n := digitsFrom isDigit 0 t
  if n = 0 then none else some n

private theorem digits_cons_eq_none {isDigit : CodePoint → Bool} {c : CodePoint}
    (hc : isDigit c = false) (t : Text) : digits isDigit (c :: t) = none := by
  have hzero : digitsFrom isDigit 0 (c :: t) = 0 := by
    unfold digitsFrom
    split <;> simp_all
  simp [digits, hzero]

private def isDecimal (c : CodePoint) : Bool :=
  c.inRange 0x30 0x39

private def inBase (small large : Char) (isDigit : CodePoint → Bool) : Scanner :=
  both (firstOf [mark [.scalar '0', .scalar small] [], mark [.scalar '0', .scalar large] []])
    (both (digits isDigit) (maybe (mark "n" [])))

private def exponent : Scanner :=
  both (firstOf [mark "e" [], mark "E" []])
    (both (maybe (firstOf [mark "+" [], mark "-" []])) (digits isDecimal))

def number : Scanner :=
  firstOf [
    inBase 'x' 'X' (fun c => (Text.hexDigit? c).isSome),
    inBase 'b' 'B' (fun c => c.inRange 0x30 0x31),
    inBase 'o' 'O' (fun c => c.inRange 0x30 0x37),
    both (digits isDecimal) (mark "n" []),
    both (digits isDecimal)
      (both (maybe (both (mark "." []) (maybe (digits isDecimal)))) (maybe exponent)),
    both (mark "." []) (both (digits isDecimal) (maybe exponent))]

/-- A number begins with a digit or a point. -/
theorem number_cons_eq_none {c : CodePoint} (hc : c.inRange 0x30 0x39 = false)
    (hdot : c ≠ .scalar '.') (t : Text) : number (c :: t) = none := by
  have hdigits : digits isDecimal (c :: t) = none := digits_cons_eq_none hc t
  have hmark (small : Char) : mark [.scalar '0', .scalar small] [] (c :: t) = none := by
    refine mark_cons_eq_none ⟨.scalar '0', rfl, fun he => ?_⟩ [] t
    rw [← he] at hc
    exact absurd hc (by decide)
  have hpoint : mark "." [] (c :: t) = none :=
    mark_cons_eq_none ⟨.scalar '.', rfl, fun he => hdot he.symm⟩ [] t
  simp [number, firstOf, inBase, both, hdigits, hmark, hpoint]

def escape : Scanner
  | .scalar 'x' :: t => if 2 ≤ hexRun (t.take 2) then some 3 else none
  | .scalar 'u' :: .scalar '\x7b' :: t =>
    let n := hexRun t
    if 0 < n && (t.drop n).head? == some (.scalar '\x7d') then some (n + 3) else none
  | .scalar 'u' :: t => if 4 ≤ hexRun (t.take 4) then some 5 else none
  | c :: t =>
    if c.inRange 0x30 0x37 then
      some (1 + ((t.take 2).takeWhile fun d => d.inRange 0x30 0x37).length)
    else if (c == .scalar '\r' || c == .scalar '?') && t.head?.any endsLine then some 2
    else some 1
  | [] => none

private def stringFrom (quote : CodePoint) : Nat → Nat → Text → Option Nat
  | _, _, [] => none
  | n, skip + 1, _ :: t => stringFrom quote n skip t
  | n, 0, c :: t =>
    if c = quote then some (n + 1)
    else if c = .scalar '\\' then
      match escape t with
      | some k => stringFrom quote (n + 1 + k) k t
      | none => none
    else if c = .scalar '\n' || c = .scalar '\r' then
      let k := gap (c :: t)
      if ((c :: t).drop k).head? = some quote then some (n + k + 1) else none
    else stringFrom quote (n + 1) 0 t

/-- A string literal with its quotes. Its text ends on its line, escapes apart; only spaces and
comments may stand between a line's end and the closing quote. -/
def string : Scanner
  | .scalar '\x22' :: t => stringFrom (.scalar '\x22') 1 0 t
  | .scalar '\x27' :: t => stringFrom (.scalar '\x27') 1 0 t
  | _ => none

/-- What may stand between two quotes of a kind: such a quote only behind a backslash. -/
inductive QuotedBody (q : CodePoint) : Text → Prop where
  | nil : QuotedBody q []
  | plain {c : CodePoint} {t : Text} (hq : c ≠ q) (hslash : c ≠ .scalar '\\')
      (rest : QuotedBody q t) : QuotedBody q (c :: t)
  | escape {c : CodePoint} {t : Text} (rest : QuotedBody q t) :
      QuotedBody q (.scalar '\\' :: c :: t)

private def stops : Text :=
  "\x22\x27\\"

private theorem QuotedBody.append {q : CodePoint} (hq : q ∈ stops) {s t : Text}
    (hs : ∀ c ∈ s, c ∉ stops) (ht : QuotedBody q t) : QuotedBody q (s ++ t) := by
  induction s with
  | nil => exact ht
  | cons c s ih =>
    obtain ⟨hc, hs⟩ := List.forall_mem_cons.mp hs
    refine .plain (fun he => hc (he ▸ hq)) (fun he => hc ?_) (ih hs)
    rw [he]
    decide

private theorem not_mem_stops {p : CodePoint → Bool} (hp : ∀ d ∈ stops, p d = false)
    {s : Text} (hs : ∀ c ∈ s, p c = true) : ∀ c ∈ s, c ∉ stops := by
  intro c hc hstop
  have := hs c hc
  rw [hp c hstop] at this
  cases this

private def isHexDigit (c : CodePoint) : Bool :=
  (Text.hexDigit? c).isSome

/-- As many hexadecimal digits as a text begins with. -/
private theorem exists_of_le_hexRun {t : Text} {n : Nat} (h : n ≤ hexRun t) :
    ∃ s u, t = s ++ u ∧ s.length = n ∧ ∀ c ∈ s, c ∉ stops := by
  have hprefix := List.takeWhile_prefix (l := t) isHexDigit
  have htake : t.take n <+: t.takeWhile isHexDigit :=
    List.prefix_of_prefix_length_le (List.take_prefix n t) hprefix
      (Nat.le_trans (List.length_take_le n t) h)
  refine ⟨t.take n, t.drop n, (List.take_append_drop n t).symm, ?_, ?_⟩
  · exact List.length_take_of_le (Nat.le_trans h hprefix.length_le)
  · refine not_mem_stops (p := isHexDigit) (by decide) fun c hc => ?_
    exact List.all_eq_true.mp List.all_takeWhile c (htake.subset hc)

/-- Only the first code point of an escape can be one of these marks. -/
private theorem escape_eq_some {t : Text} {n : Nat} (h : escape t = some n) :
    ∃ c s u, t = c :: (s ++ u) ∧ n = s.length + 1 ∧ ∀ d ∈ s, d ∉ stops := by
  have hdigits {c : CodePoint} {t : Text} {n : Nat} (hrun : n ≤ hexRun (t.take n)) :
      ∃ s u, c :: t = c :: (s ++ u) ∧ n = s.length ∧ ∀ d ∈ s, d ∉ stops := by
    obtain ⟨s, u, hsplit, hlength, hs⟩ := exists_of_le_hexRun hrun
    refine ⟨s, u ++ t.drop n, ?_, hlength.symm, hs⟩
    rw [← List.append_assoc, ← hsplit, List.take_append_drop]
  unfold escape at h
  split at h
  · split at h
    · rename_i hrun
      cases h
      obtain ⟨s, u, hsplit, hlength, hs⟩ := hdigits hrun
      exact ⟨_, s, u, hsplit, by rw [← hlength], hs⟩
    · cases h
  · rename_i t
    dsimp only at h
    split at h
    · rename_i hrun
      cases h
      obtain ⟨s, u, rfl, hlength, hs⟩ := exists_of_le_hexRun (Nat.le_refl (hexRun t))
      have hclose := (Bool.and_eq_true_iff.mp hrun).2
      rw [← hlength, List.drop_left, beq_iff_eq] at hclose
      obtain ⟨v, rfl⟩ := List.head?_eq_some_iff.mp hclose
      refine ⟨.scalar 'u', .scalar '\x7b' :: (s ++ [.scalar '\x7d']), v, by simp, ?_, ?_⟩
      · rw [List.length_cons, List.length_append, hlength]
        rfl
      · exact List.forall_mem_cons.mpr ⟨by decide, List.forall_mem_append.mpr ⟨hs, by decide⟩⟩
    · cases h
  · split at h
    · rename_i hrun
      cases h
      obtain ⟨s, u, hsplit, hlength, hs⟩ := hdigits hrun
      exact ⟨_, s, u, hsplit, by rw [← hlength], hs⟩
    · cases h
  · rename_i c t _ _ _
    split at h
    · cases h
      have hprefix := (List.takeWhile_prefix (l := t.take 2)
        fun d => d.inRange 0x30 0x37).trans (List.take_prefix 2 t)
      obtain ⟨u, hu⟩ := hprefix
      refine ⟨c, _, u, by rw [hu], Nat.add_comm _ _, ?_⟩
      refine not_mem_stops (p := fun d => d.inRange 0x30 0x37) (by decide) fun d hd => ?_
      exact List.all_eq_true.mp List.all_takeWhile d hd
    · split at h
      · rename_i hpair
        cases h
        have hnext := (Bool.and_eq_true_iff.mp hpair).2
        cases t with
        | nil => cases hnext
        | cons d u =>
          refine ⟨c, [d], u, rfl, rfl, ?_⟩
          refine not_mem_stops (p := endsLine) (by decide) fun e he => ?_
          rwa [List.mem_singleton.mp he]
      · cases h
        exact ⟨c, [], t, rfl, rfl, List.forall_mem_nil _⟩
  · cases h

private theorem stringFrom_skip (q : CodePoint) (n : Nat) (s t : Text) :
    stringFrom q n s.length (s ++ t) = stringFrom q n 0 t := by
  induction s with
  | nil => rfl
  | cons c s ih => exact ih

/-- Where a line ends inside, the body is whatever the gap there comes to. -/
private theorem exists_of_stringFrom {q : CodePoint} (hq : q ∈ stops) {n m : Nat} {t : Text}
    (h : stringFrom q n 0 t = some m) :
    ∃ body rest, t = body ++ q :: rest ∧ m = n + body.length + 1 ∧
      ((∀ c ∈ body, c ≠ .scalar '\n' ∧ c ≠ .scalar '\r') → QuotedBody q body) := by
  induction hlength : t.length using Nat.strongRecOn generalizing n t with
  | ind _ ih =>
  subst hlength
  cases t with
  | nil => cases h
  | cons c t =>
    rw [stringFrom] at h
    split at h
    · rename_i hc
      cases h
      exact ⟨[], t, by rw [hc]; rfl, rfl, fun _ => .nil⟩
    · rename_i hc
      split at h
      · rename_i hslash
        subst hslash
        split at h
        · rename_i k hk
          obtain ⟨d, s, u, rfl, rfl, hs⟩ := escape_eq_some hk
          rw [stringFrom, stringFrom_skip] at h
          obtain ⟨body, rest, rfl, rfl, hbody⟩ := ih u.length (by simp; omega) h rfl
          refine ⟨.scalar '\\' :: d :: (s ++ body), rest, by simp, ?_, fun hline => ?_⟩
          · simp only [List.length_cons, List.length_append]
            omega
          · exact .escape (.append hq hs (hbody fun e he => hline e (by simp [he])))
        · cases h
      · rename_i hslash
        split at h
        · rename_i hline
          dsimp only at h
          split at h
          · rename_i hhead
            cases h
            obtain ⟨rest, hrest⟩ : ∃ rest, (c :: t).drop (gap (c :: t)) = q :: rest :=
              List.head?_eq_some_iff.mp hhead
            have hgap : (c :: t).take (gap (c :: t)) ≠ [] := by
              intro hnil
              have := List.take_append_drop (gap (c :: t)) (c :: t)
              rw [hnil, hrest] at this
              exact hc (List.cons.inj this).1.symm
            refine ⟨(c :: t).take (gap (c :: t)), rest, ?_, ?_, fun hnone => ?_⟩
            · rw [← hrest, List.take_append_drop]
            · have hlen := congrArg List.length hrest
              simp only [List.length_drop, List.length_cons, List.length_take] at hlen ⊢
              omega
            · cases hk : gap (c :: t) with
              | zero => exact absurd (by rw [hk]; rfl) hgap
              | succ k =>
                rw [hk] at hnone
                have := hnone c (List.mem_cons_self ..)
                simp [this] at hline
          · cases h
        · obtain ⟨body, rest, rfl, rfl, hbody⟩ := ih t.length (Nat.lt_succ_self _) h rfl
          refine ⟨c :: body, rest, rfl, ?_, fun hline => ?_⟩
          · rw [List.length_cons]
            omega
          · exact .plain hc hslash (hbody fun e he => hline e (List.mem_cons_of_mem c he))

private theorem take_of_body {q : CodePoint} {t body rest : Text} {n : Nat}
    (ht : t = body ++ q :: rest) (hn : n = 1 + body.length + 1) :
    (q :: t).take n = q :: (body ++ [q]) := by
  have hlength : n = (q :: (body ++ [q])).length := by
    rw [List.length_cons, List.length_append, List.length_singleton]
    omega
  have hsplit : q :: t = q :: (body ++ [q]) ++ rest := by simp [ht]
  rw [hlength, hsplit, List.take_left]

/-- A string literal stands between two quotes of one kind. In its body, if no line ends there, such
a quote is escaped. -/
theorem exists_body_of_string {t : Text} {n : Nat} (h : string t = some n) :
    ∃ q body, (q = .scalar '\x22' ∨ q = .scalar '\x27') ∧ t.take n = q :: (body ++ [q]) ∧
      ((∀ c ∈ body, c ≠ .scalar '\n' ∧ c ≠ .scalar '\r') → QuotedBody q body) := by
  unfold string at h
  split at h
  · obtain ⟨body, rest, ht, hn, hbody⟩ := exists_of_stringFrom (by decide) h
    exact ⟨_, body, .inl rfl, take_of_body ht hn, hbody⟩
  · obtain ⟨body, rest, ht, hn, hbody⟩ := exists_of_stringFrom (by decide) h
    exact ⟨_, body, .inr rfl, take_of_body ht hn, hbody⟩
  · cases h

theorem exists_of_string {t : Text} {n : Nat} (h : string t = some n) :
    ∃ q body, (q = .scalar '\x22' ∨ q = .scalar '\x27') ∧ t.take n = q :: (body ++ [q]) := by
  obtain ⟨q, body, hq, hbody, -⟩ := exists_body_of_string h
  exact ⟨q, body, hq, hbody⟩

private theorem stringFrom_spell {q : CodePoint} (hq : q = .scalar '\x22' ∨ q = .scalar '\x27')
    (c : CodePoint) (n : Nat) (t : Text) :
    stringFrom q n 0 (Literal.spell q c ++ t) =
      stringFrom q (n + (Literal.spell q c).length) 0 t := by
  have hescape (s : Text) (hs : escape (s ++ t) = some s.length) :
      stringFrom q n 0 (.scalar '\\' :: s ++ t) =
        stringFrom q (n + (.scalar '\\' :: s : Text).length) 0 t := by
    have hne : ¬ CodePoint.scalar '\\' = q := by
      rcases hq with rfl | rfl <;> decide
    rw [List.cons_append, stringFrom, if_neg hne, if_pos rfl, hs]
    dsimp only
    rw [stringFrom_skip, List.length_cons, Nat.add_assoc, Nat.add_comm 1]
  unfold Literal.spell
  split
  · exact hescape [.scalar '\\'] rfl
  rename_i hslash
  split
  · refine hescape [q] ?_
    rcases hq with rfl | rfl <;> rfl
  rename_i hquote
  split
  · exact hescape [.scalar 'n'] rfl
  rename_i hfeed
  split
  · exact hescape [.scalar 'r'] rfl
  rename_i hreturn
  split
  · exact hescape "u2028" rfl
  split
  · exact hescape "u2029" rfl
  · rw [List.singleton_append, stringFrom, if_neg hquote, if_neg hslash,
      if_neg (by simp [hfeed, hreturn])]
    rfl

private theorem stringFrom_spelled {q : CodePoint}
    (hq : q = .scalar '\x22' ∨ q = .scalar '\x27') (value rest : Text) (n : Nat) :
    stringFrom q n 0 (value.flatMap (Literal.spell q) ++ q :: rest) =
      some (n + (value.flatMap (Literal.spell q)).length + 1) := by
  induction value generalizing n with
  | nil => simp [stringFrom]
  | cons c value ih =>
    rw [List.flatMap_cons, List.append_assoc, stringFrom_spell hq, ih, List.length_append]
    simp [Nat.add_assoc]

/-- A written literal is read as one string, whatever follows it. -/
theorem string_quote {q : CodePoint} (hq : q = .scalar '\x22' ∨ q = .scalar '\x27')
    (value rest : Text) :
    string (Literal.quote [q] value ++ rest) = some (Literal.quote [q] value).length := by
  have hfrom := stringFrom_spelled hq value rest 1
  rw [Literal.quote_eq_spell hq]
  have hparts : q :: (value.flatMap (Literal.spell q) ++ [q]) ++ rest =
      q :: (value.flatMap (Literal.spell q) ++ q :: rest) := by simp
  have hlength : (q :: (value.flatMap (Literal.spell q) ++ [q])).length =
      1 + (value.flatMap (Literal.spell q)).length + 1 := by
    rw [List.length_cons, List.length_append, List.length_singleton]
    omega
  rw [hparts, hlength, ← hfrom]
  rcases hq with rfl | rfl <;> rfl

def characterReference : Scanner
  | .scalar '&' :: .scalar '#' :: .scalar x :: t =>
    if x == 'x' || x == 'X' then
      let n := hexRun t
      if 0 < n && n ≤ 6 && (t.drop n).head? == some (.scalar ';') then some (n + 4) else none
    else
      let n := ((CodePoint.scalar x :: t).takeWhile isDecimal).length
      if 0 < n && n ≤ 5 && ((CodePoint.scalar x :: t).drop n).head? == some (.scalar ';') then
        some (n + 3)
      else none
  | .scalar '&' :: t =>
    let n := (t.takeWhile fun c => c.inRange 0x41 0x5A || c.inRange 0x61 0x7A).length
    if 0 < n && n ≤ 30 && (t.drop n).head? == some (.scalar ';') then some (n + 2) else none
  | _ => none

private def attributeFrom (quote : CodePoint) : Nat → Nat → Text → Option Nat
  | _, _, [] => none
  | n, skip + 1, _ :: t => attributeFrom quote n skip t
  | n, 0, c :: t =>
    if c = quote then some (n + 1)
    else if c = .scalar '&' then
      match t with
      | [] => none
      | d :: _ =>
        if d = .scalar '#' || d.inRange 0x41 0x5A || d.inRange 0x61 0x7A then
          match characterReference (c :: t) with
          | some k => attributeFrom quote (n + k) (k - 1) t
          | none => none
        else attributeFrom quote (n + 2) 1 t
    else attributeFrom quote (n + 1) 0 t

/-- The quoted value of an element's attribute, in which a backslash means nothing and an
ampersand before a letter or a number sign begins a character reference. -/
def attributeString : Scanner
  | .scalar '\x22' :: t => attributeFrom (.scalar '\x22') 1 0 t
  | .scalar '\x27' :: t => attributeFrom (.scalar '\x27') 1 0 t
  | _ => none

private theorem characterReference_pos {t : Text} {n : Nat} (h : characterReference t = some n) :
    0 < n := by
  unfold characterReference at h
  split at h
  · split at h
    · dsimp only at h
      split at h
      · cases h
        exact Nat.zero_lt_succ _
      · cases h
    · dsimp only at h
      split at h
      · cases h
        exact Nat.zero_lt_succ _
      · cases h
  · dsimp only at h
    split at h
    · cases h
      exact Nat.zero_lt_succ _
    · cases h
  · cases h

private theorem exists_of_attributeFrom {q : CodePoint} {n skip m : Nat} {t : Text}
    (h : attributeFrom q n skip t = some m) :
    ∃ body rest, t = body ++ q :: rest ∧ m + skip = n + body.length + 1 := by
  induction t generalizing n skip with
  | nil => simp [attributeFrom] at h
  | cons c t ih =>
    have hmore {n' skip' : Nat} (h : attributeFrom q n' skip' t = some m)
        (hn : m + skip' + n + 1 = m + skip + n') :
        ∃ body rest, c :: t = body ++ q :: rest ∧ m + skip = n + body.length + 1 := by
      obtain ⟨body, rest, rfl, hm⟩ := ih h
      exact ⟨c :: body, rest, rfl, by rw [List.length_cons]; omega⟩
    cases skip with
    | succ skip =>
      rw [attributeFrom.eq_def] at h
      dsimp only at h
      exact hmore h (by omega)
    | zero =>
      rw [attributeFrom.eq_def] at h
      dsimp only at h
      split at h
      · rename_i hc
        cases h
        exact ⟨[], t, by rw [hc]; rfl, rfl⟩
      · split at h
        · split at h
          · cases h
          · split at h
            · split at h
              · rename_i hk
                have := characterReference_pos hk
                exact hmore h (by omega)
              · cases h
            · exact hmore h (by omega)
        · exact hmore h (by omega)

/-- The value of an attribute stands between two quotes of one kind. -/
theorem exists_of_attributeString {t : Text} {n : Nat} (h : attributeString t = some n) :
    ∃ q body, (q = .scalar '\x22' ∨ q = .scalar '\x27') ∧ t.take n = q :: (body ++ [q]) := by
  unfold attributeString at h
  split at h
  · obtain ⟨body, rest, ht, hn⟩ := exists_of_attributeFrom h
    exact ⟨_, body, .inl rfl, take_of_body ht hn⟩
  · obtain ⟨body, rest, ht, hn⟩ := exists_of_attributeFrom h
    exact ⟨_, body, .inr rfl, take_of_body ht hn⟩
  · cases h

private def templateFrom : Nat → Nat → Text → Option Nat
  | n, _, [] => some n
  | n, skip + 1, _ :: t => templateFrom n skip t
  | n, 0, .scalar '$' :: .scalar '\x7b' :: _ => some n
  | n, 0, c :: t =>
    if c = .scalar '\x60' then some n
    else if c = .scalar '\\' then
      match escape t with
      | some k => templateFrom (n + 1 + k) k t
      | none => none
    else templateFrom (n + 1) 0 t

/-- The static text of a template up to the next substitution or the end. -/
def templateText : Scanner := fun t =>
  match templateFrom 0 0 t with
  | some 0 => none
  | r => r

private def regexFrom (inClass : Bool) : Nat → Nat → Text → Option Nat
  | _, _, [] => none
  | n, skip + 1, _ :: t => regexFrom inClass n skip t
  | n, 0, c :: t =>
    if c = .scalar '\n' then none
    else if c = .scalar '\\' then
      match t with
      | .scalar '\n' :: _ => none
      | _ => regexFrom inClass (n + 2) 1 t
    else if inClass then regexFrom (c != .scalar ']') (n + 1) 0 t
    else if c = .scalar '/' then if 1 < n then some (n + 1) else none
    else regexFrom (c == .scalar '[') (n + 1) 0 t

def regex : Scanner
  | .scalar '/' :: t =>
    (regexFrom false 1 0 t).map fun n =>
      n + ((t.drop (n - 1)).takeWhile fun c => c.inRange 0x61 0x7A).length
  | _ => none

theorem regex_cons_eq_none {c : CodePoint} (hc : c ≠ .scalar '/') (t : Text) :
    regex (c :: t) = none := by
  unfold regex
  split <;> simp_all

private def elementTextFrom (atNewline saw : Bool) (n : Nat) : Text → Bool × Nat
  | [] => (saw, n)
  | c :: t =>
    if [CodePoint.scalar '<', .scalar '>', .scalar '\x7b', .scalar '\x7d', .scalar '&'].contains c then
      (saw, n)
    else if c = .scalar '\n' then elementTextFrom true saw (n + 1) t
    else
      let atNewline := atNewline && isGap c
      elementTextFrom atNewline (saw || !atNewline) (n + 1) t

/-- The words between tags. Space that only breaks and indents a line is none. -/
def elementText : Scanner := fun t =>
  match elementTextFrom false false 0 t with
  | (true, n) => some n
  | (false, _) => none

private def isAsciiName (c : CodePoint) : Bool :=
  c.inRange 0x30 0x39 || c.inRange 0x41 0x5A || c.inRange 0x61 0x7A ||
    c == .scalar '_' || c == .scalar '$'

/-- The name of an element or an attribute, which may hold hyphens after its first part. -/
def elementName : Scanner := fun t => do
  let n ← name t
  if (t.take n).all isAsciiName && (t.drop n).head? == some (.scalar '-') then
    return n + ((t.drop n).takeWhile fun c => isAsciiName c || c == .scalar '-').length
  else return n

private def isLetter (c : CodePoint) : Bool :=
  c.inRange 0x41 0x5A || c.inRange 0x61 0x7A || (0x80 ≤ c.toNat && continuesName c)

/-- Whether a text goes on with the statement on the line before. Parentheses and brackets do so
after an expression, and everywhere in a dialect without types. -/
private def goesOn (typed operators : Bool) (t : Text) : Bool :=
  match t with
  | .scalar '.' :: t => typed || !t.head?.any isDecimal
  | .scalar '+' :: t => t.head? != some (.scalar '+')
  | .scalar '-' :: t => t.head? != some (.scalar '-')
  | .scalar '!' :: t => t.head? == some (.scalar '=')
  | .scalar '(' :: _ | .scalar '[' :: _ => operators || !typed
  | .scalar 'i' :: .scalar 'n' :: t =>
    match Text.dropStart? "stanceof" t with
    | some t => !(t.head?.any isLetter)
    | none => !(t.head?.any isLetter)
  | c :: _ => ("\x60,:;*%><=?^|&/" : Text).contains c
  | [] => false

/-- Where the search for the end of a statement stands. -/
private inductive Search where
  /-- On the line of the statement, or behind a comment. -/
  | here
  /-- Behind a space that keeps what is around it together. -/
  | stuck
  | lineComment
  /-- In a comment; whether a line has ended in it. -/
  | blockComment (lines : Bool)
  /-- Behind a comment with the end of a line, where no operator can follow. -/
  | released
  | releasedLineComment
  | releasedBlockComment (lines : Bool)
  /-- On a later line. -/
  | later
  | laterLineComment
  | laterBlockComment

private def released (t : Text) : Bool :=
  match t with
  | c :: _ => !([CodePoint.scalar ',', .scalar '=', .scalar '/'].contains c)
  | [] => true

private def endsFrom (typed operators : Bool) : Search → Text → Bool
  | .here, [] => true
  | .here, .scalar '/' :: .scalar '/' :: t =>
    endsFrom typed operators
      (if typed || operators then .lineComment else .releasedLineComment) t
  | .here, .scalar '/' :: .scalar '*' :: t => endsFrom typed operators (.blockComment false) t
  | .here, c :: t =>
    if c = .scalar '\x7d' then
      operators || !typed || (t.dropWhile isBlank).head? != some (.scalar ':')
    else if endsLine c && !(typed && c != .scalar '\n') then endsFrom typed operators .later t
    else if isBlank c then endsFrom typed operators .here t
    else isGap c && endsFrom typed operators .stuck t
  | .stuck, [] => false
  | .stuck, .scalar '/' :: .scalar '/' :: t => endsFrom typed operators .lineComment t
  | .stuck, .scalar '/' :: .scalar '*' :: t => endsFrom typed operators (.blockComment false) t
  | .stuck, c :: t => isGap c && endsFrom typed operators .stuck t
  | .lineComment, [] => true
  | .lineComment, c :: t =>
    if c = .scalar '\r' then endsFrom typed operators .here t
    else if endsLine c then
      endsFrom typed operators (if typed && c != .scalar '\n' then .here else .later) t
    else endsFrom typed operators .lineComment t
  | .blockComment _, [] => false
  | .blockComment lines, .scalar '*' :: .scalar '/' :: t =>
    if lines && !typed && !operators && released t then true
    else endsFrom typed operators .here t
  | .blockComment lines, c :: t => endsFrom typed operators (.blockComment (lines || endsLine c)) t
  | .released, [] => true
  | .released, .scalar '/' :: .scalar '/' :: t => endsFrom typed operators .releasedLineComment t
  | .released, .scalar '/' :: .scalar '*' :: t =>
    endsFrom typed operators (.releasedBlockComment false) t
  | .released, c :: t =>
    if isBlank c then endsFrom typed operators .released t else released (c :: t)
  | .releasedLineComment, [] => true
  | .releasedLineComment, c :: t =>
    endsFrom typed operators (if endsLine c then .released else .releasedLineComment) t
  | .releasedBlockComment _, [] => false
  | .releasedBlockComment lines, .scalar '*' :: .scalar '/' :: t =>
    if lines then released t else endsFrom typed operators .here t
  | .releasedBlockComment lines, c :: t =>
    endsFrom typed operators (.releasedBlockComment (lines || endsLine c)) t
  | .later, [] => true
  | .later, .scalar '/' :: .scalar '/' :: t => endsFrom typed operators .laterLineComment t
  | .later, .scalar '/' :: .scalar '*' :: t => endsFrom typed operators .laterBlockComment t
  | .later, c :: t =>
    if isBlank c then endsFrom typed operators .later t else !goesOn typed operators (c :: t)
  | .laterLineComment, [] => true
  | .laterLineComment, c :: t =>
    endsFrom typed operators (if endsLine c then .later else .laterLineComment) t
  | .laterBlockComment, [] => true
  | .laterBlockComment, .scalar '*' :: .scalar '/' :: t => endsFrom typed operators .later t
  | .laterBlockComment, _ :: t => endsFrom typed operators .laterBlockComment t

/-- The end of a statement without a semicolon, in a dialect with or without types, where an
operator could follow or could not: at the end of the source, before a closing brace, or at the
end of a line, if the next line does not go on with the statement. The lines of a block comment
count only where no operator could follow, and only in a dialect without types. -/
def lineEnd (typed operators : Bool) : Scanner := fun t =>
  if endsFrom typed operators .here t then some 0 else none

private def crossesLine : Inside → Text → Bool
  | .nothing, .scalar '/' :: .scalar '/' :: t => crossesLine .line t
  | .nothing, .scalar '/' :: .scalar '*' :: t => crossesLine .block t
  | .nothing, c :: t => endsLine c || (isGap c && crossesLine .nothing t)
  | .line, c :: t => endsLine c || crossesLine .line t
  | .block, .scalar '*' :: .scalar '/' :: t => crossesLine .nothing t
  | .block, _ :: t => crossesLine .block t
  | _, [] => false

/-- No line ends before the next token, those of block comments apart. -/
def sameLine : Scanner := fun t =>
  if crossesLine .nothing t then none else some 0

theorem eq_zero_of_sameLine {t : Text} {n : Nat} (h : sameLine t = some n) : n = 0 := by
  rw [sameLine] at h
  split at h <;> cases h
  rfl

def sourceEnd : Scanner := fun t =>
  if t.isEmpty then some 0 else none

/-- A comment in the form of markup, up to the end of its line. -/
def markupComment : Scanner := fun t =>
  if Text.startsWith "<!--" t || Text.startsWith "-->" t then
    some (t.takeWhile fun c => !endsLine c).length
  else none

def interpreterLine : Scanner := fun t =>
  if Text.startsWith "#!" t then
    some (t.takeWhile fun c => !endsLine c).length
  else none

end LocaleLift.Script.Lexeme
