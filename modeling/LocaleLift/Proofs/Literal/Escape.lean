import LocaleLift.Literal
import Mathlib.Data.List.Forall2

/-! Which literals have a value, and which values can be encoded: both depend on the numbers that
the escapes name. -/
namespace LocaleLift.Literal

def Escape.number? : Escape → Option Nat
  | number n => some n
  | text _ => none

/-- The numbers that the escapes of a body name, in order. -/
def numbers (body : Text) : List Nat :=
  (Text.findAll matchEscape body).filterMap Escape.number?

def IsSurrogate (n : Nat) : Prop :=
  0xD800 ≤ n ∧ n < 0xE000

theorem mem_numbers {body : Text} {n : Nat} :
    n ∈ numbers body ↔ ∃ spelling, .found (.number n) spelling ∈ Text.parts matchEscape body := by
  simp only [numbers, Text.findAll, List.mem_filterMap]
  constructor
  · rintro ⟨e, ⟨p, hp, hpe⟩, hen⟩
    cases p with
    | plain c => cases hpe
    | found e' spelling =>
      cases hpe
      cases e with
      | text t => cases hen
      | number m =>
        cases hen
        exact ⟨spelling, hp⟩
  · rintro ⟨spelling, hp⟩
    exact ⟨.number n, ⟨_, hp, rfl⟩, rfl⟩

private theorem cookPart_error {p : Part Escape} {e : Failure} (h : cookPart p = .error e) :
    e = .escapeTooLarge := by
  cases p with
  | plain c => cases h
  | found x spelling =>
    cases x with
    | text t => cases h
    | number n =>
      simp only [cookPart, Escape.cook] at h
      split at h
      · cases h
      · split at h
        · cases h
        · cases h
          rfl

private theorem exists_cook_number {n : Nat} {spelling : Text} :
    (∃ v, (Escape.number n).cook spelling = .ok v) ↔ n ≤ 0x7FFFFFFF := by
  rw [Escape.cook]
  split
  · rename_i c hc
    have := CodePoint.exists_ofNat?.mp ⟨c, hc⟩
    exact ⟨fun _ => by omega, fun _ => ⟨_, rfl⟩⟩
  · split
    · rename_i hle
      exact ⟨fun _ => hle, fun _ => ⟨_, rfl⟩⟩
    · rename_i hle
      exact ⟨nofun, fun h => absurd h hle⟩

private theorem isEncodable_cook_number {n : Nat} {spelling v : Text}
    (hs : spelling.isEncodable = true) (h : (Escape.number n).cook spelling = .ok v) :
    v.isEncodable = true ↔ ¬ IsSurrogate n := by
  rw [Escape.cook] at h
  split at h
  · rename_i c hc
    obtain rfl := Except.ok.inj h
    rw [Text.isEncodable_cons, Text.isEncodable_nil, Bool.and_true, CodePoint.isScalar_iff,
      CodePoint.toNat_of_ofNat? hc, IsSurrogate]
  · rename_i hnone
    have hn : ¬ n < 0x110000 := fun hlt => by
      obtain ⟨c, hc⟩ := CodePoint.exists_ofNat?.mpr hlt
      rw [hc] at hnone
      cases hnone
    split at h
    · obtain rfl := Except.ok.inj h
      rw [IsSurrogate, hs]
      simp only [true_iff]
      omega
    · cases h

private theorem exists_cookPart {body : Text} :
    (∀ p ∈ Text.parts matchEscape body, ∃ v, cookPart p = .ok v) ↔
      ∀ n ∈ numbers body, n ≤ 0x7FFFFFFF := by
  constructor
  · intro h n hn
    obtain ⟨spelling, hp⟩ := mem_numbers.mp hn
    exact exists_cook_number.mp (h _ hp)
  · intro h p hp
    cases p with
    | plain c => exact ⟨[c], rfl⟩
    | found e spelling =>
      cases e with
      | text t => exact ⟨t, rfl⟩
      | number n => exact exists_cook_number.mpr (h n (mem_numbers.mpr ⟨spelling, hp⟩))

private theorem isEncodable_cookPart {body : Text} (hb : body.isEncodable = true) :
    (∀ p ∈ Text.parts matchEscape body, ∀ v, cookPart p = .ok v → v.isEncodable = true) ↔
      ∀ n ∈ numbers body, n ≤ 0x7FFFFFFF → ¬ IsSurrogate n := by
  have hspelling {e : Escape} {spelling : Text}
      (hp : .found e spelling ∈ Text.parts matchEscape body) : spelling.isEncodable = true := by
    obtain ⟨before, c, after, n, rfl, -, rfl⟩ := Text.of_mem_parts hp
    rw [Text.isEncodable, List.all_eq_true] at *
    intro d hd
    exact hb d (List.mem_append_right before
      (((List.take_sublist n after).cons_cons c).mem hd))
  constructor
  · intro h n hn hle
    obtain ⟨spelling, hp⟩ := mem_numbers.mp hn
    obtain ⟨v, hv⟩ := exists_cook_number.mpr hle
    exact (isEncodable_cook_number (hspelling hp) hv).mp (h _ hp v hv)
  · intro h p hp v hv
    cases p with
    | plain c =>
      obtain rfl := Except.ok.inj hv
      obtain ⟨before, after, rfl, -⟩ := Text.of_mem_parts hp
      simp only [Text.isEncodable_append, Text.isEncodable_cons, Bool.and_eq_true] at hb
      simpa using hb.2.1
    | found e spelling =>
      cases e with
      | text t =>
        obtain rfl := Except.ok.inj hv
        obtain ⟨before, c, after, n, rfl, hm, -⟩ := Text.of_mem_parts hp
        rw [matchEscape] at hm
        split at hm
        · simp only [Text.isEncodable_append, Text.isEncodable_cons, Bool.and_eq_true] at hb
          exact isEncodable_of_escape? hm hb.2.2
        · cases hm
      | number n =>
        have hn := mem_numbers.mpr ⟨spelling, hp⟩
        exact (isEncodable_cook_number (hspelling hp) hv).mpr
          (h n hn (exists_cook_number.mp ⟨v, hv⟩))

private theorem mapM_eq_ok {ps : List (Part Escape)} {vs : List Text} :
    ps.mapM cookPart = .ok vs ↔ List.Forall₂ (fun p v => cookPart p = .ok v) ps vs := by
  induction ps generalizing vs with
  | nil =>
    rw [List.forall₂_nil_left_iff]
    exact ⟨fun h => (Except.ok.inj h).symm, fun h => congrArg Except.ok h.symm⟩
  | cons p ps ih =>
    rw [List.mapM_cons, List.forall₂_cons_left_iff]
    cases hp : cookPart p with
    | error e => exact ⟨nofun, nofun⟩
    | ok v =>
      cases hps : ps.mapM cookPart with
      | error e =>
        refine ⟨nofun, ?_⟩
        rintro ⟨w, ws, -, hws, rfl⟩
        rw [ih.mpr hws] at hps
        cases hps
      | ok ws =>
        constructor
        · intro h
          obtain rfl := Except.ok.inj h
          exact ⟨v, ws, rfl, ih.mp hps, rfl⟩
        · rintro ⟨w, us, hw, hus, rfl⟩
          obtain rfl := Except.ok.inj hw
          obtain rfl := Except.ok.inj (hps.symm.trans (ih.mpr hus))
          rfl

theorem cook_eq_ok {body v : Text} : cook body = .ok v ↔
    ∃ vs, List.Forall₂ (fun p w => cookPart p = .ok w) (Text.parts matchEscape body) vs ∧
      vs.flatten = v := by
  simp only [← mapM_eq_ok]
  rw [cook]
  cases (Text.parts matchEscape body).mapM cookPart with
  | error e => exact ⟨nofun, nofun⟩
  | ok vs => exact ⟨fun h => ⟨vs, rfl, Except.ok.inj h⟩, fun ⟨us, hu, h⟩ =>
      congrArg Except.ok (Except.ok.inj hu ▸ h)⟩

private theorem exists_forall₂ {ps : List (Part Escape)} :
    (∃ vs, List.Forall₂ (fun p v => cookPart p = .ok v) ps vs) ↔
      ∀ p ∈ ps, ∃ v, cookPart p = .ok v := by
  induction ps with
  | nil => simp
  | cons p ps ih =>
    rw [List.forall_mem_cons, ← ih]
    constructor
    · rintro ⟨vs, h⟩
      obtain ⟨v, vs, hv, hvs, rfl⟩ := List.forall₂_cons_left_iff.mp h
      exact ⟨⟨v, hv⟩, ⟨vs, hvs⟩⟩
    · rintro ⟨⟨v, hv⟩, ⟨vs, hvs⟩⟩
      exact ⟨v :: vs, .cons hv hvs⟩

/-- A body has a value exactly if no escape names a number of more than 31 bits. -/
theorem exists_cook {body : Text} :
    (∃ v, cook body = .ok v) ↔ ∀ n ∈ numbers body, n ≤ 0x7FFFFFFF := by
  rw [← exists_cookPart, ← exists_forall₂]
  constructor
  · rintro ⟨v, h⟩
    obtain ⟨vs, hvs, -⟩ := cook_eq_ok.mp h
    exact ⟨vs, hvs⟩
  · rintro ⟨vs, hvs⟩
    exact ⟨vs.flatten, cook_eq_ok.mpr ⟨vs, hvs, rfl⟩⟩

theorem cook_eq_error {body : Text} {e : Failure} (h : cook body = .error e) :
    e = .escapeTooLarge := by
  have hparts (ps : List (Part Escape)) (h : ps.mapM cookPart = .error e) :
      e = .escapeTooLarge := by
    induction ps with
    | nil => cases h
    | cons p ps ih =>
      rw [List.mapM_cons] at h
      cases hp : cookPart p with
      | error e' =>
        rw [hp] at h
        obtain rfl := Except.error.inj h
        exact cookPart_error hp
      | ok v =>
        rw [hp] at h
        cases hps : ps.mapM cookPart with
        | error e' =>
          rw [hps] at h
          obtain rfl := Except.error.inj h
          exact ih hps
        | ok vs =>
          rw [hps] at h
          cases h
  rw [cook] at h
  cases hps : (Text.parts matchEscape body).mapM cookPart with
  | error e' =>
    rw [hps] at h
    obtain rfl := Except.error.inj h
    exact hparts _ hps
  | ok vs =>
    rw [hps] at h
    cases h

private theorem isEncodable_flatten {ps : List (Part Escape)} {vs : List Text}
    (h : List.Forall₂ (fun p v => cookPart p = .ok v) ps vs) :
    Text.isEncodable vs.flatten = true ↔
      ∀ p ∈ ps, ∀ v, cookPart p = .ok v → v.isEncodable = true := by
  induction h with
  | nil => simp
  | @cons p v ps vs hv _ ih =>
    rw [List.flatten_cons, Text.isEncodable_append, Bool.and_eq_true, ih, List.forall_mem_cons]
    refine and_congr_left fun _ => ⟨fun he w hw => ?_, fun he => he v hv⟩
    obtain rfl := Except.ok.inj (hv.symm.trans hw)
    exact he

/-- The value of a body can be encoded exactly if no escape names a surrogate. -/
theorem isEncodable_cook {body v : Text} (hb : body.isEncodable = true) (h : cook body = .ok v) :
    v.isEncodable = true ↔ ∀ n ∈ numbers body, ¬ IsSurrogate n := by
  obtain ⟨vs, hvs, rfl⟩ := cook_eq_ok.mp h
  have hsmall := exists_cook.mp ⟨_, h⟩
  rw [isEncodable_flatten hvs, isEncodable_cookPart hb]
  exact ⟨fun h n hn => h n hn (hsmall n hn), fun h n hn _ => h n hn⟩

/-- No escape of a body names a number of more than 31 bits, nor a surrogate in a body that is
replaced by its value. -/
def Harmless (body : Text) (replaced : Prop) : Prop :=
  ∀ n ∈ numbers body, n ≤ 0x7FFFFFFF ∧ (replaced → ¬ IsSurrogate n)

theorem harmless_iff {body : Text} {replaced : Prop} (hb : body.isEncodable = true) :
    Harmless body replaced ↔
      ∃ v, cook body = .ok v ∧ (replaced → v.isEncodable = true) := by
  constructor
  · intro h
    obtain ⟨v, hv⟩ := exists_cook.mpr fun n hn => (h n hn).1
    exact ⟨v, hv, fun hr => (isEncodable_cook hb hv).mpr fun n hn => (h n hn).2 hr⟩
  · rintro ⟨v, hv, h⟩ n hn
    exact ⟨exists_cook.mp ⟨v, hv⟩ n hn, fun hr => (isEncodable_cook hb hv).mp (h hr) n hn⟩

end LocaleLift.Literal
