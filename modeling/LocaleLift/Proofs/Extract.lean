import LocaleLift.Extract
import Mathlib.Data.List.Forall2

/-! Steps that come to a result with a given property, alone and in a row. -/
namespace LocaleLift.Extract

variable {α β : Type}

theorem mem_of_forall₂ {R : α → β → Prop} {as : List α} {bs : List β}
    (h : List.Forall₂ R as bs) : (∀ a ∈ as, ∃ b ∈ bs, R a b) ∧ ∀ b ∈ bs, ∃ a ∈ as, R a b := by
  induction h with
  | nil => exact ⟨nofun, nofun⟩
  | cons hab _ ih =>
    exact ⟨List.forall_mem_cons.mpr ⟨⟨_, List.mem_cons_self .., hab⟩, fun a ha =>
        (ih.1 a ha).imp fun b hb => ⟨List.mem_cons_of_mem _ hb.1, hb.2⟩⟩,
      List.forall_mem_cons.mpr ⟨⟨_, List.mem_cons_self .., hab⟩, fun b hb =>
        (ih.2 b hb).imp fun a ha => ⟨List.mem_cons_of_mem _ ha.1, ha.2⟩⟩⟩

/-- A step comes to a result, which has a property. -/
def Meets (p : α → Prop) (x : Extract α) : Prop :=
  ∃ a, x.result = .ok a ∧ p a

@[simp] theorem meets_pure {p : α → Prop} {a : α} : Meets p (pure a) ↔ p a :=
  ⟨fun ⟨_, h, ha⟩ => Except.ok.inj h ▸ ha, fun h => ⟨a, rfl, h⟩⟩

theorem meets_bind {p : β → Prop} {x : Extract α} {f : α → Extract β} :
    Meets p (x >>= f) ↔ Meets (fun a => Meets p (f a)) x := by
  constructor
  · rintro ⟨b, h, hb⟩
    obtain ⟨a, ha, hf⟩ := bind_eq_ok.mp h
    exact ⟨a, ha, b, hf, hb⟩
  · rintro ⟨a, ha, b, hf, hb⟩
    exact ⟨b, bind_eq_ok.mpr ⟨a, ha, hf⟩, hb⟩

theorem Meets.mono {p q : α → Prop} {x : Extract α} (h : Meets p x) (hpq : ∀ a, p a → q a) :
    Meets q x := by
  obtain ⟨a, ha, hp⟩ := h
  exact ⟨a, ha, hpq a hp⟩

/-- Whatever a step comes to, if it does, has a property, and it is never refused because a script
is no sentence of its dialect. -/
structure Upholds (p : α → Prop) (x : Extract α) : Prop where
  ok : ∀ a, x.result = .ok a → p a
  accepts : ∀ d, x.result ≠ .error (.unparsable d)

theorem upholds_pure {p : α → Prop} {a : α} (h : p a) : Upholds p (pure a) :=
  ⟨fun _ hb => Except.ok.inj hb ▸ h, nofun⟩

theorem Upholds.bind {p : α → Prop} {q : β → Prop} {x : Extract α} {f : α → Extract β}
    (hx : Upholds p x) (hf : ∀ a, p a → Upholds q (f a)) : Upholds q (x >>= f) := by
  refine ⟨fun b h => ?_, fun d h => ?_⟩
  · obtain ⟨a, ha, hb⟩ := bind_eq_ok.mp h
    exact (hf a (hx.ok a ha)).ok b hb
  · rcases bind_eq_error.mp h with h | ⟨a, ha, h⟩
    · exact hx.accepts d h
    · exact (hf a (hx.ok a ha)).accepts d h

theorem Meets.upholds {p : α → Prop} {x : Extract α} (h : Meets p x) : Upholds p x := by
  obtain ⟨a, ha, hp⟩ := h
  refine ⟨fun b hb => ?_, fun d hd => ?_⟩
  · rw [ha] at hb
    cases hb
    exact hp
  · rw [ha] at hd
    cases hd

/-- A step comes to a result with a property, or is refused because a script is no sentence of its
dialect. Nothing else can go wrong. -/
def Settles (p : α → Prop) (x : Extract α) : Prop :=
  Meets p x ∨ ∃ d, x.result = .error (.unparsable d)

theorem Upholds.settles_iff {p q : α → Prop} {x : Extract α} (h : Upholds p x) :
    Settles q x ↔ Meets q x :=
  or_iff_left fun ⟨d, hd⟩ => h.accepts d hd

theorem settles_bind {p : β → Prop} {x : Extract α} {f : α → Extract β} :
    Settles p (x >>= f) ↔ Settles (fun a => Settles p (f a)) x := by
  simp only [Settles, meets_bind, bind_eq_error]
  constructor
  · rintro (h | ⟨d, h | ⟨a, ha, h⟩⟩)
    · exact .inl (h.mono fun a ha => .inl ha)
    · exact .inr ⟨d, h⟩
    · exact .inl ⟨a, ha, .inr ⟨d, h⟩⟩
  · rintro (⟨a, ha, h | ⟨d, h⟩⟩ | ⟨d, h⟩)
    · exact .inl ⟨a, ha, h⟩
    · exact .inr ⟨d, .inr ⟨a, ha, h⟩⟩
    · exact .inr ⟨d, .inl h⟩

theorem settles_of_ok {p : α → Prop} {x : Extract α} {a : α} (h : x.result = .ok a) :
    Settles p x ↔ p a := by
  simp [Settles, Meets, h]

@[simp] theorem settles_pure {p : α → Prop} {a : α} : Settles p (pure a) ↔ p a :=
  settles_of_ok rfl

theorem settles_congr {p q : α → Prop} {x : Extract α}
    (h : ∀ a, x.result = .ok a → (p a ↔ q a)) : Settles p x ↔ Settles q x :=
  or_congr_left (exists_congr fun a => and_congr_right (h a))

/-- Take a step for each of several things, and join the lists they come to. -/
def gather (f : α → Extract (List β)) : List α → Extract (List β)
  | [] => pure []
  | a :: as => do
    let bs ← f a
    let cs ← gather f as
    return bs ++ cs

theorem gather_append (f : α → Extract (List β)) (as bs : List α) :
    gather f (as ++ bs) = do
      let xs ← gather f as
      let ys ← gather f bs
      return xs ++ ys := by
  induction as with
  | nil => simp [gather]
  | cons a as ih =>
    simp only [List.cons_append, gather, ih, bind_assoc, pure_bind, List.append_assoc]

theorem gather_singleton (f : α → Extract (List β)) (a : α) : gather f [a] = f a := by
  simp [gather]

/-- All that is gathered has a property exactly if what each step comes to has it. -/
theorem meets_gather {p : β → Prop} {f : α → Extract (List β)} {as : List α} :
    Meets (fun bs => ∀ b ∈ bs, p b) (gather f as) ↔
      ∀ a ∈ as, Meets (fun bs => ∀ b ∈ bs, p b) (f a) := by
  induction as with
  | nil => simp [gather]
  | cons a as ih =>
    rw [gather, meets_bind, List.forall_mem_cons, ← ih]
    simp only [meets_bind, meets_pure, List.forall_mem_append]
    constructor
    · rintro ⟨bs, hbs, cs, hcs, hb, hc⟩
      exact ⟨⟨bs, hbs, hb⟩, ⟨cs, hcs, hc⟩⟩
    · rintro ⟨⟨bs, hbs, hb⟩, ⟨cs, hcs, hc⟩⟩
      exact ⟨bs, hbs, cs, hcs, hb, hc⟩

theorem gather_eq_error {f : α → Extract (List β)} {as : List α} {e : Failure}
    (h : (gather f as).result = .error e) : ∃ a ∈ as, (f a).result = .error e := by
  induction as with
  | nil => cases h
  | cons a as ih =>
    rcases bind_eq_error.mp h with h | ⟨bs, -, h⟩
    · exact ⟨a, List.mem_cons_self .., h⟩
    · rcases bind_eq_error.mp h with h | ⟨cs, -, h⟩
      · obtain ⟨b, hb, h⟩ := ih h
        exact ⟨b, List.mem_cons_of_mem a hb, h⟩
      · cases h

/-- A step comes to a result and finds nothing on the way. -/
def Quiet (a : α) (x : Extract α) : Prop :=
  x.texts = [] ∧ x.result = .ok a

theorem quiet_bind {x : Extract α} {f : α → Extract β} {b : β} :
    Quiet b (x >>= f) ↔ ∃ a, Quiet a x ∧ Quiet b (f a) := by
  cases h : x.result with
  | error e =>
    have hbind := bind_eq_error (x := x) (f := f).mpr (.inl h)
    simp [Quiet, h, hbind]
  | ok a => simp [Quiet, h, texts_bind h, bind_eq_ok, and_assoc]

/-- Exactly if a condition holds, a step comes to a given result and finds nothing. Otherwise it
finds something or fails. -/
def RestsAt (a : α) (c : Prop) (x : Extract α) : Prop :=
  ∀ b, Quiet b x ↔ b = a ∧ c

theorem Quiet.restsAt {a : α} {x : Extract α} (h : Quiet a x) : RestsAt a True x := by
  intro b
  simp [Quiet, h.1, h.2, eq_comm]

theorem restsAt_pure (a : α) : RestsAt a True (pure a) :=
  Quiet.restsAt ⟨rfl, rfl⟩

theorem restsAt_found (ts : List Text) : RestsAt () (ts = []) (found ts) :=
  fun _ => ⟨fun h => ⟨rfl, h.1⟩, fun h => ⟨h.2, rfl⟩⟩

theorem restsAt_fail {a : α} {c : Prop} (hc : ¬ c) (e : Failure) : RestsAt a c (fail e) :=
  fun _ => iff_of_false (fun h => by cases h.2) fun h => hc h.2

theorem RestsAt.congr {a : α} {c d : Prop} {x : Extract α} (h : RestsAt a c x) (hcd : c ↔ d) :
    RestsAt a d x :=
  fun b => (h b).trans (and_congr_right fun _ => hcd)

theorem RestsAt.bind {a : α} {b : β} {c d : Prop} {x : Extract α} {f : α → Extract β}
    (hx : RestsAt a c x) (hf : c → RestsAt b d (f a)) : RestsAt b (c ∧ d) (x >>= f) := by
  intro b'
  rw [quiet_bind]
  constructor
  · rintro ⟨a', ha, hb⟩
    obtain ⟨rfl, hc⟩ := (hx a').mp ha
    obtain ⟨rfl, hd⟩ := (hf hc b').mp hb
    exact ⟨rfl, hc, hd⟩
  · rintro ⟨rfl, hc, hd⟩
    exact ⟨a, (hx a).mpr ⟨rfl, hc⟩, (hf hc b').mpr ⟨rfl, hd⟩⟩

theorem RestsAt.map {a : α} {b : β} {c : Prop} {x : Extract α} (hx : RestsAt a c x) {g : α → β}
    (hg : g a = b) : RestsAt b c (do return g (← x)) :=
  (hx.bind fun _ => hg ▸ restsAt_pure (g a)).congr (and_iff_left trivial)

theorem RestsAt.join {s t : Text} {c d : Prop} {x y : Extract Text} (hx : RestsAt s c x)
    (hy : RestsAt t d y) : RestsAt (s ++ t) (c ∧ d) (do return (← x) ++ (← y)) :=
  hx.bind fun _ => hy.map rfl

/-- Gathering comes to nothing exactly if every step does. -/
theorem restsAt_gather {p : α → Prop} {f : α → Extract (List β)} {as : List α}
    (h : ∀ a ∈ as, RestsAt [] (p a) (f a)) : RestsAt [] (∀ a ∈ as, p a) (gather f as) := by
  induction as with
  | nil => exact (restsAt_pure []).congr (iff_of_true trivial (List.forall_mem_nil p))
  | cons a as ih =>
    obtain ⟨ha, has⟩ := List.forall_mem_cons.mp h
    refine (ha.bind fun _ => (ih has).map (List.nil_append [])).congr ?_
    rw [List.forall_mem_cons]

/-- A step comes to a result and finds texts on the way. -/
def Finds (ts : List Text) (a : α) (x : Extract α) : Prop :=
  x.texts = ts ∧ x.result = .ok a

theorem exists_finds {a : α} {x : Extract α} : (∃ ts, Finds ts a x) ↔ x.result = .ok a :=
  ⟨fun ⟨_, h⟩ => h.2, fun h => ⟨_, rfl, h⟩⟩

theorem finds_pure {ts : List Text} {a b : α} : Finds ts b (pure a) ↔ ts = [] ∧ b = a := by
  constructor
  · rintro ⟨rfl, h⟩
    exact ⟨rfl, (Except.ok.inj h).symm⟩
  · rintro ⟨rfl, rfl⟩
    exact ⟨rfl, rfl⟩

theorem finds_bind {ts : List Text} {x : Extract α} {f : α → Extract β} {b : β} :
    Finds ts b (x >>= f) ↔
      ∃ us a vs, Finds us a x ∧ Finds vs b (f a) ∧ ts = us ++ vs := by
  constructor
  · rintro ⟨rfl, h⟩
    obtain ⟨a, ha, hb⟩ := bind_eq_ok.mp h
    exact ⟨_, a, _, ⟨rfl, ha⟩, ⟨rfl, hb⟩, texts_bind ha⟩
  · rintro ⟨us, a, vs, ⟨rfl, ha⟩, ⟨rfl, hb⟩, rfl⟩
    exact ⟨texts_bind ha, bind_eq_ok.mpr ⟨a, ha, hb⟩⟩

/-- A step that finds nothing can be left out. -/
theorem Quiet.finds_bind {ts : List Text} {x : Extract α} {f : α → Extract β} {a : α} {b : β}
    (h : Quiet a x) : Finds ts b (x >>= f) ↔ Finds ts b (f a) := by
  rw [Extract.finds_bind]
  constructor
  · rintro ⟨us, a', vs, ⟨rfl, ha⟩, hb, rfl⟩
    obtain rfl := Except.ok.inj (h.2.symm.trans ha)
    rwa [h.1]
  · exact fun hb => ⟨[], a, ts, h, hb, rfl⟩

/-- What is done with a result finds nothing more. -/
theorem finds_map {ts : List Text} {x : Extract α} {g : α → β} {b : β} :
    Finds ts b (do return g (← x)) ↔ ∃ a, Finds ts a x ∧ b = g a := by
  rw [Extract.finds_bind]
  constructor
  · rintro ⟨us, a, vs, ha, hb, rfl⟩
    obtain ⟨rfl, rfl⟩ := finds_pure.mp hb
    exact ⟨a, by rwa [List.append_nil], rfl⟩
  · rintro ⟨a, ha, rfl⟩
    exact ⟨ts, a, [], ha, finds_pure.mpr ⟨rfl, rfl⟩, (List.append_nil ts).symm⟩

/-- What one of several steps finds is found when they are gathered. -/
theorem Finds.of_gather {ts : List Text} {bs : List β} {f : α → Extract (List β)} {as : List α}
    (h : Finds ts bs (gather f as)) {a : α} (ha : a ∈ as) :
    ∃ us cs, us ⊆ ts ∧ Finds us cs (f a) := by
  induction as generalizing ts bs with
  | nil => cases ha
  | cons a' as ih =>
    obtain ⟨us, cs, vs, hfirst, hrest, rfl⟩ := finds_bind.mp h
    rcases List.mem_cons.mp ha with rfl | ha
    · exact ⟨us, cs, List.subset_append_left us vs, hfirst⟩
    · obtain ⟨ds, hds, -⟩ := finds_map.mp hrest
      obtain ⟨ws, es, hws, hfinds⟩ := ih hds ha
      exact ⟨ws, es, List.subset_append_of_subset_right us hws, hfinds⟩

/-- Exactly if a condition holds, a step comes to a given result and finds given texts. Otherwise it
fails. -/
def Yields (ts : List Text) (a : α) (c : Prop) (x : Extract α) : Prop :=
  ∀ us b, Finds us b x ↔ c ∧ us = ts ∧ b = a

theorem Yields.congr {ts : List Text} {a : α} {c d : Prop} {x : Extract α} (h : Yields ts a c x)
    (hcd : c ↔ d) : Yields ts a d x :=
  fun us b => (h us b).trans (and_congr_left fun _ => hcd)

theorem yields_pure (a : α) : Yields [] a True (pure a) := by
  intro us b
  rw [finds_pure, true_and]

theorem yields_found (ts : List Text) : Yields ts () True (found ts) :=
  fun _ _ => ⟨fun h => ⟨trivial, h.1.symm, rfl⟩, fun h => ⟨h.2.1.symm, rfl⟩⟩

theorem yields_fail {ts : List Text} {a : α} {c : Prop} (hc : ¬ c) (e : Failure) :
    Yields ts a c (fail e) :=
  fun _ _ => iff_of_false (fun h => by cases h.2) fun h => hc h.1

theorem Yields.bind {ts us : List Text} {a : α} {b : β} {c d : Prop} {x : Extract α}
    {f : α → Extract β} (hx : Yields ts a c x) (hf : c → Yields us b d (f a)) :
    Yields (ts ++ us) b (c ∧ d) (x >>= f) := by
  intro vs b'
  rw [finds_bind]
  constructor
  · rintro ⟨ts', a', us', ha, hb, rfl⟩
    obtain ⟨hc, rfl, rfl⟩ := (hx ts' a').mp ha
    obtain ⟨hd, rfl, rfl⟩ := (hf hc us' b').mp hb
    exact ⟨⟨hc, hd⟩, rfl, rfl⟩
  · rintro ⟨⟨hc, hd⟩, rfl, rfl⟩
    exact ⟨ts, a, us, (hx ts a).mpr ⟨hc, rfl, rfl⟩, (hf hc us b').mpr ⟨hd, rfl, rfl⟩, rfl⟩

theorem Yields.map {ts : List Text} {a : α} {b : β} {c : Prop} {x : Extract α} {g : α → β}
    (hx : Yields ts a c x) (hg : g a = b) : Yields ts b c (do return g (← x)) := by
  rw [← List.append_nil ts]
  exact (hx.bind fun _ => hg ▸ yields_pure (g a)).congr (and_iff_left trivial)

/-- Gathering yields what the steps yield, one after the other. -/
theorem yields_gather {ts : α → List Text} {bs : α → List β} {p : α → Prop}
    {f : α → Extract (List β)} {as : List α} (h : ∀ a ∈ as, Yields (ts a) (bs a) (p a) (f a)) :
    Yields (as.flatMap ts) (as.flatMap bs) (∀ a ∈ as, p a) (gather f as) := by
  induction as with
  | nil => exact (yields_pure []).congr (iff_of_true trivial (List.forall_mem_nil p))
  | cons a as ih =>
    obtain ⟨ha, has⟩ := List.forall_mem_cons.mp h
    rw [List.forall_mem_cons, List.flatMap_cons, List.flatMap_cons]
    exact ha.bind fun _ => (ih has).map rfl

/-- Two steps find the same texts, and both come to results or fail alike. -/
structure Agree {γ : Type} (x : Extract α) (y : Extract γ) : Prop where
  texts : x.texts = y.texts
  result : (∃ a b, x.result = .ok a ∧ y.result = .ok b) ∨
    ∃ e, x.result = .error e ∧ y.result = .error e

section Agree

variable {γ δ : Type} {x : Extract α} {y : Extract γ}

theorem Agree.refl (x : Extract α) : Agree x x := by
  refine ⟨rfl, ?_⟩
  cases h : x.result with
  | ok a => exact .inl ⟨a, a, rfl, rfl⟩
  | error e => exact .inr ⟨e, rfl, rfl⟩

theorem Quiet.agree {a : α} {b : γ} (hx : Quiet a x) (hy : Quiet b y) : Agree x y :=
  ⟨hx.1.trans hy.1.symm, .inl ⟨a, b, hx.2, hy.2⟩⟩

theorem Agree.bind {f : α → Extract β} {g : γ → Extract δ} (h : Agree x y)
    (hfg : ∀ a b, Agree (f a) (g b)) : Agree (x >>= f) (y >>= g) := by
  rcases h.result with ⟨a, b, ha, hb⟩ | ⟨e, hx, hy⟩
  · refine ⟨?_, ?_⟩
    · rw [texts_bind ha, texts_bind hb, h.texts, (hfg a b).texts]
    · rcases (hfg a b).result with ⟨c, d, hc, hd⟩ | ⟨e, hc, hd⟩
      · exact .inl ⟨c, d, bind_eq_ok.mpr ⟨a, ha, hc⟩, bind_eq_ok.mpr ⟨b, hb, hd⟩⟩
      · exact .inr ⟨e, bind_eq_error.mpr (.inr ⟨a, ha, hc⟩), bind_eq_error.mpr (.inr ⟨b, hb, hd⟩)⟩
  · refine ⟨?_, .inr ⟨e, bind_eq_error.mpr (.inl hx), bind_eq_error.mpr (.inl hy)⟩⟩
    change (andThen x f).texts = (andThen y g).texts
    rw [andThen, andThen, hx, hy]
    exact h.texts

theorem Agree.map (h : Agree x y) (f : α → β) (g : γ → δ) :
    Agree (do return f (← x)) (do return g (← y)) :=
  h.bind fun a b => Quiet.agree (a := f a) (b := g b) ⟨rfl, rfl⟩ ⟨rfl, rfl⟩

end Agree

/-- All texts that a step finds have a property, whether it then comes to a result or fails. -/
def FindsOnly (p : Text → Prop) (x : Extract α) : Prop :=
  ∀ t ∈ x.texts, p t

section FindsOnly

variable {p : Text → Prop}

theorem findsOnly_pure (a : α) : FindsOnly p (pure a) :=
  List.forall_mem_nil p

theorem findsOnly_fail (e : Failure) : FindsOnly p (fail e : Extract α) :=
  List.forall_mem_nil p

theorem findsOnly_lift (x : Except Failure α) : FindsOnly p (lift x) :=
  List.forall_mem_nil p

theorem findsOnly_warn (w : Warning) : FindsOnly p (warn w) :=
  List.forall_mem_nil p

theorem findsOnly_text {t : Text} (h : p t) : FindsOnly p (text t) :=
  List.forall_mem_singleton.mpr h

theorem findsOnly_found {ts : List Text} (h : ∀ t ∈ ts, p t) : FindsOnly p (found ts) :=
  h

theorem FindsOnly.bind {x : Extract α} {f : α → Extract β} (hx : FindsOnly p x)
    (hf : ∀ a, x.result = .ok a → FindsOnly p (f a)) : FindsOnly p (x >>= f) := by
  change FindsOnly p (andThen x f)
  rw [andThen]
  split
  · exact hx
  · rename_i a ha
    exact List.forall_mem_append.mpr ⟨hx, hf a ha⟩

theorem FindsOnly.map {x : Extract α} (hx : FindsOnly p x) (g : α → β) :
    FindsOnly p (do return g (← x)) :=
  hx.bind fun a _ => findsOnly_pure (g a)

theorem FindsOnly.join {x y : Extract Text} (hx : FindsOnly p x) (hy : FindsOnly p y) :
    FindsOnly p (do return (← x) ++ (← y)) :=
  hx.bind fun s _ => hy.map (s ++ ·)

theorem findsOnly_gather {f : α → Extract (List β)} {as : List α}
    (h : ∀ a ∈ as, FindsOnly p (f a)) : FindsOnly p (gather f as) := by
  induction as with
  | nil => exact findsOnly_pure []
  | cons a as ih =>
    obtain ⟨ha, has⟩ := List.forall_mem_cons.mp h
    exact ha.bind fun bs _ => (ih has).map (bs ++ ·)

end FindsOnly

end LocaleLift.Extract
