import LocaleLift.Files.Write

/-! What holds after a step that changes a state and may break off. -/
namespace LocaleLift

variable {σ ε α β : Type}

/-- From a state, a step comes to a result and a state that satisfy `q`, or breaks off with an error
and a state that satisfy `r`. -/
def After (m : ExceptT ε (StateM σ) α) (s : σ) (q : α → σ → Prop) (r : ε → σ → Prop) : Prop :=
  match (m.run.run s : Except ε α × σ) with
  | (.ok a, s) => q a s
  | (.error e, s) => r e s

section Rules

variable {m : ExceptT ε (StateM σ) α} {s : σ} {q : α → σ → Prop} {r : ε → σ → Prop}

theorem After.imp {q' : α → σ → Prop} {r' : ε → σ → Prop} (h : After m s q r)
    (hq : ∀ a s, q a s → q' a s) (hr : ∀ e s, r e s → r' e s) : After m s q' r' := by
  unfold After at h ⊢
  split
  · rename_i hm
    rw [hm] at h
    exact hq _ _ h
  · rename_i hm
    rw [hm] at h
    exact hr _ _ h

theorem After.and {q' : α → σ → Prop} {r' : ε → σ → Prop} (h : After m s q r)
    (h' : After m s q' r') :
    After m s (fun a s => q a s ∧ q' a s) (fun e s => r e s ∧ r' e s) := by
  unfold After at h h' ⊢
  split
  · rename_i hm
    rw [hm] at h h'
    exact ⟨h, h'⟩
  · rename_i hm
    rw [hm] at h h'
    exact ⟨h, h'⟩

theorem after_self : After m s (fun a s' => (m.run.run s : Except ε α × σ) = (.ok a, s'))
    fun e s' => (m.run.run s : Except ε α × σ) = (.error e, s') := by
  unfold After
  split <;> rename_i hm <;> exact hm

/-- What holds after a step that came to a result. -/
theorem After.of_ok {a : α} {s' : σ} (h : After m s q r)
    (hm : (m.run.run s : Except ε α × σ) = (.ok a, s')) : q a s' := by
  rw [After, hm] at h
  exact h

/-- What holds after a step that broke off. -/
theorem After.of_error {e : ε} {s' : σ} (h : After m s q r)
    (hm : (m.run.run s : Except ε α × σ) = (.error e, s')) : r e s' := by
  rw [After, hm] at h
  exact h

/-- What holds of the state after a step in any case. -/
theorem After.state {p : σ → Prop} (h : After m s (fun _ => p) (fun _ => p)) :
    p (m.run.run s : Except ε α × σ).2 := by
  unfold After at h
  split at h <;> rename_i hm <;> rwa [hm]

/-- What becomes of a step that comes to a certain result. -/
theorem After.result {p : σ → Prop} {a : α}
    (h : After m s (fun b s' => b = a ∧ p s') fun _ _ => False) :
    (m.run.run s : Except ε α × σ).1 = .ok a ∧ p (m.run.run s : Except ε α × σ).2 := by
  unfold After at h
  split at h <;> rename_i hm
  · rw [hm]
    exact ⟨congrArg _ h.1, h.2⟩
  · exact h.elim

@[simp] theorem after_pure {a : α} : After (pure a) s q r ↔ q a s := Iff.rfl

@[simp] theorem after_throw {e : ε} : After (throw e) s q r ↔ r e s := Iff.rfl

@[simp] theorem after_get {q : σ → σ → Prop} : After (get : ExceptT ε (StateM σ) σ) s q r ↔ q s s :=
  Iff.rfl

@[simp] theorem after_modify {f : σ → σ} {q : PUnit → σ → Prop} :
    After (modify f : ExceptT ε (StateM σ) PUnit) s q r ↔ q ⟨⟩ (f s) := Iff.rfl

@[simp] theorem after_lift {x : Except ε α} :
    After (liftM x : ExceptT ε (StateM σ) α) s q r ↔
      (∀ a, x = .ok a → q a s) ∧ ∀ e, x = .error e → r e s := by
  cases x with
  | error e => exact ⟨fun h => ⟨fun _ h' => (nomatch h'), fun _ h' => by cases h'; exact h⟩,
      fun h => h.2 e rfl⟩
  | ok a => exact ⟨fun h => ⟨fun _ h' => by cases h'; exact h, fun _ h' => (nomatch h')⟩,
      fun h => h.1 a rfl⟩

@[simp] theorem after_bind {f : α → ExceptT ε (StateM σ) β} {q : β → σ → Prop} :
    After (m >>= f) s q r ↔ After m s (fun a s => After (f a) s q r) r := by
  have h : ((m >>= f).run.run s : Except ε β × σ) =
      match (m.run.run s : Except ε α × σ) with
      | (.ok a, s) => (f a).run.run s
      | (.error e, s) => (.error e, s) := by
    rw [ExceptT.run_bind, StateT.run_bind]
    cases (m.run.run s : Except ε α × σ) with
    | mk x s' => cases x <;> rfl
  unfold After
  rw [h]
  cases (m.run.run s : Except ε α × σ) with
  | mk x s' => cases x <;> rfl

@[simp] theorem after_map {f : α → β} {q : β → σ → Prop} :
    After (f <$> m) s q r ↔ After m s (fun a s => q (f a) s) r := by
  rw [← bind_pure_comp, after_bind]
  rfl

@[simp] theorem after_tryCatch {h : ε → ExceptT ε (StateM σ) α} :
    After (tryCatch m h) s q r ↔ After m s q fun e s => After (h e) s q r := by
  have hrun : ((tryCatch m h).run.run s : Except ε α × σ) =
      match (m.run.run s : Except ε α × σ) with
      | (.ok a, s) => (.ok a, s)
      | (.error e, s) => (h e).run.run s := by
    rw [ExceptT.run_tryCatch, StateT.run_bind]
    cases (m.run.run s : Except ε α × σ) with
    | mk x s' => cases x <;> rfl
  unfold After
  rw [hrun]
  cases (m.run.run s : Except ε α × σ) with
  | mk x s' => cases x <;> rfl

end Rules

theorem after_forM_cons {f : α → ExceptT ε (StateM σ) PUnit} {a : α} {as : List α} {s : σ}
    {q : PUnit → σ → Prop} {r : ε → σ → Prop} :
    After ((a :: as).forM f) s q r ↔ After (f a) s (fun _ s => After (as.forM f) s q r) r :=
  after_bind

/-- Steps for the members of a list, one after the other, where `p` tells what holds once those of a
first part are done. -/
theorem after_forM {f : α → ExceptT ε (StateM σ) PUnit} {r : ε → σ → Prop} {as : List α}
    {p : List α → σ → Prop} {s : σ} (hs : p [] s)
    (hf : ∀ before a after, as = before ++ a :: after → ∀ s, p before s →
      After (f a) s (fun _ => p (before ++ [a])) r) :
    After (as.forM f) s (fun _ => p as) r := by
  suffices h : ∀ before after s, as = before ++ after → p before s →
      After (after.forM f) s (fun _ => p as) r from h [] as s rfl hs
  intro before after
  induction after generalizing before with
  | nil =>
    intro s has hp
    rw [List.append_nil] at has
    rw [has]
    exact hp
  | cons a after ih =>
    intro s has hp
    rw [after_forM_cons]
    refine (hf before a after has s hp).imp (fun _ s hp => ?_) fun _ _ he => he
    exact ih (before ++ [a]) s (by simp [has]) hp

/-- The same for steps whose results are gathered, where `p` also tells what has been gathered. -/
theorem after_mapM_results {f : α → ExceptT ε (StateM σ) β} {r : ε → σ → Prop} {as : List α}
    {p : List α → List β → σ → Prop} {s : σ} (hs : p [] [] s)
    (hf : ∀ before a after, as = before ++ a :: after → ∀ bs s, p before bs s →
      After (f a) s (fun b => p (before ++ [a]) (bs ++ [b])) r) :
    After (as.mapM f) s (p as) r := by
  suffices h : ∀ before after bs s, as = before ++ after → p before bs s →
      After (after.mapM f) s (fun cs => p as (bs ++ cs)) r from h [] as [] s rfl hs
  intro before after
  induction after generalizing before with
  | nil =>
    intro bs s has hp
    rw [List.append_nil] at has
    rw [has, List.mapM_nil, after_pure, List.append_nil]
    exact hp
  | cons a after ih =>
    intro bs s has hp
    rw [List.mapM_cons, after_bind]
    refine (hf before a after has bs s hp).imp (fun b s hp => ?_) fun _ _ he => he
    rw [after_bind]
    refine (ih (before ++ [a]) (bs ++ [b]) s (by simp [has]) hp).imp (fun cs s hp => ?_) fun _ _ he => he
    rwa [List.append_assoc] at hp

theorem after_mapM {f : α → ExceptT ε (StateM σ) β} {r : ε → σ → Prop} {as : List α}
    {p : List α → σ → Prop} {s : σ} (hs : p [] s)
    (hf : ∀ before a after, as = before ++ a :: after → ∀ s, p before s →
      After (f a) s (fun _ => p (before ++ [a])) r) :
    After (as.mapM f) s (fun _ => p as) r :=
  after_mapM_results (p := fun before _ => p before) hs fun before a after has _ s hp =>
    hf before a after has s hp

/-- A step keeps a property of states, whether or not it breaks off. -/
def Keeps (inv : σ → Prop) (m : ExceptT ε (StateM σ) α) : Prop :=
  ∀ s, inv s → After m s (fun _ => inv) fun _ => inv

section Keeps

variable {inv : σ → Prop} {m : ExceptT ε (StateM σ) α}

theorem keeps_pure (a : α) : Keeps inv (pure a : ExceptT ε (StateM σ) α) :=
  fun _ h => h

theorem keeps_throw (e : ε) : Keeps inv (throw e : ExceptT ε (StateM σ) α) :=
  fun _ h => h

theorem keeps_throw_bind {f : α → ExceptT ε (StateM σ) β} (e : ε) : Keeps inv (throw e >>= f) :=
  fun _ h => h

theorem keeps_get : Keeps inv (get : ExceptT ε (StateM σ) σ) :=
  fun _ h => h

theorem keeps_lift (x : Except ε α) : Keeps inv (liftM x : ExceptT ε (StateM σ) α) :=
  fun _ h => after_lift.mpr ⟨fun _ _ => h, fun _ _ => h⟩

theorem keeps_modify {f : σ → σ} (h : ∀ s, inv s → inv (f s)) :
    Keeps inv (modify f : ExceptT ε (StateM σ) PUnit) :=
  h

theorem Keeps.bind {f : α → ExceptT ε (StateM σ) β} (h : Keeps inv m) (hf : ∀ a, Keeps inv (f a)) :
    Keeps inv (m >>= f) :=
  fun s hs => after_bind.mpr ((h s hs).imp (fun a s' hs' => hf a s' hs') fun _ _ hs' => hs')

theorem Keeps.map (h : Keeps inv m) (f : α → β) : Keeps inv (f <$> m) :=
  fun s hs => after_map.mpr (h s hs)

theorem Keeps.tryCatch {handler : ε → ExceptT ε (StateM σ) α} (h : Keeps inv m)
    (hh : ∀ e, Keeps inv (handler e)) : Keeps inv (tryCatch m handler) :=
  fun s hs => after_tryCatch.mpr ((h s hs).imp (fun _ _ hs' => hs') fun e s' hs' => hh e s' hs')

theorem keeps_forM {f : α → ExceptT ε (StateM σ) PUnit} {as : List α}
    (h : ∀ a ∈ as, Keeps inv (f a)) : Keeps inv (as.forM f) :=
  fun _ hs => after_forM (p := fun _ => inv) hs fun before a after has s' hs' =>
    h a (by simp [has]) s' hs'

/-- What holds after a step while a condition does, if no step takes back that it fails. -/
theorem Keeps.after_while {cond : σ → Prop} {s : σ} {q : α → σ → Prop} {r : ε → σ → Prop}
    (hm : Keeps (fun s => ¬ cond s) m)
    (h : cond s → After m s (fun a s' => cond s' → q a s') fun e s' => cond s' → r e s') :
    After m s (fun a s' => cond s' → q a s') fun e s' => cond s' → r e s' := by
  by_cases hs : cond s
  · exact h hs
  · exact (hm s hs).imp (fun _ _ hn hc => absurd hc hn) fun _ _ hn hc => absurd hc hn

end Keeps

end LocaleLift
