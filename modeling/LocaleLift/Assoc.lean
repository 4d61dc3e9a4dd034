/-! Tables as lists of pairs, in the order in which their keys were first mentioned. -/
namespace LocaleLift

/-- A table is a list of keys and values. -/
abbrev Assoc (α β : Type) := List (α × β)

namespace Assoc

variable {α β : Type} [DecidableEq α]

def get? (t : Assoc α β) (key : α) : Option β :=
  match t with
  | [] => none
  | (k, v) :: t => if k = key then some v else get? t key

/-- Give a key a value. A key that is there keeps its place, a new one comes last. -/
def insert (t : Assoc α β) (key : α) (value : β) : Assoc α β :=
  match t with
  | [] => [(key, value)]
  | (k, v) :: t => if k = key then (k, value) :: t else (k, v) :: insert t key value

/-- The table of a list of pairs. Of several values of a key the last one counts. -/
def ofPairs (pairs : List (α × β)) : Assoc α β :=
  pairs.foldl (fun t (k, v) => t.insert k v) []

/-- The value of a key that has just been given one is that one. -/
theorem get?_insert_self (t : Assoc α β) (key : α) (value : β) :
    get? (insert t key value) key = some value := by
  induction t with
  | nil => simp [insert, get?]
  | cons p t ih =>
    by_cases h : p.1 = key
    · simp [insert, get?, h]
    · simpa [insert, get?, h] using ih

/-- Giving one key a value leaves the others as they are. -/
theorem get?_insert_of_ne (t : Assoc α β) {key other : α} (value : β) (h : key ≠ other) :
    get? (insert t key value) other = get? t other := by
  induction t with
  | nil => simp [insert, get?, h]
  | cons p t ih =>
    by_cases hk : p.1 = key
    · simp [insert, get?, hk, h]
    · by_cases ho : p.1 = other
      · have : ¬ other = key := fun e => hk (ho.trans e)
        simp [insert, get?, ho, this]
      · simpa [insert, get?, hk, ho] using ih

theorem mem_of_get? {t : Assoc α β} {key : α} {value : β} (h : get? t key = some value) :
    (key, value) ∈ t := by
  induction t with
  | nil => cases h
  | cons p t ih =>
    rw [get?] at h
    split at h
    · rename_i hkey
      rw [← hkey, ← Option.some.inj h]
      exact List.mem_cons_self
    · exact List.mem_cons_of_mem p (ih h)

theorem get?_ne_none_iff {t : Assoc α β} {key : α} :
    get? t key ≠ none ↔ ∃ value, (key, value) ∈ t := by
  induction t with
  | nil => simp [get?]
  | cons p t ih =>
    by_cases h : p.1 = key
    · subst h
      simp only [get?, ite_true]
      exact ⟨fun _ => ⟨p.2, List.mem_cons_self⟩, fun _ => by simp⟩
    · have hne (value : β) : (key, value) ≠ p := fun he => h (congrArg Prod.fst he).symm
      simp only [get?, if_neg h, List.mem_cons, hne, false_or]
      exact ih

/-- Of a table whose keys are filtered, the keys that stay have the values they had. -/
theorem get?_filter (t : Assoc α β) (keep : α → Bool) (key : α) :
    get? (t.filter fun p => keep p.1) key = if keep key then get? t key else none := by
  induction t with
  | nil => simp [get?]
  | cons p t ih =>
    by_cases h : keep p.1
    · rw [List.filter_cons_of_pos (by exact h)]
      by_cases hk : p.1 = key
      · simp [get?, hk, hk ▸ h]
      · simp [get?, hk, ih]
    · rw [List.filter_cons_of_neg (by exact h), ih]
      by_cases hk : p.1 = key
      · simp [hk ▸ h]
      · simp [get?, hk]

/-- What stands under a key that has been renamed stood under the key that it comes from. -/
theorem exists_of_get?_map {t : Assoc α β} {rename : α → α} {key : α} {value : β}
    (h : get? (t.map fun p => (rename p.1, p.2)) key = some value) :
    ∃ k, rename k = key ∧ get? t k = some value := by
  induction t with
  | nil => cases h
  | cons p t ih =>
    rw [List.map_cons, get?] at h
    split at h
    · rename_i hp
      exact ⟨p.1, hp, by rw [get?, if_pos rfl, h]⟩
    · rename_i hp
      obtain ⟨k, hk, hvalue⟩ := ih h
      have hne : p.1 ≠ k := fun heq => hp (heq ▸ hk)
      exact ⟨k, hk, by rw [get?, if_neg hne, hvalue]⟩

/-- A key is renamed to one that the table does not have. -/
theorem get?_map_rename {t : Assoc α β} {old new : α} (hnew : ∀ p ∈ t, p.1 ≠ new) (key : α) :
    get? (t.map fun p => (if p.1 = old then new else p.1, p.2)) key =
      if key = new then get? t old else if key = old then none else get? t key := by
  induction t with
  | nil => simp [get?]
  | cons p t ih =>
    obtain ⟨hp, ht⟩ := List.forall_mem_cons.mp hnew
    rw [List.map_cons, get?, ih ht]
    by_cases hold : p.1 = old
    · subst hold
      by_cases hkey : key = new
      · simp [get?, hkey]
      · by_cases hother : key = p.1
        · simp [hother, hp, Ne.symm hp]
        · simp [get?, hkey, Ne.symm hkey, hother, Ne.symm hother]
    · by_cases hkey : p.1 = key
      · subst hkey
        simp [get?, hold, hp]
      · simp [get?, hold, hkey]

theorem insert_of_not_mem {t : Assoc α β} {key : α} (value : β) (h : key ∉ t.map (·.1)) :
    insert t key value = t ++ [(key, value)] := by
  induction t with
  | nil => rfl
  | cons p t ih =>
    rw [List.map_cons, List.mem_cons, not_or] at h
    rw [insert, if_neg (Ne.symm h.1), ih h.2, List.cons_append]

theorem map_fst_insert (t : Assoc α β) (key : α) (value : β) : (insert t key value).map (·.1) =
    if key ∈ t.map (·.1) then t.map (·.1) else t.map (·.1) ++ [key] := by
  induction t with
  | nil => rfl
  | cons p t ih =>
    by_cases h : p.1 = key
    · simp [insert, h]
    · have h' : ¬ key = p.1 := fun e => h e.symm
      simp only [insert, if_neg h, List.map_cons, ih, List.mem_cons, h', false_or]
      split <;> rfl

/-- The keys of a table of pairs are different. -/
theorem nodup_ofPairs (pairs : List (α × β)) : ((ofPairs pairs).map (·.1)).Nodup := by
  suffices hall : ∀ t : Assoc α β, (t.map (·.1)).Nodup →
      ((pairs.foldl (fun t p => insert t p.1 p.2) t).map (·.1)).Nodup from hall [] List.nodup_nil
  induction pairs with
  | nil => exact fun t h => h
  | cons p pairs ih =>
    intro t h
    refine ih _ ?_
    rw [map_fst_insert]
    split
    · exact h
    · rename_i hkey
      rw [List.nodup_append]
      refine ⟨h, by simp, fun a ha b hb => ?_⟩
      rw [List.mem_singleton.mp hb]
      exact fun e => hkey (e ▸ ha)

/-- Pairs with different keys are a table as they are. -/
theorem ofPairs_of_nodup {pairs : List (α × β)} (h : (pairs.map (·.1)).Nodup) :
    ofPairs pairs = pairs := by
  suffices hall : ∀ (done rest : List (α × β)), ((done ++ rest).map (·.1)).Nodup →
      rest.foldl (fun t p => insert t p.1 p.2) done = done ++ rest from hall [] pairs h
  intro done rest
  induction rest generalizing done with
  | nil => simp
  | cons p rest ih =>
    intro hnodup
    have hnew : p.1 ∉ done.map (·.1) := by
      rw [List.map_append, List.nodup_append] at hnodup
      exact fun hmem => hnodup.2.2 p.1 hmem p.1 (by simp) rfl
    rw [List.foldl_cons, insert_of_not_mem p.2 hnew, ih _ (by simpa using hnodup)]
    simp

end Assoc
end LocaleLift
