import LocaleLift.Failure
import LocaleLift.Warning

/-! Steps of localizing a source, which gather texts and warnings on their way and may fail. -/
namespace LocaleLift

/-- A step of localizing a source: the texts it found and the warnings it gave, each in order, and
its result. A step that fails keeps what it gathered before. -/
structure Extract (α : Type) where
  texts : List Text
  warnings : List Warning
  result : Except Failure α

namespace Extract

def ok {α : Type} (a : α) : Extract α :=
  ⟨[], [], .ok a⟩

def andThen {α β : Type} (x : Extract α) (f : α → Extract β) : Extract β :=
  match x.result with
  | .error e => ⟨x.texts, x.warnings, .error e⟩
  | .ok a =>
    let y := f a
    ⟨x.texts ++ y.texts, x.warnings ++ y.warnings, y.result⟩

instance : Monad Extract where
  pure := ok
  bind := andThen

section Laws

variable {α β γ : Type} {x : Extract α} {f : α → Extract β}

private theorem bind_of_ok {a : α} (h : x.result = .ok a) :
    x >>= f = ⟨x.texts ++ (f a).texts, x.warnings ++ (f a).warnings, (f a).result⟩ := by
  change andThen x f = _
  rw [andThen, h]

private theorem bind_of_error {e : Failure} (h : x.result = .error e) :
    x >>= f = ⟨x.texts, x.warnings, .error e⟩ := by
  change andThen x f = _
  rw [andThen, h]

private theorem bind_pure_eq (x : Extract α) : x >>= pure = x := by
  obtain ⟨texts, warnings, result⟩ := x
  cases result with
  | error e => rfl
  | ok a =>
    rw [bind_of_ok (a := a) rfl]
    change Extract.mk (texts ++ []) (warnings ++ []) _ = _
    rw [List.append_nil, List.append_nil]
    rfl

private theorem bind_assoc_eq (x : Extract α) (f : α → Extract β) (g : β → Extract γ) :
    x >>= f >>= g = x >>= fun a => f a >>= g := by
  cases hx : x.result with
  | error e => rw [bind_of_error hx, bind_of_error hx, bind_of_error rfl]
  | ok a =>
    rw [bind_of_ok hx, bind_of_ok hx]
    cases hf : (f a).result with
    | error e => rw [bind_of_error rfl, bind_of_error hf]
    | ok b =>
      rw [bind_of_ok (a := b) rfl, bind_of_ok hf]
      simp only [List.append_assoc]

/-- How steps are grouped does not matter, and those that gather nothing can be left out. -/
instance : LawfulMonad Extract :=
  .mk' Extract bind_pure_eq (fun _ _ => rfl) bind_assoc_eq

/-- Steps come to a result together exactly if each does. -/
theorem bind_eq_ok {b : β} :
    (x >>= f).result = .ok b ↔ ∃ a, x.result = .ok a ∧ (f a).result = .ok b := by
  cases h : x.result with
  | error e => simp [bind_of_error h]
  | ok a => simp [bind_of_ok h]

/-- Steps fail with the first failure among them. -/
theorem bind_eq_error {e : Failure} :
    (x >>= f).result = .error e ↔
      x.result = .error e ∨ ∃ a, x.result = .ok a ∧ (f a).result = .error e := by
  cases h : x.result with
  | error e => simp [bind_of_error h]
  | ok a => simp [bind_of_ok h]

/-- Steps in a row find what each of them finds. -/
theorem texts_bind {a : α} (h : x.result = .ok a) :
    (x >>= f).texts = x.texts ++ (f a).texts := by
  rw [bind_of_ok h]

@[simp] theorem pure_result (a : α) : (pure a : Extract α).result = .ok a := rfl

end Laws

def fail {α : Type} (e : Failure) : Extract α :=
  ⟨[], [], .error e⟩

def lift {α : Type} (x : Except Failure α) : Extract α :=
  ⟨[], [], x⟩

def text (t : Text) : Extract Unit :=
  ⟨[t], [], .ok ()⟩

def found (ts : List Text) : Extract Unit :=
  ⟨ts, [], .ok ()⟩

def warn (w : Warning) : Extract Unit :=
  ⟨[], [w], .ok ()⟩

end Extract
end LocaleLift
