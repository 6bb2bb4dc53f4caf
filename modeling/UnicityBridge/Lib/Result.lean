import Mathlib.Data.List.Basic
import Mathlib.Data.List.Forall2

/-!
# Results

Checks in the `Except` monad and what it takes for a computation to succeed: every check holds, every
part succeeds, every turn of a loop succeeds.
-/

set_option autoImplicit false

namespace UnicityBridge.Lib

universe u v

/-- A check that fails with `error` unless `p` holds. -/
def ensure {ε : Type u} (p : Prop) [Decidable p] (error : ε) : Except ε Unit :=
  if p then .ok () else .error error

/-- The value of an option, or an error. -/
def okOr {ε : Type u} {α : Type v} (value : Option α) (error : ε) : Except ε α :=
  match value with
  | some a => .ok a
  | none => .error error

variable {ε : Type u} {α β : Type v}

@[simp] theorem ensure_eq_ok {p : Prop} [Decidable p] {error : ε} {u : Unit} :
    ensure p error = .ok u ↔ p := by
  unfold ensure
  split <;> simp [*]

@[simp] theorem okOr_eq_ok {value : Option α} {error : ε} {a : α} :
    okOr value error = .ok a ↔ value = some a := by
  cases value <;> simp [okOr]

@[simp] theorem bind_eq_ok {x : Except ε α} {f : α → Except ε β} {b : β} :
    (x >>= f) = .ok b ↔ ∃ a, x = .ok a ∧ f a = .ok b := by
  cases x with
  | ok a =>
      constructor
      · intro h
        exact ⟨a, rfl, h⟩
      · rintro ⟨_, ha, h⟩
        cases ha
        exact h
  | error e =>
      constructor
      · intro h
        cases h
      · rintro ⟨_, ha, _⟩
        cases ha

@[simp] theorem pure_eq_ok {a b : α} : (pure a : Except ε α) = .ok b ↔ a = b := by
  constructor
  · intro h
    exact Except.ok.inj h
  · rintro rfl
    rfl

@[simp] theorem mapError_eq_ok {ε' : Type u} {x : Except ε α} {f : ε → ε'} {a : α} :
    x.mapError f = .ok a ↔ x = .ok a := by
  cases x <;> simp [Except.mapError]

theorem okOr_bind {α β : Type v} {x : Option α} {f : α → Option β} {error : ε} :
    okOr (x >>= f) error = okOr x error >>= fun a => okOr (f a) error := by
  cases x with
  | none | some => rfl

/-- A loop over checks succeeds when every check does. -/
theorem forM_eq_ok {f : α → Except ε PUnit} {xs : List α} {u : PUnit} :
    xs.forM f = .ok u ↔ ∀ x ∈ xs, f x = .ok u := by
  induction xs with
  | nil =>
      show (pure ⟨⟩ : Except ε PUnit) = .ok u ↔ _
      simp
  | cons x rest ih =>
      show (f x >>= fun _ => rest.forM f) = .ok u ↔ _
      rw [bind_eq_ok, List.forall_mem_cons, ← ih]
      constructor
      · rintro ⟨_, hx, hrest⟩
        exact ⟨hx, hrest⟩
      · rintro ⟨hx, hrest⟩
        exact ⟨_, hx, hrest⟩

/-- A loop that collects results succeeds when every part does. -/
theorem mapM_ok {f : α → Except ε β} {g : α → β} {xs : List α} (h : ∀ x ∈ xs, f x = .ok (g x)) :
    xs.mapM f = .ok (xs.map g) := by
  induction xs with
  | nil => rfl
  | cons x rest ih =>
      rw [List.mapM_cons, h x List.mem_cons_self, ih fun y hy => h y (List.mem_cons_of_mem x hy)]
      rfl

/-- A loop that collects results succeeds with these exactly when the parts do, one by one. -/
theorem mapM_eq_ok {f : α → Except ε β} {xs : List α} {ys : List β} :
    xs.mapM f = .ok ys ↔ List.Forall₂ (fun x y => f x = .ok y) xs ys := by
  induction xs generalizing ys with
  | nil =>
      rw [List.forall₂_nil_left_iff]
      constructor
      · intro h
        exact (Except.ok.inj h).symm
      · rintro rfl
        rfl
  | cons x rest ih =>
      rw [List.mapM_cons, List.forall₂_cons_left_iff, bind_eq_ok]
      simp only [bind_eq_ok, pure_eq_ok, ih]
      constructor
      · rintro ⟨y, hx, more, hrest, rfl⟩
        exact ⟨y, more, hx, hrest, rfl⟩
      · rintro ⟨y, more, hx, hrest, rfl⟩
        exact ⟨y, hx, more, hrest, rfl⟩

theorem exists_mapM_eq_ok {f : α → Except ε β} {xs : List α} (h : ∀ x ∈ xs, ∃ y, f x = .ok y) :
    ∃ ys, xs.mapM f = .ok ys := by
  simp only [mapM_eq_ok]
  induction xs with
  | nil => exact ⟨[], .nil⟩
  | cons x rest ih =>
      rw [List.forall_mem_cons] at h
      obtain ⟨y, hy⟩ := h.1
      obtain ⟨ys, hys⟩ := ih h.2
      exact ⟨y :: ys, .cons hy hys⟩

/-- A search that may fail finds a value that it accepts. -/
theorem findM?_some {ε α : Type} {p : α → Except ε Bool} {values : List α} {value : α}
    (h : values.findM? p = .ok (some value)) : value ∈ values ∧ p value = .ok true := by
  induction values with
  | nil => cases h
  | cons first rest ih =>
      rw [List.findM?, bind_eq_ok] at h
      obtain ⟨hit, hfirst, h⟩ := h
      cases hit with
      | true =>
          cases h
          exact ⟨List.mem_cons_self, hfirst⟩
      | false => exact ⟨List.mem_cons_of_mem first (ih h).1, (ih h).2⟩

/-- A search that finds nothing refused every value. -/
theorem findM?_none {ε α : Type} {p : α → Except ε Bool} {values : List α}
    (h : values.findM? p = .ok none) : ∀ value ∈ values, p value = .ok false := by
  induction values with
  | nil => exact fun _ hvalue => absurd hvalue List.not_mem_nil
  | cons first rest ih =>
      rw [List.findM?, bind_eq_ok] at h
      obtain ⟨hit, hfirst, h⟩ := h
      cases hit with
      | true => cases h
      | false => exact List.forall_mem_cons.2 ⟨hfirst, ih h⟩

/-- A search fails where its test does. -/
theorem findM?_error {ε α : Type} {p : α → Except ε Bool} {values : List α} {error : ε}
    (h : values.findM? p = .error error) : ∃ value ∈ values, p value = .error error := by
  induction values with
  | nil => cases h
  | cons first rest ih =>
      rw [List.findM?] at h
      cases hfirst : p first with
      | error e =>
          rw [hfirst] at h
          cases h
          exact ⟨first, List.mem_cons_self, hfirst⟩
      | ok hit =>
          rw [hfirst] at h
          cases hit with
          | true => cases h
          | false =>
              obtain ⟨value, hvalue, herror⟩ := ih h
              exact ⟨value, List.mem_cons_of_mem first hvalue, herror⟩

end UnicityBridge.Lib
