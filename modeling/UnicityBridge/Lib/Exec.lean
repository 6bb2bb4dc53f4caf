import UnicityBridge.Lib.Result

/-!
# Programs over a state

Programs that read and write a state and may fail, where a failure rolls everything back. The rules
say what it takes for a composed program to succeed or to fail, and that a composed program or a loop
keeps what its parts keep. `attempt` runs a program and rolls back if it fails, as a caller does that survives the
failure of its callee.
-/

set_option autoImplicit false

namespace UnicityBridge.Lib

/-- A computation over the state `S` that may fail with an `E`. -/
abbrev Exec (S E : Type) := StateT S (Except E)

namespace Exec

variable {S E α β : Type}

/-- What `f` sees of the state. -/
def read (f : S → α) : Exec S E α := fun s => .ok (f s, s)

/-- A change of the state. -/
def update (f : S → S) : Exec S E Unit := fun s => .ok ((), f s)

/-- The failing computation. -/
def fail (error : E) : Exec S E α := fun _ => .error error

/-- Fail with `error` unless `p` holds. -/
def require (p : Prop) [Decidable p] (error : E) : Exec S E Unit :=
  if p then pure () else fail error

/-- The value of an option; fail with `error` if there is none. -/
def expect (value : Option α) (error : E) : Exec S E α :=
  match value with
  | some a => pure a
  | none => fail error

/-- Run a program; if it fails, keep the state and return the error. -/
def attempt (x : Exec S E α) : Exec S E (Except E α) := fun s =>
  match x s with
  | .ok (a, s') => .ok (.ok a, s')
  | .error e => .ok (.error e, s)

variable {x : Exec S E α} {f : α → Exec S E β} {s s' : S} {a : α} {b : β} {e : E}

theorem bind_eq (x : Exec S E α) (f : α → Exec S E β) (s : S) :
    (x >>= f) s = match x s with
      | .ok (a, s') => f a s'
      | .error e => .error e := by
  show (x s >>= fun p => f p.1 p.2) = _
  cases x s with
  | ok p => rfl
  | error e => rfl

/-- A sequence succeeds when both parts do. -/
@[simp] theorem bind_ok :
    (x >>= f) s = .ok (b, s') ↔ ∃ a mid, x s = .ok (a, mid) ∧ f a mid = .ok (b, s') := by
  rw [bind_eq]
  cases hx : x s with
  | ok p => simp [Prod.ext_iff]
  | error e => simp

/-- A sequence fails in its first part or in its second. -/
theorem bind_error :
    (x >>= f) s = .error e ↔
      x s = .error e ∨ ∃ a mid, x s = .ok (a, mid) ∧ f a mid = .error e := by
  rw [bind_eq]
  cases hx : x s with
  | ok p => simp [Prod.ext_iff]
  | error e => simp

/-- After a first part that succeeds, a sequence is its second part. -/
theorem bind_of_ok {mid : S} (h : x s = .ok (a, mid)) : (x >>= f) s = f a mid := by
  rw [bind_eq, h]

theorem bind_of_error (h : x s = .error e) : (x >>= f) s = .error e := by
  rw [bind_eq, h]

@[simp] theorem pure_ok {a' : α} :
    (pure a : Exec S E α) s = .ok (a', s') ↔ a = a' ∧ s = s' := by
  show (Except.ok (a, s) : Except E (α × S)) = .ok (a', s') ↔ _
  simp

@[simp] theorem read_ok {g : S → α} :
    (read g : Exec S E α) s = .ok (a, s') ↔ g s = a ∧ s = s' := by
  simp [read]

@[simp] theorem update_ok {g : S → S} {u : Unit} :
    (update g : Exec S E Unit) s = .ok (u, s') ↔ g s = s' := by
  simp [update]

@[simp] theorem fail_ok : (fail e : Exec S E α) s ≠ .ok (a, s') := by
  simp [fail]

@[simp] theorem require_ok {p : Prop} [Decidable p] {u : Unit} :
    (require p e : Exec S E Unit) s = .ok (u, s') ↔ p ∧ s = s' := by
  unfold require
  split <;> simp [*]

theorem require_of {p : Prop} [Decidable p] (h : p) :
    (require p e : Exec S E Unit) s = .ok ((), s) :=
  require_ok.2 ⟨h, rfl⟩

@[simp] theorem expect_ok {value : Option α} :
    (expect value e : Exec S E α) s = .ok (a, s') ↔ value = some a ∧ s = s' := by
  cases value <;> simp [expect]

/-! Sequences whose first part is one of the primitives. -/

theorem read_bind {g : S → α} : (read g >>= f) s = f (g s) s := rfl

theorem update_bind {g : S → S} {next : Unit → Exec S E β} :
    (update g >>= next) s = next () (g s) := rfl

theorem require_bind {p : Prop} [Decidable p] {next : Unit → Exec S E β} :
    (require p e >>= next) s = .ok (b, s') ↔ p ∧ next () s = .ok (b, s') := by
  simp only [bind_ok, require_ok]
  constructor
  · rintro ⟨_, _, ⟨hp, rfl⟩, h⟩
    exact ⟨hp, h⟩
  · rintro ⟨hp, h⟩
    exact ⟨(), s, ⟨hp, rfl⟩, h⟩

theorem expect_bind {value : Option α} :
    (expect value e >>= f) s = .ok (b, s') ↔ ∃ a, value = some a ∧ f a s = .ok (b, s') := by
  simp

theorem attempt_ok {result : Except E α} (h : attempt x s = .ok (result, s')) :
    (∃ a, result = .ok a ∧ x s = .ok (a, s')) ∨ (∃ e, result = .error e) ∧ s' = s := by
  unfold attempt at h
  split at h
  · next a mid hx =>
    cases h
    exact .inl ⟨a, rfl, hx⟩
  · cases h
    exact .inr ⟨⟨_, rfl⟩, rfl⟩

theorem forM_invariant_from {body : α → Exec S E PUnit} {Inv : List α → S → Prop}
    (hstep : ∀ done a s s', Inv done s → body a s = .ok (⟨⟩, s') → Inv (done ++ [a]) s') :
    ∀ {xs : List α} {done : List α} {s s' : S}, Inv done s →
      xs.forM body s = .ok (⟨⟩, s') → Inv (done ++ xs) s'
  | [], done, s, s', hinv, h => by
      obtain ⟨-, rfl⟩ := pure_ok.1 h
      rw [List.append_nil]
      exact hinv
  | a :: rest, done, s, s', hinv, h => by
      obtain ⟨⟨⟩, mid, hbody, hrest⟩ := bind_ok.1 h
      rw [List.append_cons]
      exact forM_invariant_from hstep (hstep done a s mid hinv hbody) hrest

/-- **A loop keeps what its body keeps**, for an invariant over the items done so far. -/
theorem forM_invariant {body : α → Exec S E PUnit} (Inv : List α → S → Prop)
    (hstep : ∀ done a s s', Inv done s → body a s = .ok (⟨⟩, s') → Inv (done ++ [a]) s')
    {xs : List α} (hinv : Inv [] s) (h : xs.forM body s = .ok (⟨⟩, s')) : Inv xs s' :=
  forM_invariant_from hstep hinv h

/-- A loop fails in the run of its body that comes after some runs that succeed. -/
theorem forM_error {body : α → Exec S E PUnit} :
    ∀ {xs : List α} {s : S}, xs.forM body s = .error e →
      ∃ done a rest mid, xs = done ++ a :: rest ∧ done.forM body s = .ok (⟨⟩, mid) ∧
        body a mid = .error e
  | [], _, h => by cases h
  | a :: rest, s, h => by
      rcases bind_error.1 h with hbody | ⟨⟨⟩, mid, hfirst, hrest⟩
      · exact ⟨[], a, rest, s, rfl, rfl, hbody⟩
      · obtain ⟨done, a', rest', mid', rfl, hdone, hbody⟩ := forM_error hrest
        exact ⟨a :: done, a', rest', mid', rfl, bind_ok.2 ⟨⟨⟩, mid, hfirst, hdone⟩, hbody⟩

/-! ## Properties that a program keeps -/

/-- Whenever the program succeeds from a state with the property, it ends in one. -/
def Keeps (P : S → Prop) (x : Exec S E α) : Prop := ∀ s a s', P s → x s = .ok (a, s') → P s'

namespace Keeps

variable {P : S → Prop}

theorem pure (a : α) : Keeps P (Pure.pure a : Exec S E α) := by
  intro s _ s' hs h
  obtain ⟨-, rfl⟩ := pure_ok.1 h
  exact hs

theorem read (g : S → α) : Keeps P (read g : Exec S E α) := by
  intro s _ s' hs h
  obtain ⟨-, rfl⟩ := read_ok.1 h
  exact hs

theorem fail (e : E) : Keeps P (fail e : Exec S E α) :=
  fun _ _ _ _ h => absurd h fail_ok

theorem require (p : Prop) [Decidable p] (e : E) : Keeps P (require p e : Exec S E Unit) := by
  intro s _ s' hs h
  obtain ⟨-, rfl⟩ := require_ok.1 h
  exact hs

theorem expect (value : Option α) (e : E) : Keeps P (expect value e : Exec S E α) := by
  intro s _ s' hs h
  obtain ⟨-, rfl⟩ := expect_ok.1 h
  exact hs

theorem update {g : S → S} (h : ∀ s, P s → P (g s)) : Keeps P (update g : Exec S E Unit) := by
  intro s _ s' hs hok
  rw [← update_ok.1 hok]
  exact h s hs

theorem bind (hx : Keeps P x) (hf : ∀ a, Keeps P (f a)) : Keeps P (x >>= f) := by
  intro s b s' hs h
  obtain ⟨a, mid, hfirst, hrest⟩ := bind_ok.1 h
  exact hf a mid b s' (hx s a mid hs hfirst) hrest

theorem attempt (hx : Keeps P x) : Keeps P (attempt x) := by
  intro s _ s' hs h
  rcases attempt_ok h with ⟨a, -, hok⟩ | ⟨-, rfl⟩
  · exact hx s a s' hs hok
  · exact hs

theorem forM {body : α → Exec S E PUnit} (h : ∀ a, Keeps P (body a)) (xs : List α) :
    Keeps P (xs.forM body) := by
  induction xs with
  | nil => exact .pure _
  | cons a rest ih => exact .bind (h a) fun _ => ih

theorem foldlM {body : β → α → Exec S E β} (h : ∀ b a, Keeps P (body b a)) (xs : List α) (b : β) :
    Keeps P (xs.foldlM body b) := by
  induction xs generalizing b with
  | nil => exact .pure _
  | cons a rest ih =>
      rw [List.foldlM_cons]
      exact .bind (h b a) fun b' => ih b'

end Keeps

end Exec

end UnicityBridge.Lib
