import UnicityBridge.Lib.Bytes
import UnicityBridge.Lib.Result

/-!
# Code that may panic

A checked computation ends in a result, a value or an error, or it panics, which is `none`. The
operations here are those of Rust that panic: an index, a slice, a subtraction below zero, a copy
between different lengths, and a reservation beyond the address space.

`PanicsIff` compares a checked computation with a plain one: it panics exactly under a condition, and
is the plain result otherwise. Its rules follow the binds and loops of the code.
-/

set_option autoImplicit false

namespace UnicityBridge.Lib

/-- A computation that returns a result or panics. -/
abbrev Checked (ε α : Type) := ExceptT ε Option α

namespace Checked

variable {ε ε' α β σ : Type}

/-- The computation that aborts. -/
def panic : Checked ε α := (none : Option (Except ε α))

/-- A result, from a part that has nothing to panic on. -/
def lift (result : Except ε α) : Checked ε α := some result

/-- The computation returns a value or an error. -/
def Returns (c : Checked ε α) : Prop := ∃ result, c = lift result

/-- Another error for a failure; an abort stays one. -/
def mapError (f : ε → ε') (c : Checked ε α) : Checked ε' α :=
  match (c : Option (Except ε α)) with
  | some result => lift (result.mapError f)
  | none => panic

/-! ## What panics -/

/-- `values[i]` -/
def index (values : List α) (i : Nat) : Checked ε α :=
  match values[i]? with
  | some value => lift (.ok value)
  | none => panic

/-- `values[i] = value` -/
def setIndex (values : List α) (i : Nat) (value : α) : Checked ε (List α) :=
  if i < values.length then lift (.ok (values.set i value)) else panic

/-- `values[start..]` -/
def sliceFrom (values : List α) (start : Nat) : Checked ε (List α) :=
  if start ≤ values.length then lift (.ok (values.drop start)) else panic

/-- `values.split_at(mid)` -/
def splitAt (values : List α) (mid : Nat) : Checked ε (List α × List α) :=
  if mid ≤ values.length then lift (.ok (values.take mid, values.drop mid)) else panic

/-- `out[start..].copy_from_slice(data)` -/
def copyFrom (out : List α) (start : Nat) (data : List α) : Checked ε (List α) := do
  let slice ← sliceFrom out start
  if slice.length = data.length then lift (.ok (out.take start ++ data)) else panic

/-- A buffer as the array that it is. -/
def asArray (n : Nat) (out : Bytes) : Checked ε (ByteArr n) :=
  if h : out.length = n then lift (.ok ⟨out, h⟩) else panic

/-- `a - b` of unsigned integers -/
def sub (a b : Nat) : Checked ε Nat := if b ≤ a then lift (.ok (a - b)) else panic

/-- `Vec::with_capacity(count)`, for elements of `size` bytes in an address space that holds `max`. -/
def reserve (max count size : Nat) : Checked ε Unit :=
  if count * size ≤ max then lift (.ok ()) else panic

/-! ## Running -/

@[simp] theorem lift_inj {r r' : Except ε α} :
    (lift r : Checked ε α) = lift r' ↔ r = r' :=
  ⟨fun h => Option.some.inj h, congrArg lift⟩

theorem lift_ne_panic (r : Except ε α) : (lift r : Checked ε α) ≠ panic :=
  Option.some_ne_none r

theorem not_returns_panic : ¬ (panic : Checked ε α).Returns :=
  fun ⟨r, h⟩ => lift_ne_panic r h.symm

@[simp] theorem panic_bind (f : α → Checked ε β) : (panic : Checked ε α) >>= f = panic := rfl

@[simp] theorem ok_bind (a : α) (f : α → Checked ε β) :
    (lift (.ok a) : Checked ε α) >>= f = f a := rfl

@[simp] theorem error_bind (e : ε) (f : α → Checked ε β) :
    (lift (.error e) : Checked ε α) >>= f = lift (.error e) := rfl

theorem pure_eq (a : α) : (pure a : Checked ε α) = lift (.ok a) := rfl

theorem liftM_eq (r : Except ε α) : (liftM r : Checked ε α) = lift r := rfl

/-- Parts that do not panic make a whole that does not. -/
theorem bind_eq {c : Checked ε α} {r : Except ε α} {f : α → Checked ε β} {g : α → Except ε β}
    (hc : c = lift r) (hf : ∀ a, r = .ok a → f a = lift (g a)) :
    c >>= f = lift (r >>= g) := by
  subst hc
  cases r with
  | ok a => exact hf a rfl
  | error e => rfl

/-- A part that does not panic adds no panic. -/
theorem returns_bind {c : Checked ε α} {f : α → Except ε β} :
    (c >>= fun a => lift (f a)).Returns ↔ c.Returns := by
  match c with
  | none => exact iff_of_false not_returns_panic not_returns_panic
  | some (.ok a) => exact iff_of_true ⟨_, rfl⟩ ⟨_, rfl⟩
  | some (.error e) => exact iff_of_true ⟨.error e, rfl⟩ ⟨_, rfl⟩

theorem mapError_eq {c : Checked ε α} {r : Except ε α} (h : c = lift r) (f : ε → ε') :
    c.mapError f = lift (r.mapError f) := by
  subst h
  rfl

theorem index_eq {values : List α} {i : Nat} {value : α} (h : values[i]? = some value) :
    (index values i : Checked ε α) = lift (.ok value) := by
  rw [index, h]

theorem index_bind {values : List α} {i : Nat} {value : α} (h : values[i]? = some value)
    {f : α → Checked ε β} {r : Except ε β} (hf : f value = lift r) :
    index values i >>= f = lift r := by
  rw [index_eq h, ok_bind, hf]

theorem setIndex_eq {values : List α} {i : Nat} {value : α} (h : i < values.length) :
    (setIndex values i value : Checked ε (List α)) = lift (.ok (values.set i value)) := if_pos h

theorem sliceFrom_eq {values : List α} {start : Nat} (h : start ≤ values.length) :
    (sliceFrom values start : Checked ε (List α)) = lift (.ok (values.drop start)) := if_pos h

theorem copyFrom_eq {out data : List α} {start : Nat} (h : start + data.length = out.length) :
    (copyFrom out start data : Checked ε (List α)) = lift (.ok (out.take start ++ data)) := by
  rw [copyFrom, sliceFrom_eq (by omega), ok_bind, if_pos (by rw [List.length_drop]; omega)]

theorem asArray_toList {n : Nat} (value : ByteArr n) :
    (asArray n value.toList : Checked ε (ByteArr n)) = lift (.ok value) := dif_pos value.toList_length

theorem sub_eq {a b : Nat} (h : b ≤ a) : (sub a b : Checked ε Nat) = lift (.ok (a - b)) :=
  if_pos h

theorem reserve_eq {max count size : Nat} (h : count * size ≤ max) :
    (reserve max count size : Checked ε Unit) = lift (.ok ()) := if_pos h

/-- A loop whose turns do not panic does not. -/
theorem foldlM_eq {f : σ → α → Checked ε σ} {g : σ → α → Except ε σ} {values : List α}
    (h : ∀ s, ∀ a ∈ values, f s a = lift (g s a)) (s : σ) :
    values.foldlM f s = lift (values.foldlM g s) := by
  induction values generalizing s with
  | nil => rfl
  | cons a rest ih =>
      rw [List.foldlM_cons, List.foldlM_cons]
      exact bind_eq (h s a List.mem_cons_self) fun s' _ =>
        ih (fun s b hb => h s b (List.mem_cons_of_mem a hb)) s'

/-- A loop of checks that do not panic. -/
theorem forM_eq {f : α → Checked ε PUnit} {g : α → Except ε PUnit} {values : List α}
    (h : ∀ a ∈ values, f a = lift (g a)) : values.forM f = lift (values.forM g) := by
  induction values with
  | nil => rfl
  | cons a rest ih =>
      rw [List.forall_mem_cons] at h
      exact bind_eq h.1 fun _ _ => ih h.2

/-- A loop whose turns return values. -/
theorem foldlM_ok {f : σ → α → Checked ε σ} {g : σ → α → σ} {values : List α}
    (h : ∀ s, ∀ a ∈ values, f s a = lift (.ok (g s a))) (s : σ) :
    values.foldlM f s = lift (.ok (values.foldl g s)) := by
  induction values generalizing s with
  | nil => rfl
  | cons a rest ih =>
      rw [List.foldlM_cons, h s a List.mem_cons_self, ok_bind, List.foldl_cons]
      exact ih (fun s b hb => h s b (List.mem_cons_of_mem a hb)) _

/-- A loop that extends a list. -/
theorem foldlM_extend {f : α → Checked ε (List β)} {g : α → List β} {values : List α}
    (h : ∀ a ∈ values, f a = lift (.ok (g a))) (out : List β) :
    values.foldlM (fun out a => do
      let more ← f a
      pure (out ++ more)) out = lift (.ok (out ++ values.flatMap g)) := by
  induction values generalizing out with
  | nil => rw [List.flatMap_nil, List.append_nil]; rfl
  | cons a rest ih =>
      rw [List.forall_mem_cons] at h
      rw [List.foldlM_cons, h.1, ok_bind, List.flatMap_cons, ← List.append_assoc]
      exact ih h.2 _

/-! ## When code panics -/

/-- The computation panics exactly under `bad`, and is the plain `result` otherwise. -/
structure PanicsIff (bad : Prop) (c : Checked ε α) (result : Except ε α) : Prop where
  panics : bad → c = panic
  returns : ¬ bad → c = lift result

namespace PanicsIff

variable {bad bad' : Prop} {c : Checked ε α} {r : Except ε α}

theorem of_eq (h : c = lift r) : PanicsIff False c r := ⟨False.elim, fun _ => h⟩

theorem congr (h : PanicsIff bad c r) (hbad : bad ↔ bad') : PanicsIff bad' c r :=
  ⟨fun hb => h.panics (hbad.2 hb), fun hb => h.returns fun hb' => hb (hbad.1 hb')⟩

/-- **The computation returns** unless its condition holds. -/
theorem returns_iff (h : PanicsIff bad c r) : c.Returns ↔ ¬ bad := by
  refine ⟨fun hc hbad => ?_, fun hbad => ⟨r, h.returns hbad⟩⟩
  rw [h.panics hbad] at hc
  exact not_returns_panic hc

/-- The second part runs on what the first returned. -/
theorem bind {f : α → Checked ε β} {g : α → Except ε β} {bad' : α → Prop} (h : PanicsIff bad c r)
    (hf : ∀ a, ¬ bad → r = .ok a → PanicsIff (bad' a) (f a) (g a)) :
    PanicsIff (bad ∨ ∃ a, r = .ok a ∧ bad' a) (c >>= f) (r >>= g) := by
  by_cases hbad : bad
  · rw [h.panics hbad]
    exact ⟨fun _ => rfl, fun hn => absurd (.inl hbad) hn⟩
  · rw [h.returns hbad]
    cases r with
    | error e => exact (of_eq rfl).congr (by simp [hbad])
    | ok a =>
        refine (hf a hbad rfl).congr ⟨fun ha => .inr ⟨a, rfl, ha⟩, ?_⟩
        rintro (h | ⟨_, ⟨⟩, ha⟩)
        · exact absurd h hbad
        · exact ha

/-- After a part that does not panic. -/
theorem after {f : α → Checked ε β} {g : α → Except ε β} {bad' : α → Prop} (h : c = lift r)
    (hf : ∀ a, r = .ok a → PanicsIff (bad' a) (f a) (g a)) :
    PanicsIff (∃ a, r = .ok a ∧ bad' a) (c >>= f) (r >>= g) :=
  ((of_eq h).bind fun a _ => hf a).congr (by simp)

/-- Before a part that does not panic. -/
theorem before {f : α → Checked ε β} {g : α → Except ε β} (h : PanicsIff bad c r)
    (hf : ∀ a, ¬ bad → r = .ok a → f a = lift (g a)) : PanicsIff bad (c >>= f) (r >>= g) :=
  (h.bind fun a hbad ha => of_eq (hf a hbad ha)).congr (by simp)

theorem mapError (h : PanicsIff bad c r) (f : ε → ε') :
    PanicsIff bad (c.mapError f) (r.mapError f) := by
  refine ⟨fun hbad => ?_, fun hbad => mapError_eq (h.returns hbad) f⟩
  rw [h.panics hbad]
  rfl

theorem reserve (max count size : Nat) :
    PanicsIff (max < count * size) (Checked.reserve max count size : Checked ε Unit) (.ok ()) :=
  ⟨fun h => if_neg (Nat.not_le.2 h), fun h => reserve_eq (Nat.not_lt.1 h)⟩

/-- **A loop panics** in the turn that does, when the turns before it succeed. -/
theorem foldlM {f : σ → α → Checked ε σ} {g : σ → α → Except ε σ} {bad : σ → α → Prop}
    (h : ∀ s a, PanicsIff (bad s a) (f s a) (g s a)) (values : List α) (s : σ) :
    PanicsIff (∃ front a back s', values = front ++ a :: back ∧ front.foldlM g s = .ok s' ∧ bad s' a)
      (values.foldlM f s) (values.foldlM g s) := by
  induction values generalizing s with
  | nil => exact (of_eq rfl).congr (by simp)
  | cons a rest ih =>
      rw [List.foldlM_cons, List.foldlM_cons]
      refine ((h s a).bind fun s' _ _ => ih s').congr ⟨?_, ?_⟩
      · rintro (hbad | ⟨s', hs, front, b, back, last, rfl, hfront, hbad⟩)
        · exact ⟨[], a, rest, s, rfl, rfl, hbad⟩
        · exact ⟨a :: front, b, back, last, rfl, by rw [List.foldlM_cons, hs]; exact hfront, hbad⟩
      · rintro ⟨front, b, back, last, hsplit, hfront, hbad⟩
        cases front with
        | nil =>
            obtain ⟨rfl, rfl⟩ := List.cons.inj hsplit
            cases hfront
            exact .inl hbad
        | cons c front =>
            obtain ⟨rfl, rfl⟩ := List.cons.inj hsplit
            rw [List.foldlM_cons, bind_eq_ok] at hfront
            obtain ⟨s', hs, hfront⟩ := hfront
            exact .inr ⟨s', hs, front, b, back, last, rfl, hfront, hbad⟩

end PanicsIff

end Checked

end UnicityBridge.Lib
